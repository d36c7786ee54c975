import HpsSf.Foundation.System
import HpsSf.Log.Logger

/-! Loggers and appenders as objects that are shared by pointers.

An appender may be in the lists of several loggers. It keeps a copy of the
formatter that it logs with, and each operation below decides whether to write
that copy.
-/

set_option autoImplicit false

namespace HpsSf.Log
open Foundation (Text)

abbrev LoggerPtr := Nat

abbrev AppenderPtr := Nat

/-- `hps_Logger`; its formatter may be null. -/
structure LoggerObject where
  name : Text
  level : LogLevel
  formatter : Option LogFormatter
  appenders : List AppenderPtr
  deriving DecidableEq, Repr

/-- The constructor. -/
def LoggerObject.create (name : Text) : LoggerObject := ⟨name, .debug, some (.init defaultPattern), []⟩

structure Objects where
  logger : LoggerPtr → LoggerObject
  appender : AppenderPtr → LogAppender

namespace Objects

def setLogger (s : Objects) (l : LoggerPtr) (object : LoggerObject) : Objects :=
  { s with logger := Function.update s.logger l object }

def setAppender (s : Objects) (a : AppenderPtr) (object : LogAppender) : Objects :=
  { s with appender := Function.update s.appender a object }

/-- `i -> m_formatter = m_formatter`, unless the appender has one of its own. -/
def inherit (val : Option LogFormatter) (s : Objects) (i : AppenderPtr) : Objects :=
  if (s.appender i).hasFormatter then s else s.setAppender i { s.appender i with formatter := val }

/-- `hps_Logger::setFormatter` with a formatter. -/
def setFormatter (s : Objects) (l : LoggerPtr) (val : Option LogFormatter) : Objects :=
  (s.logger l).appenders.foldl (inherit val) (s.setLogger l { s.logger l with formatter := val })

/-- `hps_Logger::setFormatter` with a pattern. -/
def setPattern (s : Objects) (l : LoggerPtr) (val : Text) : Objects :=
  let new_val := LogFormatter.init val
  if new_val.isError then s else s.setFormatter l (some new_val)

def addAppender (s : Objects) (l : LoggerPtr) (a : AppenderPtr) : Objects :=
  -- A copy that the appender still has from elsewhere is not looked at again.
  let s :=
    if (s.appender a).formatter.isNone then s.setAppender a { s.appender a with formatter := (s.logger l).formatter }
    else s
  s.setLogger l { s.logger l with appenders := (s.logger l).appenders ++ [a] }

/-- The first one in the list that is this appender goes. -/
def delAppender (s : Objects) (l : LoggerPtr) (a : AppenderPtr) : Objects :=
  s.setLogger l { s.logger l with appenders := (s.logger l).appenders.erase a }

def clearAppenders (s : Objects) (l : LoggerPtr) : Objects :=
  s.setLogger l { s.logger l with appenders := [] }

/-- `hps_LogAppender::setFormatter`; null takes the formatter away and puts nothing in its place. -/
def setAppenderFormatter (s : Objects) (a : AppenderPtr) (val : Option LogFormatter) : Objects :=
  s.setAppender a { s.appender a with formatter := val, hasFormatter := val.isSome }

end Objects

inductive ObjectOp where
  | addAppender (l : LoggerPtr) (a : AppenderPtr)
  | delAppender (l : LoggerPtr) (a : AppenderPtr)
  | clearAppenders (l : LoggerPtr)
  | setFormatter (l : LoggerPtr) (val : Option LogFormatter)
  | setPattern (l : LoggerPtr) (val : Text)
  | setLevel (l : LoggerPtr) (level : LogLevel)
  | setAppenderFormatter (a : AppenderPtr) (val : Option LogFormatter)
  | setAppenderLevel (a : AppenderPtr) (level : LogLevel)

def Objects.apply (s : Objects) : ObjectOp → Objects
  | .addAppender l a => s.addAppender l a
  | .delAppender l a => s.delAppender l a
  | .clearAppenders l => s.clearAppenders l
  | .setFormatter l val => s.setFormatter l val
  | .setPattern l val => s.setPattern l val
  | .setLevel l level => s.setLogger l { s.logger l with level := level }
  | .setAppenderFormatter a val => s.setAppenderFormatter a val
  | .setAppenderLevel a level => s.setAppender a { s.appender a with level := level }

/-- As the constructors leave them: all loggers and appenders there will ever be. -/
structure Objects.Fresh (s : Objects) : Prop where
  logger : ∀ l, s.logger l = .create (s.logger l).name
  appender : ∀ a, (s.appender a).hasFormatter = false ∧ (s.appender a).formatter = none

namespace Objects

/-- All loggers are named alike, and all appenders are for the terminal. -/
def initial : Objects := ⟨fun _ => .create "root".toList, fun _ => { kind := .stdout }⟩

theorem initial_fresh : initial.Fresh := ⟨fun _ => rfl, fun _ => ⟨rfl, rfl⟩⟩

section
variable (s : Objects)

@[simp] theorem setLogger_appender (l : LoggerPtr) (object : LoggerObject) :
    (s.setLogger l object).appender = s.appender :=
  rfl

@[simp] theorem setLogger_self (l : LoggerPtr) (object : LoggerObject) : (s.setLogger l object).logger l = object :=
  Function.update_self ..

theorem setLogger_of_ne {l other : LoggerPtr} (object : LoggerObject) (distinct : other ≠ l) :
    (s.setLogger l object).logger other = s.logger other :=
  Function.update_of_ne distinct ..

@[simp] theorem setAppender_logger (a : AppenderPtr) (object : LogAppender) :
    (s.setAppender a object).logger = s.logger :=
  rfl

@[simp] theorem setAppender_self (a : AppenderPtr) (object : LogAppender) :
    (s.setAppender a object).appender a = object :=
  Function.update_self ..

theorem setAppender_of_ne {a other : AppenderPtr} (object : LogAppender) (distinct : other ≠ a) :
    (s.setAppender a object).appender other = s.appender other :=
  Function.update_of_ne distinct ..

@[simp] theorem inherit_logger (val : Option LogFormatter) (i : AppenderPtr) : (inherit val s i).logger = s.logger := by
  unfold inherit
  split <;> rfl

theorem inherit_appender (val : Option LogFormatter) (i a : AppenderPtr) : (inherit val s i).appender a =
    if a = i ∧ (s.appender a).hasFormatter = false then { s.appender a with formatter := val } else s.appender a := by
  unfold inherit
  by_cases same : a = i
  · subst same
    split
    next own => simp [own]
    next none => simp [none]
  · split
    · simp [same]
    · simp [same, setAppender_of_ne]

/-- The loop writes the appenders of the list that have no formatter of their own. -/
theorem inheritAll (val : Option LogFormatter) (appenders : List AppenderPtr) :
    (appenders.foldl (inherit val) s).logger = s.logger ∧
      ∀ a, (appenders.foldl (inherit val) s).appender a =
        if a ∈ appenders ∧ (s.appender a).hasFormatter = false then { s.appender a with formatter := val }
        else s.appender a := by
  induction appenders generalizing s with
  | nil => exact ⟨rfl, fun a => (if_neg fun inside => nomatch inside.1).symm⟩
  | cons i rest ih =>
    obtain ⟨logger, appender⟩ := ih (inherit val s i)
    refine ⟨logger.trans (inherit_logger s val i), fun a => ?_⟩
    rw [List.foldl_cons, appender, inherit_appender]
    by_cases own : (s.appender a).hasFormatter = false
    · obtain rfl | other := eq_or_ne a i
      · simp [own]
      · simp [other, own]
    · simp [own]

theorem setFormatter_logger (l : LoggerPtr) (val : Option LogFormatter) : (s.setFormatter l val).logger =
    Function.update s.logger l { s.logger l with formatter := val } :=
  (inheritAll _ val _).1

theorem setFormatter_appender (l : LoggerPtr) (val : Option LogFormatter) (a : AppenderPtr) :
    (s.setFormatter l val).appender a =
      if a ∈ (s.logger l).appenders ∧ (s.appender a).hasFormatter = false then { s.appender a with formatter := val }
      else s.appender a :=
  (inheritAll _ val _).2 a

theorem addAppender_logger (l : LoggerPtr) (a : AppenderPtr) : (s.addAppender l a).logger =
    Function.update s.logger l { s.logger l with appenders := (s.logger l).appenders ++ [a] } := by
  unfold addAppender
  dsimp only
  split <;> rfl

theorem addAppender_appender (l : LoggerPtr) (a b : AppenderPtr) : (s.addAppender l a).appender b =
    if b = a ∧ (s.appender b).formatter = none then { s.appender b with formatter := (s.logger l).formatter }
    else s.appender b := by
  unfold addAppender
  by_cases same : b = a
  · subst same
    cases copy : (s.appender b).formatter <;> simp
  · split <;> simp [same, setAppender_of_ne]

end
end Objects
end HpsSf.Log
