import HpsSf.Log.Define
import HpsSf.Log.Logger

/-! The listener that puts changed logger definitions into effect.

A definition that is equal in the old and the new set leaves the pointer to its
logger null, and the pointer is used all the same.
-/

set_option autoImplicit false

namespace HpsSf.Log
open Foundation (Text OrderedSet)

inductive ReloadFault where
  | nullLogger
  | nullAppender
  deriving DecidableEq, Repr

/-- The body of the loop over the appenders of a definition. -/
def addDefined (logger : Logger) (a : LogAppenderDefine) : Except ReloadFault Logger :=
  let ap : Option LogAppender :=
    if a.type = 1 then some { kind := .file a.file }
    else if a.type = 2 then some { kind := .stdout }
    else none
  match ap with
  | none => throw .nullAppender
  | some ap =>
    let ap := { ap with level := a.level }
    let ap :=
      if a.formatter.isEmpty then ap
      else
        let fmt := LogFormatter.init a.formatter
        if fmt.isError then ap else ap.setFormatter fmt
    return logger.addAppender ap

/-- What is done with the logger of a definition. -/
def configure (i : LogDefine) (logger : Logger) : Except ReloadFault Logger :=
  let logger := { logger with level := i.level }
  let logger := if i.formatter.isEmpty then logger else logger.setPattern i.formatter
  i.appenders.foldlM addDefined logger.clearAppenders

/-- The body of the loop over the new definitions. -/
def applyDefine (old_value : LogDefines) (loggers : Loggers) (i : LogDefine) : Except ReloadFault Loggers := do
  -- Without an assignment to it, `logger` is a null pointer.
  let named :=
    match old_value.find i with
    | none => some (loggers.getLogger i.name)
    -- `!(i == *it)` guards the assignment alone, not the use behind it.
    | some it => if i = it then none else some (loggers.getLogger i.name)
  match named with
  | none => throw .nullLogger
  | some (logger, loggers) =>
    let logger ← configure i logger
    return Function.update loggers i.name (some logger)

/-- The body of the loop over the old definitions. -/
def removeDefine (new_value : LogDefines) (loggers : Loggers) (i : LogDefine) : Loggers :=
  match new_value.find i with
  | some _ => loggers
  | none =>
    let (logger, loggers) := loggers.getLogger i.name
    let logger := { logger with level := .cast 100 }
    Function.update loggers i.name (some logger.clearAppenders)

/-- The callback that `hps_LogIniter` passes to `addListener`. -/
def listener (old_value new_value : LogDefines) (loggers : Loggers) : Except ReloadFault Loggers := do
  let loggers ← new_value.elements.foldlM (applyDefine old_value) loggers
  return old_value.elements.foldl (removeDefine new_value) loggers

/-! ## What must come of it -/

/-- The formatter that a text gives; `none` for an empty or invalid one. -/
def givenFormatter (text : Text) : Option LogFormatter :=
  if text.isEmpty then none
  else
    let fmt := LogFormatter.init text
    if fmt.isError then none else some fmt

/-- The appender that is defined, in a logger with a formatter. -/
def definedAppender (formatter : LogFormatter) (a : LogAppenderDefine) : LogAppender where
  kind := if a.type = 1 then .file a.file else .stdout
  level := a.level
  hasFormatter := (givenFormatter a.formatter).isSome
  formatter := some ((givenFormatter a.formatter).getD formatter)

/-- The logger that is defined, on top of the one before. -/
def definedLogger (i : LogDefine) (before : Logger) : Logger :=
  let formatter := (givenFormatter i.formatter).getD before.formatter
  ⟨before.name, i.level, i.appenders.map (definedAppender formatter), formatter⟩

/-- The logger under a name, as `getLogger` gives it. -/
def Loggers.named (loggers : Loggers) (name : Text) : Logger := (loggers name).getD (.create name)

structure Applied (old_value new_value : LogDefines) (before after : Loggers) : Prop where
  defined : ∀ i ∈ new_value.elements, after i.name = some (definedLogger i (before.named i.name))
  removed : ∀ i ∈ old_value.elements, (∀ j ∈ new_value.elements, j.name ≠ i.name) →
    ∃ logger, after i.name = some logger ∧ logger.appenders = [] ∧ ∀ level : LogLevel, level.Named → ¬ logger.Logs level
  others : ∀ name, (∀ i ∈ new_value.elements, i.name ≠ name) → (∀ i ∈ old_value.elements, i.name ≠ name) →
    after name = before name

/-! ## One definition -/

/-- The appenders of the definition have one of the two types. -/
def Kinds (i : LogDefine) : Prop := ∀ a ∈ i.appenders, a.type = 1 ∨ a.type = 2

theorem addDefined_eq {logger : Logger} {a : LogAppenderDefine} (kind : a.type = 1 ∨ a.type = 2) :
    addDefined logger a =
      .ok { logger with appenders := logger.appenders ++ [definedAppender logger.formatter a] } := by
  have made : (if a.type = 1 then some { kind := .file a.file }
      else if a.type = 2 then some { kind := .stdout } else none : Option LogAppender) =
        some { kind := if a.type = 1 then .file a.file else .stdout } := by
    obtain one | two := kind
    · rw [if_pos one, if_pos one]
    · have other : a.type ≠ 1 := fun one => absurd (two.symm.trans one) (by decide)
      rw [if_neg other, if_neg other, if_pos two]
  unfold addDefined definedAppender givenFormatter
  simp only [made]
  by_cases given : a.formatter.isEmpty
  · simp [given, Logger.addAppender, pure, Except.pure]
  by_cases invalid : (LogFormatter.init a.formatter).isError
  · simp [given, invalid, Logger.addAppender, pure, Except.pure]
  · simp [given, invalid, Logger.addAppender, LogAppender.setFormatter, pure, Except.pure]

theorem addDefined_null {logger : Logger} {a : LogAppenderDefine} (kind : ¬ (a.type = 1 ∨ a.type = 2)) :
    addDefined logger a = .error .nullAppender := by
  rw [not_or] at kind
  simp [addDefined, kind.1, kind.2, throw, throwThe, MonadExceptOf.throw]

theorem addAll_eq {appenders : List LogAppenderDefine} {logger : Logger}
    (kinds : ∀ a ∈ appenders, a.type = 1 ∨ a.type = 2) :
    appenders.foldlM addDefined logger =
      .ok { logger with appenders := logger.appenders ++ appenders.map (definedAppender logger.formatter) } := by
  induction appenders generalizing logger with
  | nil => simp [pure, Except.pure]
  | cons a rest ih =>
    rw [List.foldlM_cons, addDefined_eq (kinds a (List.mem_cons_self ..))]
    simp only [bind, Except.bind]
    rw [ih fun b member => kinds b (List.mem_cons_of_mem _ member)]
    simp

theorem addAll_null {appenders : List LogAppenderDefine} {logger : Logger}
    (kinds : ¬ ∀ a ∈ appenders, a.type = 1 ∨ a.type = 2) : appenders.foldlM addDefined logger = .error .nullAppender := by
  induction appenders generalizing logger with
  | nil => exact absurd (fun a member => nomatch member) kinds
  | cons a rest ih =>
    rw [List.foldlM_cons]
    by_cases kind : a.type = 1 ∨ a.type = 2
    · rw [addDefined_eq kind]
      simp only [bind, Except.bind]
      apply ih
      intro later
      apply kinds
      rintro b member
      obtain rfl | behind := List.mem_cons.mp member
      · exact kind
      · exact later b behind
    · rw [addDefined_null kind]
      rfl

theorem getLogger_fst (loggers : Loggers) (name : Text) : (loggers.getLogger name).1 = loggers.named name := by
  unfold Loggers.getLogger Loggers.named
  split <;> simp_all

/-- What is then written under the name hides that the logger may be new. -/
theorem update_getLogger (loggers : Loggers) (name : Text) (value : Option Logger) :
    Function.update (loggers.getLogger name).2 name value = Function.update loggers name value := by
  unfold Loggers.getLogger
  split
  · rfl
  · exact Function.update_idem ..

/-- The formatter of a definition replaces the one before when it is valid. -/
theorem formatter_set (logger : Logger) (text : Text) :
    let set := if text.isEmpty then logger else logger.setPattern text
    set.formatter = (givenFormatter text).getD logger.formatter ∧ set.name = logger.name ∧ set.level = logger.level := by
  unfold givenFormatter
  split
  · exact ⟨rfl, rfl, rfl⟩
  · unfold Logger.setPattern
    simp only
    split <;> exact ⟨rfl, rfl, rfl⟩

theorem configure_eq {i : LogDefine} {logger : Logger} (kinds : Kinds i) :
    configure i logger = .ok (definedLogger i logger) := by
  obtain ⟨formatter, name, level⟩ := formatter_set { logger with level := i.level } i.formatter
  unfold configure
  simp only
  rw [addAll_eq kinds]
  simp only [Logger.clearAppenders, definedLogger, formatter, name, level, List.nil_append]

theorem configure_null {i : LogDefine} {logger : Logger} (kinds : ¬ Kinds i) :
    configure i logger = .error .nullAppender :=
  addAll_null kinds

theorem applyDefine_changed {old_value : LogDefines} {loggers : Loggers} {i : LogDefine}
    (changed : i ∉ old_value.elements) : applyDefine old_value loggers i =
      (configure i (loggers.named i.name)).map fun logger => Function.update loggers i.name (some logger) := by
  have named : (match old_value.find i with
      | none => some (loggers.getLogger i.name)
      | some it => if i = it then none else some (loggers.getLogger i.name)) = some (loggers.getLogger i.name) := by
    split
    · rfl
    next it found =>
      obtain ⟨member, -⟩ := OrderedSet.find_some found
      exact if_neg fun same : i = it => changed (same ▸ member)
  unfold applyDefine
  simp only [named]
  rw [getLogger_fst]
  cases configure i (loggers.named i.name) with
  | error fault => rfl
  | ok logger => simp [bind, Except.bind, pure, Except.pure, Except.map, update_getLogger]

/-- A definition that stays the same has no logger to go with it. -/
theorem applyDefine_same {old_value : LogDefines} {loggers : Loggers} {i : LogDefine}
    (same : i ∈ old_value.elements) : applyDefine old_value loggers i = .error .nullLogger := by
  unfold applyDefine
  rw [OrderedSet.find_self same]
  simp [throw, throwThe, MonadExceptOf.throw]

/-! ## Both loops -/

/-- All definitions of the new set can be put into effect. -/
def Reloadable (old_value new_value : LogDefines) : Prop :=
  ∀ i ∈ new_value.elements, i ∉ old_value.elements ∧ Kinds i

/-- What is under a name when its definition is in effect. -/
def defined (i : LogDefine) (before : Option Logger) : Option Logger :=
  some (definedLogger i (before.getD (.create i.name)))

/-- The loop over the new definitions, as one that only writes. -/
theorem applyAll_eq {old_value : LogDefines} {defines : List LogDefine} {loggers : Loggers}
    (fine : ∀ i ∈ defines, i ∉ old_value.elements ∧ Kinds i) :
    defines.foldlM (applyDefine old_value) loggers = .ok (defines.foldl
      (fun loggers i => Function.update loggers i.name (defined i (loggers i.name))) loggers) := by
  induction defines generalizing loggers with
  | nil => rfl
  | cons i rest ih =>
    obtain ⟨changed, kinds⟩ := fine i (List.mem_cons_self ..)
    rw [List.foldlM_cons, applyDefine_changed changed, configure_eq kinds]
    exact ih fun j member => fine j (List.mem_cons_of_mem _ member)

theorem applyAll_fails {old_value : LogDefines} {defines : List LogDefine} (loggers : Loggers)
    (wrong : ¬ ∀ i ∈ defines, i ∉ old_value.elements ∧ Kinds i) :
    ∃ fault, defines.foldlM (applyDefine old_value) loggers = .error fault := by
  induction defines generalizing loggers with
  | nil => exact absurd (fun i member => nomatch member) wrong
  | cons i rest ih =>
    rw [List.foldlM_cons]
    by_cases same : i ∈ old_value.elements
    · rw [applyDefine_same same]
      exact ⟨_, rfl⟩
    by_cases kinds : Kinds i
    · rw [applyDefine_changed same, configure_eq kinds]
      apply ih
      intro later
      apply wrong
      intro j member
      obtain rfl | behind := List.mem_cons.mp member
      · exact ⟨same, kinds⟩
      · exact later j behind
    · rw [applyDefine_changed same, configure_null kinds]
      exact ⟨_, rfl⟩

/-- What is under a name when the logger is to be silenced. -/
def silenced (new_value : LogDefines) (i : LogDefine) (before : Option Logger) : Option Logger :=
  match new_value.find i with
  | some _ => before
  | none => some { (before.getD (.create i.name)) with level := .cast 100, appenders := [] }

theorem removeDefine_eq (new_value : LogDefines) (loggers : Loggers) (i : LogDefine) :
    removeDefine new_value loggers i = Function.update loggers i.name (silenced new_value i (loggers i.name)) := by
  unfold removeDefine silenced
  split
  · exact (Function.update_eq_self _ _).symm
  · rw [← Loggers.named, ← getLogger_fst]
    exact update_getLogger ..

/-- Both loops, as ones that only write. -/
theorem listener_eq {old_value new_value : LogDefines} (before : Loggers) (fine : Reloadable old_value new_value) :
    listener old_value new_value before = .ok (old_value.elements.foldl
      (fun loggers i => Function.update loggers i.name (silenced new_value i (loggers i.name)))
      (new_value.elements.foldl (fun loggers i => Function.update loggers i.name (defined i (loggers i.name))) before)) := by
  have removal : removeDefine new_value = fun loggers i =>
      Function.update loggers i.name (silenced new_value i (loggers i.name)) := by
    funext loggers i
    exact removeDefine_eq new_value loggers i
  rw [listener, applyAll_eq fine, removal]
  rfl

/-- The listener puts the new set into effect, or fails. -/
theorem listener_applied {old_value new_value : LogDefines} (before : Loggers)
    (fine : Reloadable old_value new_value) :
    ∃ after, listener old_value new_value before = .ok after ∧ Applied old_value new_value before after := by
  refine ⟨_, listener_eq before fine, ?_⟩
  -- What the first loop leaves behind.
  set written := new_value.elements.foldl
    (fun loggers i => Function.update loggers i.name (defined i (loggers i.name))) before with first
  constructor
  · intro i member
    -- The second loop leaves a name that is defined anew alone.
    have kept : old_value.elements.foldl
        (fun loggers i => Function.update loggers i.name (silenced new_value i (loggers i.name))) written i.name =
          written i.name := by
      by_cases known : ∃ j ∈ old_value.elements, j.name = i.name
      · obtain ⟨j, inside, same⟩ := known
        rw [← same, OrderedSet.foldl_update_at (silenced new_value) old_value.sorted _ inside, silenced]
        split
        · rfl
        next missing => exact absurd same.symm (OrderedSet.find_none.mp missing i member)
      · exact OrderedSet.foldl_update_other (silenced new_value) _ _ fun j inside same => known ⟨j, inside, same⟩
    rw [kept]
    exact OrderedSet.foldl_update_at defined new_value.sorted before member
  · intro i member gone
    rw [OrderedSet.foldl_update_at (silenced new_value) old_value.sorted _ member]
    have missing : new_value.find i = none := OrderedSet.find_none.mpr gone
    rw [silenced, missing]
    refine ⟨_, rfl, rfl, ?_⟩
    intro level named logs
    -- The level 100 is above every level that has a name.
    cases level with
    | cast value => exact named value rfl
    | _ => exact absurd logs (by simp [Logger.Logs, LogLevel.value])
  · intro name new old
    rw [OrderedSet.foldl_update_other (silenced new_value) _ _ old]
    exact OrderedSet.foldl_update_other defined _ _ new

theorem listener_fails {old_value new_value : LogDefines} (before : Loggers)
    (wrong : ¬ Reloadable old_value new_value) : ∃ fault, listener old_value new_value before = .error fault := by
  obtain ⟨fault, fails⟩ := applyAll_fails before wrong
  rw [listener, fails]
  exact ⟨fault, rfl⟩

/-! ## Histories -/

/-- A call of the listener with a new value, or anything else that changes the loggers. -/
inductive LoggingEvent where
  | changed (new_value : LogDefines)
  | other (loggers : Loggers)

/-- Every call in a history succeeds and puts the new set into effect. -/
def Handled (old_value : LogDefines) (before : Loggers) : List LoggingEvent → Prop
  | [] => True
  | .changed new_value :: rest => ∃ after, listener old_value new_value before = .ok after ∧
      Applied old_value new_value before after ∧ Handled new_value after rest
  | .other loggers :: rest => Handled old_value loggers rest

/-- No change in a history keeps a definition as it is or has an appender of no type. -/
def AllReloadable (old_value : LogDefines) : List LoggingEvent → Prop
  | [] => True
  | .changed new_value :: rest => Reloadable old_value new_value ∧ AllReloadable new_value rest
  | .other _ :: rest => AllReloadable old_value rest

/-- The listener does its work over exactly the histories in which every set is
disjoint from the one before and knows only the two types of appenders. -/
theorem handled_iff (old_value : LogDefines) (before : Loggers) (history : List LoggingEvent) :
    Handled old_value before history ↔ AllReloadable old_value history := by
  induction history generalizing old_value before with
  | nil => exact Iff.rfl
  | cons event rest ih =>
    cases event with
    | other loggers => exact ih old_value loggers
    | changed new_value =>
      by_cases fine : Reloadable old_value new_value
      · obtain ⟨after, done, applied⟩ := listener_applied before fine
        constructor
        · rintro ⟨next, -, -, later⟩
          exact ⟨fine, (ih new_value next).mp later⟩
        · rintro ⟨-, later⟩
          exact ⟨after, done, applied, (ih new_value after).mpr later⟩
      · obtain ⟨fault, fails⟩ := listener_fails before fine
        refine iff_of_false ?_ fun ⟨reloadable, _⟩ => fine reloadable
        rintro ⟨after, done, -⟩
        cases fails.symm.trans done

/-- Two loggers, and the same with another level for the second. -/
def beforeEdit : LogDefines where
  elements := [⟨"root".toList, .info, [], []⟩, ⟨"system".toList, .info, [], []⟩]
  sorted := by decide

def afterEdit : LogDefines where
  elements := [⟨"root".toList, .info, [], []⟩, ⟨"system".toList, .debug, [], []⟩]
  sorted := by decide

/-- Editing one of two loggers dereferences the null pointer of the other. -/
theorem edit_of_one_crashes :
    listener beforeEdit afterEdit .create = .error .nullLogger ∧ ¬ Handled beforeEdit .create [.changed afterEdit] := by
  have fails : listener beforeEdit afterEdit .create = .error .nullLogger := by
    have same : (⟨"root".toList, .info, [], []⟩ : LogDefine) ∈ beforeEdit.elements := List.mem_cons_self ..
    rw [listener, afterEdit, List.foldlM_cons, applyDefine_same same]
    rfl
  refine ⟨fails, ?_⟩
  rintro ⟨after, done, -⟩
  cases fails.symm.trans done

end HpsSf.Log
