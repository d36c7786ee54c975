import HpsSf.Log.Locking

/-! No thread logs with a null formatter as long as nobody hands one in.

Between the read of an appender's formatter and the appender's place in the list of a
logger other threads may write the formatter. They only ever write one that is not null.
-/

set_option autoImplicit false

namespace HpsSf.Log
open Foundation (Text Command Threads Move)
open Foundation.Command (underLock)

/-- The call hands in no null formatter. -/
def LogCall.formatted : LogCall → Bool
  | .object (.setFormatter _ val) | .object (.setAppenderFormatter _ val) => val.isSome
  | _ => true

namespace Objects
variable {s : Objects}

def Given (s : Objects) (a : AppenderPtr) : Prop := (s.appender a).formatter ≠ none

/-- Every formatter that may be used is there. -/
structure Formatted (s : Objects) : Prop where
  logger : ∀ l, (s.logger l).formatter ≠ none
  listed : ∀ l, ∀ a ∈ (s.logger l).appenders, s.Given a

/-- A change that takes no formatter away. -/
structure Formats (s next : Objects) : Prop where
  formatted : next.Formatted
  given : ∀ a, s.Given a → next.Given a

theorem Formatted.same (formatted : s.Formatted) : s.Formats s := ⟨formatted, fun _ => id⟩

theorem Formatted.setLogger (formatted : s.Formatted) (l : LoggerPtr) {object : LoggerObject}
    (formatter : object.formatter ≠ none) (listed : ∀ a ∈ object.appenders, s.Given a) :
    s.Formats (s.setLogger l object) := by
  refine ⟨⟨fun k => ?_, fun k a member => ?_⟩, fun _ => id⟩
  · obtain rfl | other := eq_or_ne k l
    · rwa [setLogger_self]
    · rw [setLogger_of_ne _ _ other]
      exact formatted.logger k
  · obtain rfl | other := eq_or_ne k l
    · rw [setLogger_self] at member
      exact listed a member
    · rw [setLogger_of_ne _ _ other] at member
      exact formatted.listed k a member

theorem Formatted.setAppender (formatted : s.Formatted) (a : AppenderPtr) {object : LogAppender}
    (formatter : s.Given a → object.formatter ≠ none) : s.Formats (s.setAppender a object) := by
  have given (b : AppenderPtr) (before : s.Given b) : (s.setAppender a object).Given b := by
    unfold Given
    obtain rfl | other := eq_or_ne b a
    · rw [setAppender_self]
      exact formatter before
    · rwa [setAppender_of_ne _ _ other]
  exact ⟨⟨formatted.logger, fun l b member => given b (formatted.listed l b member)⟩, given⟩

theorem Formatted.inherit (formatted : s.Formatted) {val : Option LogFormatter}
    (formatter : val ≠ none) (a : AppenderPtr) :
    s.Formats (s.inherit val a) := by
  unfold Objects.inherit
  split
  · exact formatted.same
  · exact formatted.setAppender a fun _ => formatter

end Objects

namespace LogSystem

/-- The commands go to appenders only that have a formatter by then. -/
def Prepared : (AppenderPtr → Prop) → List LogCommand → Prop
  | _, [] => True
  | given, .act (.peek _ a) :: rest | given, .act (.adopt _ a) :: rest => Prepared (fun b => b = a ∨ given b) rest
  | given, .act (.pushBack _ a) :: rest | given, .act (.append a _ _) :: rest | given, .act (.write a _ _) :: rest =>
    given a ∧ Prepared given rest
  | given, .act (.storeFormatter _ val) :: rest | given, .act (.setOwn _ val) :: rest => val ≠ none ∧ Prepared given rest
  | given, _ :: rest => Prepared given rest

theorem Prepared.mono {first second : AppenderPtr → Prop} {program : List LogCommand}
    (prepared : Prepared first program) (sub : ∀ a, first a → second a) :
    Prepared second program := by
  induction program generalizing first second with
  | nil => trivial
  | cons command rest ih =>
    have more (a b : AppenderPtr) : b = a ∨ first b → b = a ∨ second b := Or.imp_right (sub b)
    cases command with
    | lock l | unlock l => exact ih prepared sub
    | act a =>
      cases a with
      | peek l a | adopt l a => exact ih prepared (more a)
      | pushBack l a | append a level event | write a level event => exact ⟨sub a prepared.1, ih prepared.2 sub⟩
      | storeFormatter l val | setOwn a val => exact ⟨prepared.1, ih prepared.2 sub⟩
      | _ => exact ih prepared sub

variable {libc : Libc} {s : LogSystem} {env : LogEnv}

theorem find_formats (formatted : s.objects.Formatted) (name : Text) :
    s.objects.Formats (s.find name).objects := by
  unfold find
  split
  · exact formatted.same
  · exact formatted.setLogger _ (by simp [LoggerObject.create]) (by simp [LoggerObject.create])

/-- What is prepared for is fine to do: it takes no formatter away, and uses none that is null. -/
theorem perform_formats (libc : Libc) (env : LogEnv) (formatted : s.objects.Formatted) {a : LogAct}
    {rest : List LogCommand} (prepared : Prepared s.objects.Given (.act a :: rest)) :
    s.objects.Formats (s.perform libc env a).1.objects ∧ (s.perform libc env a).1.crashed = s.crashed := by
  cases a with
  | find name =>
    refine ⟨find_formats formatted name, ?_⟩
    simp only [perform, find]
    split <;> rfl
  | create name =>
    exact ⟨formatted.setLogger _ (by simp [LoggerObject.create]) (by simp [LoggerObject.create]), rfl⟩
  | storeFormatter l val => exact ⟨formatted.setLogger l prepared.1 (formatted.listed l), rfl⟩
  | inherit l a => exact ⟨formatted.inherit (formatted.logger l) a, rfl⟩
  | adopt l a => exact ⟨formatted.setAppender a fun _ => formatted.logger l, rfl⟩
  | pushBack l a =>
    refine ⟨formatted.setLogger l (formatted.logger l) fun b member => ?_, rfl⟩
    obtain old | new := List.mem_append.mp member
    · exact formatted.listed l b old
    · rw [List.mem_singleton.mp new]
      exact prepared.1
  | erase l a =>
    exact ⟨formatted.setLogger l (formatted.logger l) fun b member =>
        formatted.listed l b (List.mem_of_mem_erase member),
      rfl⟩
  | clear l => exact ⟨formatted.setLogger l (formatted.logger l) (by simp), rfl⟩
  | setOwn a val => exact ⟨formatted.setAppender a fun _ => prepared.1, rfl⟩
  | setLevel l level => exact ⟨formatted.setLogger l (formatted.logger l) (formatted.listed l), rfl⟩
  | setAppenderLevel a level => exact ⟨formatted.setAppender a id, rfl⟩
  | write a level event =>
    refine ⟨?_, ?_⟩
    · rw [perform, (write_same libc s env a level event).1]
      exact formatted.same
    · obtain ⟨formatter, there⟩ := Option.ne_none_iff_exists'.mp prepared.1
      simp only [perform, write, there]
      cases (s.objects.appender a).kind <;> rfl
  | _ => exact ⟨formatted.same, rfl⟩

theorem append_prepared {given : AppenderPtr → Prop} {rest : List LogCommand} {a : AppenderPtr}
    (there : given a) (prepared : Prepared given rest) (level : LogLevel) (event : LogEvent) :
    Prepared given (s.append env a level event ++ rest) := by
  unfold append
  split
  · cases (s.objects.appender a).kind with
    | stdout => exact ⟨there, prepared⟩
    | file filename =>
      dsimp only
      split <;> exact ⟨there, prepared⟩
  · exact prepared

/-- What it goes on with is prepared for as well. -/
theorem perform_prepared (libc : Libc) (env : LogEnv) (formatted : s.objects.Formatted) {a : LogAct}
    {rest : List LogCommand} (prepared : Prepared s.objects.Given (.act a :: rest)) :
    Prepared (s.perform libc env a).1.objects.Given ((s.perform libc env a).2 ++ rest) := by
  have given := (perform_formats libc env formatted prepared).1.given
  cases a with
  | statement l level event | log l level event =>
    simp only [perform]
    split <;> exact prepared
  | fanOut l level event =>
    simp only [perform]
    split
    · exact prepared
    · split <;> exact prepared
  | each l k visit =>
    simp only [perform]
    split
    next a found =>
      have there := formatted.listed l a (List.mem_of_getElem? found)
      cases visit with
      | log level event => exact ⟨there, prepared⟩
      | _ => exact prepared
    next => exact prepared
  | append a level event => exact append_prepared prepared.1 prepared.2 level event
  | peek l a =>
    simp only [perform]
    split
    next => exact prepared
    next there =>
      refine Prepared.mono prepared fun b => ?_
      rintro (rfl | known)
      · simpa [Objects.Given, Option.isNone_iff_eq_none] using there
      · exact known
  | eachLogger k =>
    simp only [perform]
    split <;> exact prepared
  | dumpLogger l => exact prepared
  | adopt l a =>
    refine Prepared.mono prepared fun b => ?_
    rintro (rfl | known)
    · simpa [Objects.Given, perform] using formatted.logger l
    · exact given b known
  | pushBack l a | write a level event | storeFormatter l val | setOwn a val => exact prepared.2.mono given
  | _ => exact Prepared.mono prepared given

theorem body_prepared {call : LogCall} (formatted : call.formatted = true) (given : AppenderPtr → Prop) :
    Prepared given call.body := by
  cases call with
  | object op =>
    cases op with
    | addAppender l a => exact ⟨.inl rfl, trivial⟩
    | setFormatter l val | setAppenderFormatter a val => exact ⟨Option.isSome_iff_ne_none.mp formatted, trivial⟩
    | setPattern l val =>
      simp only [LogCall.body, LogCall.objectBody]
      split
      · trivial
      · exact ⟨by simp, trivial⟩
    | _ => trivial
  | _ => trivial

theorem begins_formatted {s : LogSystem} (begins : Begins s) : s.objects.Formatted ∧ s.crashed = false := by
  obtain ⟨m, files, ⟨objects, fresh, -, -, rfl⟩, rfl⟩ := begins
  have logger (l : LoggerPtr) : (objects.logger l).formatter ≠ none ∧ (objects.logger l).appenders = [] := by
    rw [fresh.logger l]
    simp [LoggerObject.create]
  refine ⟨⟨fun l => ?_, fun l a member => ?_⟩, rfl⟩
  · simp only [LoggerManager.create, Objects.addAppender_logger]
    obtain rfl | other := eq_or_ne l 0
    · simpa using (logger 0).1
    · simpa [Function.update_of_ne other] using (logger l).1
  · simp only [LoggerManager.create, Objects.addAppender_logger] at member
    obtain rfl | other := eq_or_ne l 0
    · obtain rfl : a = 0 := by simpa [(logger 0).2] using member
      simpa [LoggerManager.create, Objects.Given, Objects.addAppender_appender, (fresh.appender 0).2] using (logger 0).1
    · rw [Function.update_of_ne other, (logger l).2] at member
      cases member

variable {T : Type} [DecidableEq T]

/-- No call hands in a null formatter. -/
def formattedCalls (_ : Threads LogSystem T LogLock LogAct) : Move T LogCall LogEnv → Bool
  | .call _ call => call.formatted
  | .run _ _ => true

structure AllPrepared (s : Threads LogSystem T LogLock LogAct) : Prop where
  alive : s.shared.crashed = false
  formatted : s.shared.objects.Formatted
  prepared : ∀ t, Prepared s.shared.objects.Given (s.program t)

theorem AllPrepared.run {s next : Threads LogSystem T LogLock LogAct} (all : AllPrepared s) {t : T}
    (stepped : s.run (actions libc) t env = some next) : AllPrepared next := by
  obtain ⟨alive, formatted, prepared⟩ := all
  have mine := prepared t
  obtain ⟨l, rest, program, -, rfl⟩ | ⟨l, rest, program, rfl⟩ | ⟨a, rest, shared, commands, program, acted, rfl⟩ :=
    Threads.run_cases stepped
  · rw [program] at mine
    refine ⟨alive, formatted, fun u => ?_⟩
    change Prepared _ (Function.update s.program t rest u)
    obtain rfl | other := eq_or_ne u t
    · rw [Function.update_self]
      exact mine
    · rw [Function.update_of_ne other]
      exact prepared u
  · rw [program] at mine
    refine ⟨alive, formatted, fun u => ?_⟩
    change Prepared _ (Function.update s.program t rest u)
    obtain rfl | other := eq_or_ne u t
    · rw [Function.update_self]
      exact mine
    · rw [Function.update_of_ne other]
      exact prepared u
  · obtain ⟨-, same⟩ := actions_some acted
    obtain ⟨rfl, rfl⟩ := Prod.mk.inj same
    rw [program] at mine
    obtain ⟨formats, crashed⟩ := perform_formats libc env formatted mine
    refine ⟨crashed.trans alive, formats.formatted, fun u => ?_⟩
    change Prepared _ (Function.update s.program t _ u)
    obtain rfl | other := eq_or_ne u t
    · rw [Function.update_self]
      exact perform_prepared libc env formatted mine
    · rw [Function.update_of_ne other]
      exact (prepared u).mono formats.given

/-- One thread adds an appender to a logger, and another one gives it a formatter in between. -/
def givenMeanwhile : List (Move (Fin 2) LogCall LogEnv) :=
  let env : LogEnv := ⟨1, ⟨true, true, true⟩⟩
  [.call 0 (.object (.addAppender 0 5)), .run 0 env, .run 0 env, .run 0 env, .run 0 env,
    .call 1 (.object (.setAppenderFormatter 5 (some (.init "%m".toList)))), .run 1 env, .run 1 env, .run 1 env,
    .run 0 env]

end LogSystem
end HpsSf.Log
