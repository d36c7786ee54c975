import HpsSf.Log.Pattern
import HpsSf.Log.Reload

/-! What a sequence of `logs` configurations leaves of the loggers.

Level and appenders are those of the last definition. The formatter is overwritten
by a valid one only, so that one from an earlier configuration can survive.
-/

set_option autoImplicit false

namespace HpsSf.Log
open Foundation (Text OrderedSet)

/-- The value of `g_log_defines` and the loggers. -/
structure Logging where
  defines : LogDefines
  loggers : Loggers

namespace Logging

/-- Before the first configuration, with any loggers. -/
def initial (loggers : Loggers) : Logging := ⟨.empty, loggers⟩

/-- `setValue` on `g_log_defines`: nothing for an equal value, else the listener and the assignment. -/
def setValue (s : Logging) (v : LogDefines) : Except ReloadFault Logging := do
  if v.elements = s.defines.elements then return s
  let loggers ← listener s.defines v s.loggers
  return ⟨v, loggers⟩

/-- A sequence of configurations, up to the first fault. -/
def load (s : Logging) (configs : List LogDefines) : Except ReloadFault Logging := configs.foldlM setValue s

/-- The states that configurations alone lead to. -/
def Reachable (s : Logging) : Prop := ∃ loggers configs, (initial loggers).load configs = .ok s

/-- Every logger is as it is defined, on top of what it was before. -/
def InEffect (s : Logging) : Prop :=
  ∀ i ∈ s.defines.elements, ∃ before, s.loggers i.name = some (definedLogger i before)

end Logging

/-- The formatter of a name after a configuration. -/
def overwritten (name : Text) (formatter : LogFormatter) (config : LogDefines) : LogFormatter :=
  match config.elements.find? fun i => i.name = name with
  | some i => (givenFormatter i.formatter).getD formatter
  | none => formatter

/-- The last valid formatter that the configurations give a name. -/
def lastFormatter (name : Text) (formatter : LogFormatter) (configs : List LogDefines) : LogFormatter :=
  configs.foldl (overwritten name) formatter

/-- An appender without the formatter it has from its logger. -/
def LogAppender.own (appender : LogAppender) : LogAppender :=
  { appender with formatter := if appender.hasFormatter then appender.formatter else none }

/-! ## One configuration -/

theorem overwritten_at {config : LogDefines} {i : LogDefine} (member : i ∈ config.elements) (formatter : LogFormatter) :
    overwritten i.name formatter config = (givenFormatter i.formatter).getD formatter := by
  have found : config.elements.find? (fun j => j.name = i.name) = some i := by
    cases result : config.elements.find? fun j => j.name = i.name with
    | none => exact absurd (List.find?_eq_none.mp result i member) (by simp)
    | some j =>
      have same : j.name = i.name := by simpa using List.find?_some result
      rw [OrderedSet.eq_of_key (List.mem_of_find?_eq_some result) member same]
  rw [overwritten, found]

theorem overwritten_other {config : LogDefines} {name : Text} (absent : ∀ i ∈ config.elements, i.name ≠ name)
    (formatter : LogFormatter) : overwritten name formatter config = formatter := by
  have missing : config.elements.find? (fun i => i.name = name) = none :=
    List.find?_eq_none.mpr fun i member => by simpa using absent i member
  rw [overwritten, missing]

theorem silenced_formatter (new_value : LogDefines) (i : LogDefine) (before : Option Logger) :
    ((silenced new_value i before).getD (.create i.name)).formatter = (before.getD (.create i.name)).formatter := by
  unfold silenced
  split <;> rfl

/-- A call that succeeds puts the set into effect. -/
theorem applied_of_ok {old_value new_value : LogDefines} {before after : Loggers}
    (done : listener old_value new_value before = .ok after) :
    Reloadable old_value new_value ∧ Applied old_value new_value before after := by
  by_cases fine : Reloadable old_value new_value
  · obtain ⟨result, same, applied⟩ := listener_applied before fine
    obtain rfl := Except.ok.inj (done.symm.trans same)
    exact ⟨fine, applied⟩
  · obtain ⟨fault, fails⟩ := listener_fails before fine
    cases done.symm.trans fails

/-- Removing a logger leaves its formatter. -/
theorem listener_formatter {old_value new_value : LogDefines} {before after : Loggers}
    (done : listener old_value new_value before = .ok after) (name : Text) :
    (after.named name).formatter = overwritten name (before.named name).formatter new_value := by
  obtain ⟨fine, applied⟩ := applied_of_ok done
  by_cases new : ∃ i ∈ new_value.elements, i.name = name
  · obtain ⟨i, member, rfl⟩ := new
    rw [overwritten_at member, Loggers.named, applied.defined i member]
    rfl
  have absent (i) (member : i ∈ new_value.elements) : i.name ≠ name := fun same => new ⟨i, member, same⟩
  rw [overwritten_other absent]
  have first : (new_value.elements.foldl
      (fun loggers i => Function.update loggers i.name (defined i (loggers i.name))) before) name = before name :=
    OrderedSet.foldl_update_other defined _ _ absent
  obtain rfl := Except.ok.inj ((listener_eq before fine).symm.trans done)
  by_cases old : ∃ i ∈ old_value.elements, i.name = name
  · obtain ⟨i, member, rfl⟩ := old
    rw [Loggers.named, OrderedSet.foldl_update_at (silenced new_value) old_value.sorted _ member, first]
    exact silenced_formatter new_value i (before i.name)
  · have second := OrderedSet.foldl_update_other (silenced new_value) old_value.elements
      (new_value.elements.foldl (fun loggers i => Function.update loggers i.name (defined i (loggers i.name))) before)
      fun i member same => old ⟨i, member, same⟩
    rw [Loggers.named, second, first]
    rfl

namespace Logging

theorem setValue_cases {s s' : Logging} {v : LogDefines} (done : s.setValue v = .ok s') :
    (v = s.defines ∧ s' = s) ∨ (s'.defines = v ∧ listener s.defines v s.loggers = .ok s'.loggers) := by
  unfold setValue at done
  split at done
  next same => exact .inl ⟨OrderedSet.ext same, (Except.ok.inj done).symm⟩
  next =>
    cases called : listener s.defines v s.loggers with
    | error fault =>
      rw [called] at done
      cases done
    | ok loggers =>
      rw [called] at done
      obtain rfl := Except.ok.inj done
      exact .inr ⟨rfl, rfl⟩

theorem InEffect.setValue {s s' : Logging} {v : LogDefines} (effect : s.InEffect) (done : s.setValue v = .ok s') :
    s'.InEffect := by
  obtain ⟨-, rfl⟩ | ⟨rfl, called⟩ := setValue_cases done
  · exact effect
  · exact fun i member => ⟨_, (applied_of_ok called).2.defined i member⟩

/-- An equal set gives the formatters that are there already. -/
theorem InEffect.formatter {s s' : Logging} {v : LogDefines} (effect : s.InEffect) (done : s.setValue v = .ok s')
    (name : Text) : (s'.loggers.named name).formatter = overwritten name (s.loggers.named name).formatter v := by
  obtain ⟨rfl, rfl⟩ | ⟨rfl, called⟩ := setValue_cases done
  · by_cases present : ∃ i ∈ s'.defines.elements, i.name = name
    · obtain ⟨i, member, rfl⟩ := present
      obtain ⟨before, found⟩ := effect i member
      rw [overwritten_at member, Loggers.named, found]
      cases given : givenFormatter i.formatter with
      | none => rfl
      | some formatter => simp [definedLogger, given]
    · exact (overwritten_other (fun i member same => present ⟨i, member, same⟩) _).symm
  · exact listener_formatter called name

theorem InEffect.load {configs : List LogDefines} {s s' : Logging} (effect : s.InEffect)
    (done : s.load configs = .ok s') :
    s'.InEffect ∧ ∀ name, (s'.loggers.named name).formatter = lastFormatter name
      (s.loggers.named name).formatter configs := by
  induction configs generalizing s with
  | nil =>
    obtain rfl := Except.ok.inj done
    exact ⟨effect, fun name => rfl⟩
  | cons v rest ih =>
    rw [Logging.load, List.foldlM_cons] at done
    cases first : s.setValue v with
    | error fault =>
      rw [first] at done
      cases done
    | ok middle =>
      rw [first] at done
      obtain ⟨settled, formatters⟩ := ih (effect.setValue first) done
      refine ⟨settled, fun name => ?_⟩
      rw [formatters name, effect.formatter first name]
      rfl

theorem Reachable.inEffect {s : Logging} (reachable : s.Reachable) : s.InEffect := by
  obtain ⟨loggers, configs, done⟩ := reachable
  have start : (initial loggers).InEffect := fun i member => absurd member List.not_mem_nil
  exact (start.load done).1

/-! ## Two sequences -/

/-- What the last definition of a logger settles, whatever came before. -/
structure Settled (i : LogDefine) (l m : Logger) : Prop where
  level : l.level = m.level
  appenders : l.appenders.map LogAppender.own = m.appenders.map LogAppender.own
  /-- The appenders with their effective formatters. -/
  formatter : (givenFormatter i.formatter).isSome → l.formatter = m.formatter ∧ l.appenders = m.appenders

theorem own_definedAppender (first second : LogFormatter) (a : LogAppenderDefine) :
    (definedAppender first a).own = (definedAppender second a).own := by
  unfold definedAppender LogAppender.own
  cases givenFormatter a.formatter <;> simp

theorem settled_definedLogger (i : LogDefine) (before other : Logger) :
    Settled i (definedLogger i before) (definedLogger i other) where
  level := rfl
  appenders := by
    simp only [definedLogger, List.map_map]
    exact List.map_congr_left fun a _ => own_definedAppender ..
  formatter given := by
    obtain ⟨formatter, given⟩ := Option.isSome_iff_exists.mp given
    simp [definedLogger, given]

/-- A sequence is handled when no definition in it stays as it is. -/
theorem load_ok {configs : List LogDefines} (s : Logging) (fine : AllReloadable s.defines (configs.map .changed)) :
    ∃ s', s.load configs = .ok s' ∧ s'.defines = configs.getLastD s.defines := by
  induction configs generalizing s with
  | nil => exact ⟨s, rfl, rfl⟩
  | cons v rest ih =>
    obtain ⟨reloadable, later⟩ := fine
    obtain ⟨middle, done, known⟩ : ∃ middle, s.setValue v = .ok middle ∧ middle.defines = v := by
      unfold setValue
      split
      next equal => exact ⟨s, rfl, (OrderedSet.ext equal).symm⟩
      next =>
        rw [listener_eq s.loggers reloadable]
        exact ⟨_, rfl, rfl⟩
    obtain ⟨s', last, defines⟩ := ih middle (known ▸ later)
    refine ⟨s', ?_, ?_⟩
    · rw [load, List.foldlM_cons, done]
      exact last
    · rw [defines, known]
      cases rest <;> rfl

end Logging

/-- A logger with one appender. -/
def system (level : LogLevel) (formatter : Text) : LogDefine :=
    ⟨"system".toList, level, formatter, [⟨2, .unknow, [], []⟩]⟩

def single (level : LogLevel) (formatter : Text) : LogDefines :=
  ⟨[system level formatter], List.pairwise_singleton _ _⟩

theorem single_reloadable {old_value : LogDefines} {level : LogLevel} {formatter : Text}
    (changed : system level formatter ∉ old_value.elements) : Reloadable old_value (single level formatter) := by
  intro i member
  obtain rfl := List.mem_singleton.mp member
  refine ⟨changed, fun a appended => ?_⟩
  obtain rfl := List.mem_singleton.mp appended
  exact .inr rfl

theorem written_reloadable {level : LogLevel} {formatter : Text} :
    AllReloadable .empty ([single level formatter].map .changed) :=
  ⟨single_reloadable List.not_mem_nil, trivial⟩

theorem edited_reloadable {first second : LogLevel} {formatter formatter' : Text} (edited : second ≠ first) :
    AllReloadable .empty ([single first formatter, single second formatter'].map .changed) := by
  refine ⟨single_reloadable List.not_mem_nil, single_reloadable fun member => edited ?_, trivial⟩
  exact congrArg LogDefine.level (List.mem_singleton.mp member)

theorem given_message : givenFormatter ['%', 'm'] = some (.init ['%', 'm']) := by
  have scanned : entries [] ['%', 'm'] = ([⟨['m'], [], 1⟩], false) := by
    rw [entries_directive (by decide) (show directive ['m'] = some ⟨['m'], [], []⟩ from rfl), entries_nil]
    rfl
  have fine : (LogFormatter.init ['%', 'm']).isError = false := by
    rw [isError_iff, scanned]
    exact ⟨rfl, by decide⟩
  rw [givenFormatter, if_neg (by decide)]
  exact if_neg (by rw [fine]; decide)

end HpsSf.Log
