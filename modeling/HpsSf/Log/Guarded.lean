import HpsSf.Log.Locking

/-! What one thread of the log system leaves alone while another one holds its lock.

A list of appenders is as its lock finds it until the lock is given back, so that a
line goes to each appender of the list once, in order, whatever the others do.
-/

set_option autoImplicit false

namespace HpsSf.Log
open Foundation (Text System Command Threads Move)
open Foundation.Command (underLock)

namespace LogSystem
variable {libc : Libc} {s : LogSystem} {env : LogEnv}

/-! ## One action -/

theorem find_logger (name : Text) {l : LoggerPtr} (made : l < s.nextLogger) :
    (s.find name).objects.logger l = s.objects.logger l := by
  unfold find
  split
  · rfl
  · exact Objects.setLogger_of_ne _ _ (Nat.ne_of_lt made)

/-- The list and the formatter of a logger are written under its lock. -/
theorem perform_logger {a : LogAct} {l : LoggerPtr} (made : l < s.nextLogger)
    (unlocked : LogLock.logger l ∉ a.needs) :
    ((s.perform libc env a).1.objects.logger l).appenders = (s.objects.logger l).appenders ∧
      ((s.perform libc env a).1.objects.logger l).formatter = (s.objects.logger l).formatter := by
  have other {k : LoggerPtr} (member : LogLock.logger k ∈ a.needs) : l ≠ k := by
    rintro rfl
    exact unlocked member
  have whole (same : (s.perform libc env a).1.objects.logger l = s.objects.logger l) :
      ((s.perform libc env a).1.objects.logger l).appenders = (s.objects.logger l).appenders ∧
        ((s.perform libc env a).1.objects.logger l).formatter = (s.objects.logger l).formatter := by
    rw [same]
    exact ⟨rfl, rfl⟩
  cases a with
  | find name => exact whole (find_logger name made)
  | create name => exact whole (Objects.setLogger_of_ne _ _ (Nat.ne_of_lt made))
  | storeFormatter k val | pushBack k b | erase k b | clear k =>
    exact whole (Objects.setLogger_of_ne _ _ (other (List.mem_singleton_self _)))
  | setLevel k level =>
    obtain rfl | distinct := eq_or_ne l k
    · simp only [perform, Objects.apply, Objects.setLogger_self, and_self]
    · exact whole (Objects.setLogger_of_ne _ _ distinct)
  | inherit k b => exact whole (congrFun (Objects.inherit_logger ..) l)
  | write b level event => exact whole (by rw [perform, (write_same libc s env b level event).1])
  | _ => exact ⟨rfl, rfl⟩

/-- The formatter and the stream of an appender are written under its lock. -/
theorem perform_appender {a : LogAct} {b : AppenderPtr} (unlocked : LogLock.appender b ∉ a.needs) :
    ((s.perform libc env a).1.objects.appender b).formatter = (s.objects.appender b).formatter ∧
      ((s.perform libc env a).1.objects.appender b).hasFormatter = (s.objects.appender b).hasFormatter ∧
      { (s.perform libc env a).1.files b with latsTime := 0 } = { s.files b with latsTime := 0 } := by
  have other {k : AppenderPtr} (member : LogLock.appender k ∈ a.needs) : b ≠ k := by
    rintro rfl
    exact unlocked member
  have whole (object : (s.perform libc env a).1.objects.appender b = s.objects.appender b)
      (file : (s.perform libc env a).1.files b = s.files b) :
      ((s.perform libc env a).1.objects.appender b).formatter = (s.objects.appender b).formatter ∧
        ((s.perform libc env a).1.objects.appender b).hasFormatter = (s.objects.appender b).hasFormatter ∧
        { (s.perform libc env a).1.files b with latsTime := 0 } = { s.files b with latsTime := 0 } := by
    rw [object, file]
    exact ⟨rfl, rfl, rfl⟩
  cases a with
  | find name =>
    refine whole ?_ ?_ <;>
    · simp only [perform, LogSystem.find]
      split <;> rfl
  | inherit k c =>
    refine whole ?_ rfl
    have distinct := other (List.mem_cons_self ..)
    simp [perform, Objects.inherit_appender, distinct]
  | adopt k c | setOwn c val => exact whole (Objects.setAppender_of_ne _ _ (other (List.mem_cons_self ..))) rfl
  | setAppenderLevel c level =>
    obtain rfl | distinct := eq_or_ne b c
    · simp only [perform, Objects.apply, Objects.setAppender_self, and_self]
    · exact whole (Objects.setAppender_of_ne _ _ distinct) rfl
  | reopen c => exact whole rfl (Function.update_of_ne (other (List.mem_cons_self ..)) ..)
  | stamp c now =>
    obtain rfl | distinct := eq_or_ne b c
    · simp only [perform, setFile, Function.update_self, and_self]
    · exact whole rfl (Function.update_of_ne distinct ..)
  | write c level event =>
    refine whole (by rw [perform, (write_same libc s env c level event).1]) ?_
    have distinct := other (List.mem_cons_self ..)
    simp only [perform, LogSystem.write]
    cases (s.objects.appender c).formatter with
    | none => rfl
    | some formatter =>
      dsimp only
      cases (s.objects.appender c).kind with
      | stdout => rfl
      | file filename => exact Function.update_of_ne distinct ..
  | _ => exact ⟨rfl, rfl, rfl⟩

/-- The loggers of the manager are written under its lock. -/
theorem perform_manager {a : LogAct} (unlocked : LogLock.manager ∉ a.needs) :
    (s.perform libc env a).1.loggers = s.loggers := by
  cases a with
  | find name => exact absurd (List.mem_singleton_self _) unlocked
  | write b level event => exact (write_same libc s env b level event).2.2.2
  | _ => rfl

/-! ## One step of a thread -/

variable {T : Type} [DecidableEq T]

/-- What a step of a thread leaves as it is: everything behind a lock that the thread does not hold. -/
structure LeavesGuarded (s next : Threads LogSystem T LogLock LogAct) (t : T) : Prop where
  logger : ∀ l, l < s.shared.nextLogger → s.owner (.logger l) ≠ some t →
    (next.shared.objects.logger l).appenders = (s.shared.objects.logger l).appenders ∧
      (next.shared.objects.logger l).formatter = (s.shared.objects.logger l).formatter
  appender : ∀ a, s.owner (.appender a) ≠ some t →
    (next.shared.objects.appender a).formatter = (s.shared.objects.appender a).formatter ∧
      (next.shared.objects.appender a).hasFormatter = (s.shared.objects.appender a).hasFormatter ∧
      { next.shared.files a with latsTime := 0 } = { s.shared.files a with latsTime := 0 }
  manager : s.owner .manager ≠ some t → next.shared.loggers = s.shared.loggers
  owner : ∀ lock u, u ≠ t → (next.owner lock = some u ↔ s.owner lock = some u)

theorem leaves_guarded_of_safe {s next : Threads LogSystem T LogLock LogAct}
    (safe : logDiscipline.Safe context s) {t : T} (stepped : s.run (actions libc) t env = some next) :
    LeavesGuarded s next t := by
  obtain ⟨l, rest, program, free, rfl⟩ | ⟨l, rest, program, rfl⟩ | ⟨a, rest, shared, commands, program, acted, rfl⟩ :=
    Threads.run_cases stepped
  · refine ⟨fun _ _ _ => ⟨rfl, rfl⟩, fun _ _ => ⟨rfl, rfl, rfl⟩, fun _ => rfl, fun lock u other => ?_⟩
    obtain rfl | distinct := eq_or_ne lock l
    · simp [free, other.symm]
    · simp [distinct]
  · refine ⟨fun _ _ _ => ⟨rfl, rfl⟩, fun _ _ => ⟨rfl, rfl, rfl⟩, fun _ => rfl, fun lock u other => ?_⟩
    obtain rfl | distinct := eq_or_ne lock l
    · simp [safe.unlocks program, other.symm]
    · simp [distinct]
  · obtain ⟨-, same⟩ := actions_some acted
    obtain ⟨rfl, rfl⟩ := Prod.mk.inj same
    have needs := safe.needs program
    exact ⟨fun l made free => perform_logger made fun needed => free (needs _ needed),
      fun b free => perform_appender fun needed => free (needs _ needed),
      fun free => perform_manager fun needed => free (needs _ needed), fun _ _ _ => .rfl⟩

/-- Nothing that a lock protects is written by a thread that does not hold it. -/
theorem leaves_guarded {allowed : Threads LogSystem T LogLock LogAct → Move T LogCall LogEnv → Prop}
    {s next : Threads LogSystem T LogLock LogAct} (reached : (machine libc T).Reaches allowed s) {t : T}
    (stepped : (machine libc T).step s (.run t env) = some next) : LeavesGuarded s next t :=
  leaves_guarded_of_safe (safe_of_reaches reached) stepped

/-! ## A line on its way to the appenders -/

abbrev Line := AppenderPtr × LogLevel × LogEvent

/-- The appender that a thread goes to with this step. -/
def goesTo (s : Threads LogSystem T LogLock LogAct) (t : T) : Move T LogCall LogEnv → List Line
  | .run u _ =>
    if u = t then
      match s.program t with
      | .act (.append a level event) :: _ => [(a, level, event)]
      | _ => []
    else []
  | .call _ _ => []

/-- The system with the record of where one thread goes. -/
def watched (libc : Libc) (t : T) : System (Threads LogSystem T LogLock LogAct × List Line) (Move T LogCall LogEnv) where
  start p := (machine libc T).start p.1 ∧ p.2 = []
  step p move := ((machine libc T).step p.1 move).map fun next => (next, p.2 ++ goesTo p.1 t move)

/-- The commands on the way of one line to one appender. -/
def Quiet : LogCommand → Prop
  | .lock (.appender _) | .unlock (.appender _) | .act (.reopen _) | .act (.stamp _ _) | .act (.write _ _ _) => True
  | _ => False

theorem append_quiet (a : AppenderPtr) (level : LogLevel) (event : LogEvent) :
    ∀ command ∈ s.append env a level event, Quiet command := by
  intro command member
  unfold append at member
  split at member
  · obtain first | last := List.mem_append.mp member
    · split at first
      next => cases first
      next =>
        split at first
        · simp only [underLock, List.map_cons, List.map_nil, List.cons_append, List.nil_append, List.mem_cons,
            List.not_mem_nil, or_false] at first
          obtain rfl | rfl | rfl | rfl := first <;> trivial
        · cases first
    · simp only [underLock, List.map_cons, List.map_nil, List.cons_append, List.nil_append, List.mem_cons,
        List.not_mem_nil, or_false] at last
      obtain rfl | rfl | rfl := last <;> trivial
  · cases member

section fanning
variable {t : T} {l : LoggerPtr} {level : LogLevel} {event : LogEvent} {rest : List LogCommand}
  {appenders : List AppenderPtr}

/-- Where a thread is in the loop, and the appenders it has been to. -/
inductive Stage (l : LoggerPtr) (level : LogLevel) (event : LogEvent) (rest : List LogCommand)
    (appenders : List AppenderPtr) : List LogCommand → List Line → Prop where
  | about : Stage l level event rest appenders (.act (.fanOut l level event) :: rest) []
  | going (k : Nat) (front : List LogCommand) (quiet : ∀ command ∈ front, Quiet command) :
      Stage l level event rest appenders (front ++ .act (.each l k (.log level event)) :: rest)
        ((appenders.take k).map (·, level, event))
  | offering (k : Nat) (a : AppenderPtr) (here : appenders[k]? = some a) :
      Stage l level event rest appenders
        (.act (.append a level event) :: .act (.each l (k + 1) (.log level event)) :: rest)
        ((appenders.take k).map (·, level, event))

/-- The thread is in the loop, with the lock of the logger and with the list that it began with. -/
structure Fanning (l : LoggerPtr) (level : LogLevel) (event : LogEvent) (rest : List LogCommand)
    (appenders : List AppenderPtr) (t : T) (s : Threads LogSystem T LogLock LogAct) (seen : List Line) : Prop where
  stage : Stage l level event rest appenders (s.program t) seen
  list : (s.shared.objects.logger l).appenders = appenders
  owner : s.owner (.logger l) = some t

theorem act_of_run {s next : Threads LogSystem T LogLock LogAct} {a : LogAct} {tail : List LogCommand}
    (program : s.program t = .act a :: tail) (stepped : s.run (actions libc) t env = some next) :
    next.shared = (s.shared.perform libc env a).1 ∧ next.owner = s.owner ∧
      next.program t = (s.shared.perform libc env a).2 ++ tail := by
  obtain ⟨l, rest, program', -⟩ | ⟨l, rest, program', -⟩ | ⟨b, rest, shared, commands, program', acted, rfl⟩ :=
    Threads.run_cases stepped
  · cases program.symm.trans program'
  · cases program.symm.trans program'
  · cases program.symm.trans program'
    obtain ⟨-, same⟩ := actions_some acted
    obtain ⟨rfl, rfl⟩ := Prod.mk.inj same
    exact ⟨rfl, rfl, Function.update_self ..⟩

/-- The commands on the way to an appender keep the list and the lock. -/
theorem run_quiet {s next : Threads LogSystem T LogLock LogAct} {command : LogCommand}
    {tail : List LogCommand} (made : l < s.shared.nextLogger) (quiet : Quiet command)
    (program : s.program t = command :: tail) (stepped : s.run (actions libc) t env = some next) :
    next.program t = tail ∧ (next.shared.objects.logger l).appenders = (s.shared.objects.logger l).appenders ∧
      next.owner (.logger l) = s.owner (.logger l) ∧ goesTo s t (.run t env) = [] := by
  have nowhere : goesTo s t (.run t env) = [] := by
    rw [goesTo, if_pos rfl, program]
    cases command with
    | act a => cases a <;> first | rfl | exact False.elim quiet
    | _ => rfl
  have apart (b : AppenderPtr) (owner : Option T) :
      Function.update s.owner (LogLock.appender b) owner (.logger l) = s.owner (.logger l) :=
    Function.update_of_ne (by simp) ..
  obtain ⟨k, rest, program', -, rfl⟩ | ⟨k, rest, program', rfl⟩ | ⟨a, rest, shared, commands, program', -, -⟩ :=
    Threads.run_cases stepped
  · cases program.symm.trans program'
    cases k with
    | appender b => exact ⟨Function.update_self .., rfl, apart b (some t), nowhere⟩
    | _ => exact False.elim quiet
  · cases program.symm.trans program'
    cases k with
    | appender b => exact ⟨Function.update_self .., rfl, apart b none, nowhere⟩
    | _ => exact False.elim quiet
  · cases program.symm.trans program'
    obtain ⟨shared, owner, after⟩ := act_of_run program stepped
    have still : (s.shared.perform libc env a).2 = [] := by cases a <;> first | rfl | exact False.elim quiet
    have unlocked : LogLock.logger l ∉ a.needs := by
      cases a <;> first | exact False.elim quiet | simp [LogAct.needs]
    rw [still] at after
    exact ⟨after, shared ▸ (perform_logger made unlocked).1, congrFun owner _, nowhere⟩

theorem Fanning.run {s next : Threads LogSystem T LogLock LogAct} {seen : List Line}
    (safe : logDiscipline.Safe context s) (listed : appenders ≠ [])
    (fanning : Fanning l level event rest appenders t s seen)
    (stepped : s.run (actions libc) t env = some next) :
    appenders.map (·, level, event) <+: seen ++ goesTo s t (.run t env) ∨
      Fanning l level event rest appenders t next (seen ++ goesTo s t (.run t env)) := by
  obtain ⟨stage, list, owner⟩ := fanning
  generalize program : s.program t = commands at stage
  cases stage with
  | about =>
    obtain ⟨shared, owners, after⟩ := act_of_run program stepped
    have nowhere : goesTo s t (.run t env) = [] := by rw [goesTo, if_pos rfl, program]
    rw [nowhere]
    refine .inr ⟨?_, by rw [shared]; exact list, by rw [owners]; exact owner⟩
    rw [after, perform, if_pos (list ▸ listed)]
    exact .going 0 [] (by simp)
  | going k front quiet =>
    cases front with
    | nil =>
      obtain ⟨shared, owners, after⟩ := act_of_run program stepped
      have nowhere : goesTo s t (.run t env) = [] := by
        rw [goesTo, if_pos rfl, program]
        rfl
      rw [nowhere, List.append_nil]
      simp only [perform, list] at after
      cases here : appenders[k]? with
      -- the iterator is at the end: the line has been to the whole list
      | none =>
        refine .inl ?_
        rw [List.take_of_length_le (List.getElem?_eq_none_iff.mp here)]
      | some a =>
        rw [here] at after
        refine .inr ⟨?_, by rw [shared]; exact list, by rw [owners]; exact owner⟩
        rw [after]
        exact .offering k a here
    | cons command front =>
      have made : l < s.shared.nextLogger :=
        safe.refers t (.each l k (.log level event)) (by rw [program]; simp) l (List.mem_singleton_self _)
      obtain ⟨after, lists, owners, nowhere⟩ := run_quiet made (quiet command (List.mem_cons_self ..)) program stepped
      rw [nowhere, List.append_nil]
      refine .inr ⟨?_, lists.trans list, owners.trans owner⟩
      rw [after]
      exact .going k front fun other member => quiet other (List.mem_cons_of_mem _ member)
  | offering k a here =>
    obtain ⟨shared, owners, after⟩ := act_of_run program stepped
    have there : goesTo s t (.run t env) = [(a, level, event)] := by rw [goesTo, if_pos rfl, program]
    have further : (appenders.take k).map (·, level, event) ++ [(a, level, event)] =
        (appenders.take (k + 1)).map (·, level, event) := by
      rw [List.take_add_one, here, List.map_append]
      rfl
    rw [there, further]
    refine .inr ⟨?_, by rw [shared]; exact list, by rw [owners]; exact owner⟩
    rw [after]
    exact .going (k + 1) _ (append_quiet a level event)

/-- A step of the others, or a call of theirs. -/
theorem Fanning.other {s next : Threads LogSystem T LogLock LogAct} {seen : List Line}
    (safe : logDiscipline.Safe context s) (fanning : Fanning l level event rest appenders t s seen)
    {u : T} (other : u ≠ t) (stepped : s.run (actions libc) u env = some next) :
    Fanning l level event rest appenders t next seen := by
  obtain ⟨stage, list, owner⟩ := fanning
  have program : next.program t = s.program t := by
    obtain ⟨-, -, -, -, rfl⟩ | ⟨-, -, -, rfl⟩ | ⟨-, -, -, -, -, -, rfl⟩ := Threads.run_cases stepped <;>
    exact Function.update_of_ne other.symm ..
  have made : l < s.shared.nextLogger := by
    obtain ⟨a, inside, mine⟩ : ∃ a, .act a ∈ s.program t ∧ l ∈ a.loggers := by
      generalize s.program t = commands at stage
      cases stage with
      | about => exact ⟨_, List.mem_cons_self .., List.mem_singleton_self l⟩
      | going k front quiet => exact ⟨_, List.mem_append_right front (List.mem_cons_self ..), List.mem_singleton_self l⟩
      | offering k a here =>
        exact ⟨_, List.mem_cons_of_mem _ (List.mem_cons_self ..), List.mem_singleton_self l⟩
    exact safe.refers t a inside l mine
  have guarded := leaves_guarded_of_safe safe stepped
  -- the lock of the logger is taken, so nobody else changes the list under the loop
  have free : s.owner (.logger l) ≠ some u := by
    rw [owner]
    exact fun same => other (Option.some.inj same).symm
  exact ⟨program.symm ▸ stage, ((guarded.logger l made free).1).trans list, (guarded.owner _ t other.symm).mpr owner⟩

theorem Fanning.along {s : Threads LogSystem T LogLock LogAct}
    (reached : (machine libc T).Reaches Anything s)
    (fanning : Fanning l level event rest appenders t s []) (listed : appenders ≠ [])
    {p : Threads LogSystem T LogLock LogAct × List Line}
    (path : (watched libc t).Path (fun _ _ => True) (s, []) p) :
    (machine libc T).Reaches Anything p.1 ∧
      (appenders.map (·, level, event) <+: p.2 ∨ Fanning l level event rest appenders t p.1 p.2) := by
  induction path with
  | here => exact ⟨reached, .inr fanning⟩
  | @step p q move before _ stepped ih =>
    obtain ⟨reached, so⟩ := ih
    obtain ⟨next, moved, rfl⟩ := Option.map_eq_some_iff.mp stepped
    refine ⟨reached.step trivial moved, ?_⟩
    obtain done | fanning := so
    · exact .inl (done.trans (List.prefix_append ..))
    have safe := safe_of_reaches reached
    cases move with
    | run u env =>
      obtain rfl | other := eq_or_ne u t
      · exact fanning.run safe listed moved
      · have nowhere : goesTo p.1 t (.run u env) = [] := if_neg other
        rw [nowhere, List.append_nil]
        exact .inr (fanning.other safe other moved)
    | call u call =>
      change p.1.step (actions libc) LogCall.admits LogCall.body (.call u call) = some next at moved
      obtain ⟨idle, -, rfl⟩ := Threads.step_call moved
      -- a thread in the loop is in a call, and calls nothing else before it returns
      have other : t ≠ u := by
        rintro rfl
        have busy := fanning.stage
        generalize program : p.1.program t = commands at busy
        rw [idle] at program
        generalize p.2 = seen at busy
        cases busy <;> simp at program
      rw [goesTo, List.append_nil]
      exact .inr ⟨by simpa [Function.update_of_ne other] using fanning.stage, fanning.list, fanning.owner⟩

end fanning

/-- Whatever the other threads do, a line that a logger has taken goes to its appenders one after the other,
and has been to all of them, each once, when the lock is given back. -/
theorem fans_out {s next : Threads LogSystem T LogLock LogAct}
    (reached : (machine libc T).Reaches Anything s) {t : T} {l : LoggerPtr} {level : LogLevel}
    {event : LogEvent} {rest : List LogCommand}
    (taken : s.program t = .act (.fanOut l level event) :: rest)
    (listed : (s.shared.objects.logger l).appenders ≠ []) {seen : List Line}
    (path : (watched libc t).Path (fun _ _ => True) (s, []) (next, seen)) :
    (s.shared.objects.logger l).appenders.map (·, level, event) <+: seen ∨
      seen <+: (s.shared.objects.logger l).appenders.map (·, level, event) ∧ next.owner (.logger l) = some t := by
  have owner : s.owner (.logger l) = some t := (safe_of_reaches reached).needs taken _ (List.mem_singleton_self _)
  have begins : Fanning l level event rest (s.shared.objects.logger l).appenders t s [] := ⟨taken ▸ .about, rfl, owner⟩
  obtain ⟨-, done | ⟨stage, -, held⟩⟩ := begins.along reached listed path
  · exact .inl done
  · refine .inr ⟨?_, held⟩
    generalize next.program t = commands at stage
    cases stage with
    | about => exact List.nil_prefix
    | going k front quiet => exact (List.take_prefix k _).map _
    | offering k a here => exact (List.take_prefix k _).map _

/-- A thread is about to take a line to the appenders, and another one to take the appenders away. -/
def takenLine : List (Move (Fin 2) LogCall LogEnv) :=
  [.call 0 (.log 0 .error line), .run 0 ⟨1, ⟨true, true, true⟩⟩, .run 0 ⟨1, ⟨true, true, true⟩⟩,
    .call 1 (.object (.clearAppenders 0))]

theorem leaves_guarded_contention : ∃ s next : Threads LogSystem (Fin 2) LogLock LogAct,
    s.owner (.logger 0) = some 0 ∧ (machine noDates (Fin 2)).step s (.run 0 ⟨1, ⟨true, true, true⟩⟩) = some next ∧
      LeavesGuarded s next 0 := by
  obtain ⟨s, reached, test⟩ := System.reaches_test (machine noDates (Fin 2)) Anything (fun _ _ => true)
    (fun _ _ _ => trivial) initial initial_start takenLine
    (fun s => s.owner (.logger 0) = some 0 ∧
      ((machine noDates (Fin 2)).step s (.run 0 ⟨1, ⟨true, true, true⟩⟩)).isSome = true) (by decide +kernel)
  obtain ⟨owner, moves⟩ := of_decide_eq_true test
  obtain ⟨next, stepped⟩ := Option.isSome_iff_exists.mp moves
  exact ⟨s, next, owner, stepped, leaves_guarded reached stepped⟩

/-- The line is out and the lock is given back, while the other thread has waited for it. -/
theorem fans_out_contention : ∃ (s next : Threads LogSystem (Fin 2) LogLock LogAct) (seen : List Line),
    (watched noDates 0).Path (fun _ _ => True) (s, []) (next, seen) ∧ next.owner (.logger 0) = none ∧
      (s.shared.objects.logger 0).appenders.map (·, LogLevel.error, line) <+: seen := by
  obtain ⟨s, reached, test⟩ := System.reaches_test (machine noDates (Fin 2)) Anything (fun _ _ => true)
    (fun _ _ _ => trivial) initial initial_start takenLine
    (fun s => s.program 0 = [.act (.fanOut 0 .error line), .unlock (.logger 0)] ∧
      (s.shared.objects.logger 0).appenders ≠ [] ∧
      ((watched noDates 0).replay (fun _ _ => true) (s, []) (List.replicate 8 (.run 0 ⟨1, ⟨true, true, true⟩⟩))).any
        (fun p => p.1.owner (.logger 0) = none)) (by decide +kernel)
  obtain ⟨taken, listed, more⟩ := of_decide_eq_true test
  obtain ⟨⟨next, seen⟩, replayed, free⟩ := (Option.any_eq_true _ _).mp more
  have path := System.path_of_replay (fun _ _ _ => trivial) .here replayed
  have owner : next.owner (.logger 0) = none := of_decide_eq_true free
  refine ⟨s, next, seen, path, owner, ?_⟩
  obtain done | ⟨-, held⟩ := fans_out reached taken listed path
  · exact done
  · rw [owner] at held
    cases held

end LogSystem
end HpsSf.Log
