import HpsSf.Log.Locking

/-! What a call of the log system does when no other thread comes in between.

An operation on loggers and appenders is the one of the sequential model, and a line
goes to the appenders of its logger, or of the root logger, that take its level.
-/

set_option autoImplicit false

namespace HpsSf.Log
open Foundation (Text Command Threads Move)
open Foundation.Command (underLock)

namespace LogSystem
variable {libc : Libc} {s final : LogSystem}

abbrev Alone (libc : Libc) : LogSystem → List LogCommand → LogSystem → Prop := Threads.Alone (actions libc)

theorem alone_act {a : LogAct} {rest : List LogCommand}
    (alone : Alone libc s (.act a :: rest) final) :
    ∃ env, s.crashed = false ∧ Alone libc (s.perform libc env a).1 ((s.perform libc env a).2 ++ rest) final := by
  cases alone with
  | @act _ next _ _ env commands _ acted later =>
    obtain ⟨alive, same⟩ := actions_some acted
    obtain ⟨rfl, rfl⟩ := Prod.mk.inj same
    exact ⟨env, alive, later⟩

/-- An action that goes on with nothing. -/
theorem alone_last {a : LogAct} (still : ∀ env, (s.perform libc env a).2 = [])
    (alone : Alone libc s [.act a] final) :
    ∃ env, final = (s.perform libc env a).1 := by
  obtain ⟨env, -, later⟩ := alone_act alone
  rw [still] at later
  cases later
  exact ⟨env, rfl⟩

/-! ## Loops over the appenders of a logger -/

section
variable {l : LoggerPtr} {k : Nat} {visit : Visit}

theorem alone_each_nil (left : (s.objects.logger l).appenders.drop k = [])
    (alone : Alone libc s [.act (.each l k visit)] final) : final = s := by
  obtain ⟨env, -, later⟩ := alone_act alone
  simp only [perform, List.getElem?_eq_none_iff.mpr (List.drop_eq_nil_iff.mp left)] at later
  cases later
  rfl

/-- One pass of the loop, and the passes behind it. -/
theorem alone_each_cons {a : AppenderPtr} {appenders : List AppenderPtr}
    (left : (s.objects.logger l).appenders.drop k = a :: appenders)
    (alone : Alone libc s [.act (.each l k visit)] final) :
    (s.objects.logger l).appenders.drop (k + 1) = appenders ∧
      ∃ middle, Alone libc s (LogSystem.visit l a visit) middle ∧
        Alone libc middle [.act (.each l (k + 1) visit)] final := by
  have here : (s.objects.logger l).appenders[k]? = some a := by
    rw [← List.head?_drop, left]
    rfl
  refine ⟨by rw [← List.tail_drop, left, List.tail_cons], ?_⟩
  obtain ⟨env, -, later⟩ := alone_act alone
  simp only [perform, here, List.append_nil] at later
  exact later.append

end

/-! ## Operations on loggers and appenders -/

theorem alone_inherits {l : LoggerPtr} {k : Nat}
    (alone : Alone libc s [.act (.each l k .inherit)] final) :
    final = { s with
      objects := ((s.objects.logger l).appenders.drop k).foldl
        (Objects.inherit (s.objects.logger l).formatter) s.objects } := by
  generalize left : (s.objects.logger l).appenders.drop k = appenders
  induction appenders generalizing s k with
  | nil => exact alone_each_nil left alone
  | cons a appenders ih =>
    obtain ⟨behind, middle, first, rest⟩ := alone_each_cons left alone
    obtain ⟨env, rfl⟩ := alone_last (fun _ => rfl) first.underLock
    -- A pass writes no logger, so the formatter that is inherited stays the same.
    have after := ih rest
    simp only [perform, Objects.inherit_logger] at after
    rw [after behind]
    rfl

theorem object_alone {op : ObjectOp} (alone : Alone libc s (LogCall.objectBody op) final) :
    final = { s with objects := s.objects.apply op } := by
  have setting {l : LoggerPtr} {val : Option LogFormatter}
      (alone : Alone libc s (underLock (.logger l) [.storeFormatter l val, .each l 0 .inherit]) final) :
      final = { s with objects := s.objects.setFormatter l val } := by
    obtain ⟨env, -, later⟩ := alone_act alone.underLock
    rw [alone_inherits later]
    simp only [perform, Objects.setLogger_self, List.drop_zero]
    rfl
  cases op with
  | addAppender l a =>
    cases alone with
    | lock alone => cases alone with
    | lock alone =>
    obtain ⟨env, -, later⟩ := alone_act alone
    simp only [perform, List.cons_append] at later
    cases later with
    | unlock later =>
    -- Whether the appender gets the formatter of the logger before it is in the list.
    have pushed {middle : LogSystem} (last : Alone libc middle [.act (.pushBack l a), .unlock (.logger l)] final) :
        ∃ env, final = (middle.perform libc env (.pushBack l a)).1 := by
      obtain ⟨env, -, last⟩ := alone_act last
      cases last with
      | unlock last =>
        cases last
        exact ⟨env, rfl⟩
    simp only [Objects.apply, Objects.addAppender]
    split at later
    next missing =>
      rw [if_pos missing]
      obtain ⟨middle, adopting, last⟩ := later.append
      obtain ⟨env', rfl⟩ := alone_last (fun _ => rfl) adopting.underLock
      obtain ⟨env'', rfl⟩ := pushed last
      rfl
    next own =>
      rw [if_neg own]
      obtain ⟨env', rfl⟩ := pushed later
      rfl
  | delAppender l a | clearAppenders l | setAppenderFormatter a val =>
    obtain ⟨env, rfl⟩ := alone_last (fun _ => rfl) alone.underLock
    rfl
  | setFormatter l val => exact setting alone
  | setPattern l val =>
    simp only [LogCall.objectBody] at alone
    simp only [Objects.apply, Objects.setPattern]
    split at alone
    next bad =>
      cases alone
      rw [if_pos bad]
    next good =>
      rw [if_neg good]
      exact setting alone
  | setLevel l level | setAppenderLevel a level =>
    obtain ⟨env, rfl⟩ := alone_last (fun _ => rfl) alone
    rfl

/-! ## Lines -/

/-- What an appender makes of a line, if it takes the level. -/
def lineAt (libc : Libc) (objects : Objects) (level : LogLevel) (event : LogEvent) (a : AppenderPtr) :
    Option (AppenderPtr × Text) :=
  if (objects.appender a).level.value ≤ level.value then
    (objects.appender a).formatter.map fun formatter => (a, formatter.format libc level event)
  else none

/-- What a logger puts out: at its own appenders, or without any at those of the root logger. -/
def emits (libc : Libc) (s : LogSystem) (l : LoggerPtr) (level : LogLevel) (event : LogEvent) :
    List (AppenderPtr × Text) :=
  let lines (l : LoggerPtr) := (s.objects.logger l).appenders.filterMap (lineAt libc s.objects level event)
  if (s.objects.logger l).level.value ≤ level.value then
    if (s.objects.logger l).appenders ≠ [] then lines l
    else
      match s.root l with
      | some root => if (s.objects.logger root).level.value ≤ level.value then lines root else []
      | none => []
  else []

/-- Nothing but the output has changed. -/
structure Puts (s final : LogSystem) (lines : List (AppenderPtr × Text)) : Prop where
  objects : final.objects = s.objects
  root : final.root = s.root
  rendered : final.rendered = s.rendered ++ lines

theorem Puts.nothing : Puts s s [] := ⟨rfl, rfl, (List.append_nil _).symm⟩

theorem Puts.trans {middle : LogSystem} {first second : List (AppenderPtr × Text)}
    (before : Puts s middle first) (after : Puts middle final second) :
    Puts s final (first ++ second) :=
  ⟨after.objects.trans before.objects, after.root.trans before.root, by
    rw [after.rendered, before.rendered, List.append_assoc]⟩

theorem write_puts (env : LogEnv) (a : AppenderPtr) (level : LogLevel) (event : LogEvent) :
    Puts s (s.write libc env a level event)
      ((s.objects.appender a).formatter.map fun formatter => (a, formatter.format libc level event)).toList := by
  obtain ⟨objects, root, -, -⟩ := write_same libc s env a level event
  refine ⟨objects, root, ?_⟩
  unfold write
  cases (s.objects.appender a).formatter with
  | none => exact (List.append_nil _).symm
  | some formatter =>
    dsimp only
    cases (s.objects.appender a).kind <;> rfl

theorem alone_append {a : AppenderPtr} {level : LogLevel} {event : LogEvent}
    (alone : Alone libc s [.act (.append a level event)] final) :
    Puts s final (lineAt libc s.objects level event a).toList := by
  obtain ⟨env, -, later⟩ := alone_act alone
  rw [List.append_nil] at later
  simp only [perform, append] at later
  unfold lineAt
  split at later
  next takes =>
    rw [if_pos takes]
    obtain ⟨middle, opening, writing⟩ := later.append
    -- To open the file again, or to note the second, puts nothing out.
    have opened : Puts s middle [] := by
      split at opening
      next =>
        cases opening
        exact .nothing
      next =>
        split at opening
        · obtain ⟨reopened, first, second⟩ := opening.append
          obtain ⟨env', rfl⟩ := alone_last (fun _ => rfl) first.underLock
          obtain ⟨env'', rfl⟩ := alone_last (fun _ => rfl) second
          exact ⟨rfl, rfl, (List.append_nil _).symm⟩
        · cases opening
          exact .nothing
    obtain ⟨env', rfl⟩ := alone_last (fun _ => rfl) writing.underLock
    refine opened.trans ?_
    rw [← opened.objects]
    exact write_puts env' a level event
  next skips =>
    cases later
    rw [if_neg skips]
    exact .nothing

theorem alone_logs {l : LoggerPtr} {k : Nat} {level : LogLevel} {event : LogEvent}
    (alone : Alone libc s [.act (.each l k (.log level event))] final) :
    Puts s final (((s.objects.logger l).appenders.drop k).filterMap (lineAt libc s.objects level event)) := by
  generalize left : (s.objects.logger l).appenders.drop k = appenders
  induction appenders generalizing s k with
  | nil =>
    obtain rfl := alone_each_nil left alone
    exact .nothing
  | cons a appenders ih =>
    obtain ⟨behind, middle, first, rest⟩ := alone_each_cons left alone
    have put := alone_append first
    have after := ih rest (by rw [put.objects, behind])
    rw [put.objects] at after
    have lines := put.trans after
    rw [List.filterMap_cons]
    cases line : lineAt libc s.objects level event a <;> simpa [line] using lines

/-- A logger that takes the level goes to its appenders, hands the line on, or drops it. -/
theorem alone_log_cases {l : LoggerPtr} {level : LogLevel} {event : LogEvent}
    (alone : Alone libc s [.act (.log l level event)] final) :
    (¬ (s.objects.logger l).level.value ≤ level.value ∧ final = s) ∨ (s.objects.logger l).level.value ≤ level.value ∧
      (((s.objects.logger l).appenders ≠ [] ∧
          Puts s final ((s.objects.logger l).appenders.filterMap (lineAt libc s.objects level event))) ∨
        (s.objects.logger l).appenders = [] ∧ ((s.root l = none ∧ final = s) ∨
          ∃ root, s.root l = some root ∧ Alone libc s [.act (.log root level event)] final)) := by
  obtain ⟨env, -, later⟩ := alone_act alone
  rw [List.append_nil] at later
  simp only [perform] at later
  split at later
  next takes =>
    obtain ⟨env', -, fanning⟩ := alone_act later.underLock
    simp only [perform] at fanning
    split at fanning
    next listed => exact .inr ⟨takes, .inl ⟨listed, alone_logs fanning⟩⟩
    next none =>
      refine .inr ⟨takes, .inr ⟨not_not.mp none, ?_⟩⟩
      split at fanning
      next root behind => exact .inr ⟨root, behind, fanning⟩
      next nobody =>
        cases fanning
        exact .inl ⟨nobody, rfl⟩
  next skips =>
    cases later
    exact .inl ⟨skips, rfl⟩

/-- A logger hands a line on at most once, to the root logger. -/
theorem alone_log (known : Known s) {l : LoggerPtr} {level : LogLevel} {event : LogEvent}
    (alone : Alone libc s [.act (.log l level event)] final) :
    Puts s final (s.emits libc l level event) := by
  unfold emits
  obtain ⟨skips, rfl⟩ | ⟨takes, ⟨listed, lines⟩ | ⟨none, ⟨nobody, rfl⟩ | ⟨root, behind, handed⟩⟩⟩ := alone_log_cases alone
  · rw [if_neg skips]
    exact .nothing
  · rw [if_pos takes, if_pos listed]
    exact lines
  · rw [if_pos takes, if_neg (not_not.mpr none), nobody]
    exact .nothing
  · rw [if_pos takes, if_neg (not_not.mpr none), behind]
    -- The root logger has no `m_root`, so the line goes no further.
    obtain rfl := known.behind l root behind
    dsimp only
    obtain ⟨skips, rfl⟩ | ⟨takes, ⟨-, lines⟩ | ⟨none, ⟨-, rfl⟩ | ⟨root, behind, -⟩⟩⟩ := alone_log_cases handed
    · rw [if_neg skips]
      exact .nothing
    · rw [if_pos takes]
      exact lines
    · rw [if_pos takes, none]
      exact .nothing
    · rw [known.root] at behind
      cases behind

theorem alone_statement (known : Known s) {l : LoggerPtr} {level : LogLevel} {event : LogEvent}
    (alone : Alone libc s [.act (.statement l level event)] final) :
    Puts s final (s.emits libc l level event) := by
  obtain ⟨env, -, later⟩ := alone_act alone
  rw [List.append_nil] at later
  simp only [perform] at later
  split at later
  next => exact alone_log known later
  next skips =>
    cases later
    rw [emits, if_neg skips]
    exact .nothing

/-! ## Calls -/

variable {T : Type} [DecidableEq T]

/-- The moves of one thread while all others are at rest. -/
def Only (t : T) (_ : Threads LogSystem T LogLock LogAct) (move : Move T LogCall LogEnv) : Prop :=
  ∃ env, move = .run t env

/-- The call, and as many moves of its thread, to its end. -/
def callTo (libc : Libc) (s : Threads LogSystem (Fin 2) LogLock LogAct) (call : LogCall) (steps : Nat) (env : LogEnv) :
    Option (Threads LogSystem (Fin 2) LogLock LogAct) :=
  ((machine libc (Fin 2)).step s (.call 0 call)).bind fun begun =>
    (machine libc (Fin 2)).replay (fun _ move => match move with | .run u _ => u = 0 | .call _ _ => false) begun
      (List.replicate steps (.run 0 env))

theorem callTo_path {libc : Libc} {s next : Threads LogSystem (Fin 2) LogLock LogAct}
    {call : LogCall} {steps : Nat} {env : LogEnv} (done : callTo libc s call steps env = some next) :
    ∃ begun, (machine libc (Fin 2)).step s (.call 0 call) = some begun ∧
      (machine libc (Fin 2)).Path (Only 0) begun next := by
  obtain ⟨begun, called, replayed⟩ := Option.bind_eq_some_iff.mp done
  refine ⟨begun, called, Foundation.System.path_of_replay (fun s move mine => ?_) .here replayed⟩
  cases move with
  | run u env => exact ⟨env, by rw [of_decide_eq_true mine]⟩
  | call u call => cases mine

theorem called_alone {s begun next : Threads LogSystem T LogLock LogAct} {t : T} {call : LogCall}
    (called : (machine libc T).step s (.call t call) = some begun)
    (path : (machine libc T).Path (Only t) begun next) (ended : next.program t = []) :
    Alone libc s.shared call.body next.shared := by
  change s.step (actions libc) LogCall.admits LogCall.body (.call t call) = some begun at called
  obtain ⟨-, -, rfl⟩ := Threads.step_call called
  simpa using Threads.alone_of_path path ended

/-- An operation on loggers and appenders that no other thread gets into is the one of the sequential model. -/
theorem object_sequential {s begun next : Threads LogSystem T LogLock LogAct} {t : T} {op : ObjectOp}
    (called : (machine libc T).step s (.call t (.object op)) = some begun)
    (path : (machine libc T).Path (Only t) begun next) (ended : next.program t = []) :
    next.shared = { s.shared with objects := s.shared.objects.apply op } :=
  object_alone (called_alone called path ended)

theorem object_sequential_addAppender : ∃ next : Threads LogSystem (Fin 2) LogLock LogAct,
    next.program 0 = [] ∧ next.shared =
      { (initial : Threads LogSystem (Fin 2) LogLock LogAct).shared with
        objects := LoggerManager.initial.objects.apply (.addAppender 0 5) } := by
  have done : ((callTo noDates initial (.object (.addAppender 0 5)) 9 ⟨1, ⟨true, true, true⟩⟩).any
      fun next => next.program 0 = []) = true := by decide +kernel
  obtain ⟨next, done, ended⟩ := (Option.any_eq_true _ _).mp done
  obtain ⟨begun, called, path⟩ := callTo_path done
  exact ⟨next, of_decide_eq_true ended, object_sequential called path (of_decide_eq_true ended)⟩

end LogSystem
end HpsSf.Log
