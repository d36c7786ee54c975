import HpsSf.Log.Calls

/-! Threads that log while others change the loggers.

A thread takes the locks from the manager over a logger and the root logger to an
appender, so that none waits for ever. A list of appenders changes only under the
lock of its logger, which every loop over it holds.
-/

set_option autoImplicit false

namespace HpsSf.Log
open Foundation (Text OrderedSet Command Threads Discipline Move)
open Foundation.Command (underLock)
open Foundation.Discipline (Context)

/-- A logger logs with the root logger behind it. -/
def LogLock.rank : LogLock → Nat
  | .manager => 0
  | .logger l => if l = 0 then 2 else 1
  | .appender _ => 3

theorem LogLock.rank_lt (l : LogLock) : l.rank < 4 := by
  cases l with
  | manager => exact Nat.zero_lt_succ 3
  | logger l =>
    change (if l = 0 then 2 else 1) < 4
    split <;> omega
  | appender a => exact Nat.lt_succ_self 3

namespace LogAct

def floor : LogAct → Nat
  | .statement l _ _ | .log l _ _ | .dumpLogger l => LogLock.rank (.logger l)
  | .fanOut l _ _ => LogLock.rank (.logger l) + 1
  | .append _ _ _ | .each _ _ _ | .peek _ _ => 3
  | .eachLogger _ => 1
  | .reopen _ | .stamp _ _ | .write _ _ _ | .storeFormatter _ _ | .inherit _ _ | .adopt _ _ | .pushBack _ _ | .erase _ _
  | .clear _ | .setOwn _ _ | .setLevel _ _ | .setAppenderLevel _ _ | .find _ | .create _ | .read _ => 4

def needs : LogAct → List LogLock
  | .fanOut l _ _ | .each l _ _ | .storeFormatter l _ | .pushBack l _ | .erase l _ | .clear l => [.logger l]
  | .inherit l a | .peek l a | .adopt l a => [.appender a, .logger l]
  | .reopen a | .write a _ _ | .setOwn a _ => [.appender a]
  | .find _ | .eachLogger _ => [.manager]
  | .read lock => [lock]
  | .statement _ _ _ | .log _ _ _ | .append _ _ _ | .stamp _ _ | .setLevel _ _ | .setAppenderLevel _ _ | .create _
  | .dumpLogger _ => []

def drops : LogAct → List LogLock
  | .peek _ a => [.appender a]
  | _ => []

/-- The loggers that an action has pointers to. -/
def loggers : LogAct → List LoggerPtr
  | .statement l _ _ | .log l _ _ | .fanOut l _ _ | .each l _ _ | .storeFormatter l _ | .inherit l _ | .peek l _
  | .adopt l _ | .pushBack l _ | .erase l _ | .clear l | .setLevel l _ | .dumpLogger l => [l]
  | .append _ _ _ | .reopen _ | .stamp _ _ | .write _ _ _ | .setOwn _ _ | .setAppenderLevel _ _ | .find _ | .create _
  | .eachLogger _ | .read _ => []

end LogAct

def logDiscipline : Discipline LogLock LogAct where
  rank := LogLock.rank
  floor := LogAct.floor
  needs := LogAct.needs
  drops := LogAct.drops

namespace LogSystem

/-- Only the root logger is behind a logger, and all loggers are made. -/
structure Known (s : LogSystem) : Prop where
  root : s.root 0 = none
  behind : ∀ l r, s.root l = some r → r = 0
  first : 0 < s.nextLogger
  made : ∀ i ∈ s.loggers.elements, i.logger < s.nextLogger

def context : Context LogSystem LogAct where
  known := Known
  refers s a := ∀ l ∈ a.loggers, l < s.nextLogger

/-- A line that is written is in the record and in the file. -/
theorem write_same (libc : Libc) (s : LogSystem) (env : LogEnv) (a : AppenderPtr) (level : LogLevel)
    (event : LogEvent) :
    (s.write libc env a level event).objects = s.objects ∧ (s.write libc env a level event).root = s.root ∧
      (s.write libc env a level event).nextLogger = s.nextLogger ∧
      (s.write libc env a level event).loggers = s.loggers := by
  unfold write
  cases (s.objects.appender a).formatter with
  | none => exact ⟨rfl, rfl, rfl, rfl⟩
  | some formatter =>
    dsimp only
    cases (s.objects.appender a).kind <;> exact ⟨rfl, rfl, rfl, rfl⟩

theorem rank_logger (l : LoggerPtr) : 0 < LogLock.rank (.logger l) ∧ LogLock.rank (.logger l) ≤ 2 := by
  change 0 < (if l = 0 then 2 else 1) ∧ (if l = 0 then 2 else 1) ≤ 2
  split <;> omega

theorem Known.of_same {s next : LogSystem} (known : Known s) (root : next.root = s.root)
    (nextLogger : next.nextLogger = s.nextLogger) (loggers : next.loggers = s.loggers) : Known next := by
  constructor
  · rw [root]
    exact known.root
  · rw [root]
    exact known.behind
  · rw [nextLogger]
    exact known.first
  · rw [loggers, nextLogger]
    exact known.made

theorem Known.find {s : LogSystem} (known : Known s) (name : Text) :
    Known (s.find name) ∧ s.nextLogger ≤ (s.find name).nextLogger := by
  unfold LogSystem.find
  split
  next => exact ⟨known, Nat.le_refl _⟩
  next =>
    refine ⟨⟨?_, fun l r behind => ?_, Nat.succ_pos _, fun i member => ?_⟩, Nat.le_succ _⟩
    · change Function.update s.root s.nextLogger (some 0) 0 = none
      rw [Function.update_of_ne (Nat.ne_of_lt known.first)]
      exact known.root
    · change Function.update s.root s.nextLogger (some 0) l = some r at behind
      obtain rfl | other := eq_or_ne l s.nextLogger
      · rw [Function.update_self] at behind
        exact (Option.some.inj behind).symm
      · rw [Function.update_of_ne other] at behind
        exact known.behind l r behind
    · obtain rfl | old := OrderedSet.mem_insertInto member
      · exact Nat.lt_succ_self _
      · exact Nat.lt_succ_of_lt (known.made i old)

section performing
variable {libc : Libc} {s : LogSystem} {env : LogEnv}

theorem Known.perform (known : Known s) (a : LogAct) :
    Known (s.perform libc env a).1 ∧ s.nextLogger ≤ (s.perform libc env a).1.nextLogger := by
  cases a with
  | find name => exact known.find name
  | create name =>
    exact ⟨⟨known.root, known.behind, Nat.succ_pos _, fun i member => Nat.lt_succ_of_lt (known.made i member)⟩,
      Nat.le_succ _⟩
  | write a level event =>
    obtain ⟨-, root, nextLogger, loggers⟩ := write_same libc s env a level event
    exact ⟨known.of_same root nextLogger loggers, Nat.le_of_eq nextLogger.symm⟩
  | _ => exact ⟨known.of_same rfl rfl rfl, Nat.le_refl _⟩

theorem mem_append {a : AppenderPtr} {level : LogLevel} {event : LogEvent} {b : LogAct}
    (member : .act b ∈ s.append env a level event) :
    b = .reopen a ∨ b = .stamp a env.now ∨ b = .write a level event := by
  unfold append at member
  split at member
  · obtain first | last := List.mem_append.mp member
    · split at first
      next => cases first
      next =>
        split at first
        · simpa [or_assoc] using Or.inl first
        · cases first
    · exact .inr (.inr (by simpa using last))
  · cases member

/-- What an action may go on with. -/
inductive Follows (s : LogSystem) : LogAct → LogAct → Prop where
  | log (l : LoggerPtr) (level : LogLevel) (event : LogEvent) : Follows s (.statement l level event) (.log l level event)
  | fanOut (l : LoggerPtr) (level : LogLevel) (event : LogEvent) : Follows s (.log l level event) (.fanOut l level event)
  | first (l : LoggerPtr) (level : LogLevel) (event : LogEvent) :
      Follows s (.fanOut l level event) (.each l 0 (.log level event))
  | behind (l root : LoggerPtr) (level : LogLevel) (event : LogEvent) (known : s.root l = some root) :
      Follows s (.fanOut l level event) (.log root level event)
  | append (l : LoggerPtr) (k : Nat) (a : AppenderPtr) (level : LogLevel) (event : LogEvent) :
      Follows s (.each l k (.log level event)) (.append a level event)
  | inherit (l : LoggerPtr) (k : Nat) (a : AppenderPtr) : Follows s (.each l k .inherit) (.inherit l a)
  | dump (l : LoggerPtr) (k : Nat) (a : AppenderPtr) : Follows s (.each l k .dump) (.read (.appender a))
  | next (l : LoggerPtr) (k : Nat) (visit : Visit) (inside : k < (s.objects.logger l).appenders.length) :
      Follows s (.each l k visit) (.each l (k + 1) visit)
  | reopen (a : AppenderPtr) (level : LogLevel) (event : LogEvent) : Follows s (.append a level event) (.reopen a)
  | stamp (a : AppenderPtr) (level : LogLevel) (event : LogEvent) (now : Nat) :
      Follows s (.append a level event) (.stamp a now)
  | write (a : AppenderPtr) (level : LogLevel) (event : LogEvent) :
      Follows s (.append a level event) (.write a level event)
  | adopt (l : LoggerPtr) (a : AppenderPtr) : Follows s (.peek l a) (.adopt l a)
  | dumpLogger (k : Nat) (i : Registered) (member : i ∈ s.loggers.elements) :
      Follows s (.eachLogger k) (.dumpLogger i.logger)
  | nextLogger (k : Nat) (inside : k < s.loggers.elements.length) : Follows s (.eachLogger k) (.eachLogger (k + 1))
  | firstDump (l : LoggerPtr) : Follows s (.dumpLogger l) (.each l 0 .dump)

theorem perform_follows {a b : LogAct} (member : .act b ∈ (s.perform libc env a).2) : Follows s a b := by
  cases a with
  | statement l level event =>
    simp only [perform] at member
    split at member
    · obtain rfl : b = .log l level event := by simpa using member
      exact .log ..
    · cases member
  | log l level event =>
    simp only [perform] at member
    split at member
    · obtain rfl : b = .fanOut l level event := by simpa using member
      exact .fanOut ..
    · cases member
  | fanOut l level event =>
    simp only [perform] at member
    split at member
    · obtain rfl : b = .each l 0 (.log level event) := by simpa using member
      exact .first ..
    · split at member
      next root behind =>
        obtain rfl : b = .log root level event := by simpa using member
        exact .behind _ _ _ _ behind
      next => cases member
  | each l k visit =>
    simp only [perform] at member
    split at member
    next a found =>
      obtain here | rfl : .act b ∈ LogSystem.visit l a visit ∨ b = .each l (k + 1) visit := by simpa using member
      · cases visit with
        | log level event =>
          obtain rfl : b = .append a level event := by simpa [LogSystem.visit] using here
          exact .append ..
        | inherit =>
          obtain rfl : b = .inherit l a := by simpa [LogSystem.visit] using here
          exact .inherit ..
        | dump =>
          obtain rfl : b = .read (.appender a) := by simpa [LogSystem.visit] using here
          exact .dump ..
      · exact .next _ _ _ (List.getElem?_eq_some_iff.mp found).1
    next => cases member
  | append a level event =>
    obtain rfl | rfl | rfl := mem_append member
    · exact .reopen ..
    · exact .stamp ..
    · exact .write ..
  | peek l a =>
    simp only [perform] at member
    split at member
    · obtain rfl : b = .adopt l a := by simpa using member
      exact .adopt ..
    · simp at member
  | eachLogger k =>
    simp only [perform] at member
    split at member
    next i found =>
      obtain rfl | rfl : b = .dumpLogger i.logger ∨ b = .eachLogger (k + 1) := by simpa using member
      · exact .dumpLogger _ _ (List.mem_of_getElem? found)
      · exact .nextLogger _ (List.getElem?_eq_some_iff.mp found).1
    next => cases member
  | dumpLogger l =>
    obtain rfl : b = .each l 0 .dump := by simpa [perform] using member
    exact .firstDump ..
  | _ => cases member

/-- What an action goes on with refers to its own loggers, to the root logger, or to loggers of the manager. -/
theorem Follows.refers (known : Known s) {a b : LogAct} (follows : Follows s a b)
    (refers : context.refers s a) :
    context.refers s b := by
  cases follows with
  | log | fanOut | first | inherit | next | adopt | firstDump => exact refers
  | behind l root level event behind =>
    obtain rfl := known.behind l root behind
    simpa [context, LogAct.loggers] using known.first
  | dumpLogger k i member => simpa [context, LogAct.loggers] using known.made i member
  | append | dump | reopen | stamp | write | nextLogger => simp [context, LogAct.loggers]

/-- Under the lock of an appender, which comes last, everything is allowed that takes no lock. -/
theorem fits_atAppender {held : List LogLock} {rest : List LogCommand}
    (below : ∀ k ∈ held, k.rank < 3) {a : AppenderPtr} {b : LogAct} (floor : b.floor = 4)
    (drops : b.drops = []) (needs : ∀ k ∈ b.needs, k ∈ LogLock.appender a :: held)
    (after : logDiscipline.Fits held rest) :
    logDiscipline.Fits held (underLock (.appender a) [b] ++ rest) := by
  refine Discipline.fits_underLock below ?_ ?_ ?_ after
  · simpa [logDiscipline] using drops
  · intro c only k _
    rw [List.mem_singleton.mp only]
    exact Nat.lt_of_lt_of_eq k.rank_lt floor.symm
  · intro c only
    rw [List.mem_singleton.mp only]
    exact needs

theorem append_fits {held : List LogLock} {rest : List LogCommand} (below : ∀ k ∈ held, k.rank < 3)
    (after : logDiscipline.Fits held rest) (a : AppenderPtr) (level : LogLevel) (event : LogEvent) :
    logDiscipline.Fits held (s.append env a level event ++ rest) := by
  have last : logDiscipline.Fits held (underLock (.appender a) [.write a level event] ++ rest) :=
    fits_atAppender below rfl rfl (by simp [LogAct.needs]) after
  unfold append
  split
  · cases (s.objects.appender a).kind with
    | stdout => exact last
    | file filename =>
      dsimp only
      split
      · simp only [List.append_assoc]
        exact fits_atAppender below rfl rfl (by simp [LogAct.needs])
          ⟨fun k _ => k.rank_lt, by simp [logDiscipline, LogAct.needs], last⟩
      · exact last
  · exact after

/-- What an action goes on with keeps to the order of the locks. -/
theorem perform_fits (known : Known s) {a : LogAct} {held : List LogLock} {rest : List LogCommand}
    (fits : logDiscipline.Fits held (.act a :: rest)) :
    logDiscipline.Fits held ((s.perform libc env a).2 ++ rest) := by
  obtain ⟨floor, needs, after⟩ := fits
  cases a with
  | statement l level event =>
    simp only [perform]
    split
    · exact ⟨floor, needs, after⟩
    · exact after
  | log l level event =>
    simp only [perform]
    split
    · refine Discipline.fits_underLock floor (by simp [logDiscipline, LogAct.drops]) ?_
        (by simp [logDiscipline, LogAct.needs]) after
      simp only [List.mem_singleton, forall_eq, List.forall_mem_cons]
      exact ⟨Nat.lt_succ_self _, fun k held => Nat.lt_succ_of_lt (floor k held)⟩
    · exact after
  | fanOut l level event =>
    have low := rank_logger l
    simp only [perform]
    split
    · exact ⟨fun k held => Nat.lt_of_lt_of_le (floor k held) (Nat.succ_le_succ low.2), needs, after⟩
    · split
      next root behind =>
        -- the one logger behind others is the root logger, whose lock comes after theirs
        obtain rfl := known.behind l root behind
        have other : l ≠ 0 := by
          rintro rfl
          rw [known.root] at behind
          cases behind
        have rank : LogLock.rank (.logger l) = 1 := if_neg other
        refine ⟨fun k held => Nat.lt_of_lt_of_le (floor k held) ?_, by simp [logDiscipline, LogAct.needs], after⟩
        exact Nat.succ_le_succ (Nat.le_of_eq rank)
      next => exact after
  | each l k visit =>
    simp only [perform]
    split
    next a found =>
      have again : logDiscipline.Fits held (.act (.each l (k + 1) visit) :: rest) := ⟨floor, needs, after⟩
      rw [List.append_assoc]
      cases visit with
      | log level event => exact ⟨floor, by simp [logDiscipline, LogAct.needs], again⟩
      | inherit =>
        have mine : LogLock.logger l ∈ held := needs _ (List.mem_singleton_self _)
        exact fits_atAppender floor rfl rfl
          (List.forall_mem_cons.mpr
            ⟨List.mem_cons_self .., List.forall_mem_singleton.mpr (List.mem_cons_of_mem _ mine)⟩) again
      | dump => exact fits_atAppender floor rfl rfl (by simp [LogAct.needs]) again
    next => exact after
  | append a level event => exact append_fits floor after a level event
  | peek l a =>
    -- `getFormatter` gives its lock back before `addAppender` takes the same one for the store
    have mine : LogLock.appender a ∈ held := needs _ (by simp [logDiscipline, LogAct.needs])
    have behind : LogLock.logger l ∈ held := needs _ (by simp [logDiscipline, LogAct.needs])
    have dropped : held.diff (logDiscipline.drops (.peek l a)) = held.erase (.appender a) := by
      simp [logDiscipline, LogAct.drops]
    rw [dropped] at floor after
    have kept : LogLock.logger l ∈ held.erase (.appender a) := (List.mem_erase_of_ne (by simp)).mpr behind
    refine ⟨mine, ?_⟩
    split
    · exact fits_atAppender floor rfl rfl
        (List.forall_mem_cons.mpr
          ⟨List.mem_cons_self .., List.forall_mem_singleton.mpr (List.mem_cons_of_mem _ kept)⟩) after
    · exact after
  | eachLogger k =>
    simp only [perform]
    split
    next i found =>
      refine ⟨fun l held => ?_, by simp [logDiscipline, LogAct.needs], floor, needs, after⟩
      exact Nat.lt_of_lt_of_le (floor l held) (rank_logger i.logger).1
    next => exact after
  | dumpLogger l =>
    have low := rank_logger l
    refine Discipline.fits_underLock floor (by simp [logDiscipline, LogAct.drops]) ?_
      (by simp [logDiscipline, LogAct.needs]) after
    simp only [List.mem_singleton, forall_eq, List.forall_mem_cons]
    exact ⟨Nat.lt_succ_of_le low.2, fun k held => Nat.lt_trans (floor k held) (Nat.lt_succ_of_le low.2)⟩
  | _ => exact after

end performing

theorem actions_some {libc : Libc} {s next : LogSystem} {a : LogAct} {env : LogEnv}
    {commands : List LogCommand} (acted : actions libc s a env = some (next, commands)) :
    s.crashed = false ∧ (next, commands) = s.perform libc env a := by
  unfold actions at acted
  cases crashed : s.crashed with
  | true => simp [crashed] at acted
  | false =>
    rw [crashed] at acted
    exact ⟨rfl, (Option.some.inj acted).symm⟩

theorem keeps (libc : Libc) : logDiscipline.Keeps (actions libc) context where
  known s a env next commands known _ acted := by
    obtain ⟨-, same⟩ := actions_some acted
    exact (Prod.mk.inj same).1 ▸ (known.perform a).1
  refers s a env next commands b known acted refers l member := by
    obtain ⟨-, same⟩ := actions_some acted
    exact Nat.lt_of_lt_of_le (refers l member) ((Prod.mk.inj same).1 ▸ (known.perform a).2)
  commands s a env next commands b known refers acted member l inside := by
    obtain ⟨-, same⟩ := actions_some acted
    obtain ⟨rfl, rfl⟩ := Prod.mk.inj same
    exact Nat.lt_of_lt_of_le ((perform_follows member).refers known refers l inside) (known.perform a).2
  fits s a env next commands held rest known acted fits := by
    obtain ⟨-, same⟩ := actions_some acted
    exact (Prod.mk.inj same).2 ▸ perform_fits known fits

end LogSystem

namespace LogCall

/-- A call that takes one lock. -/
theorem fits_alone {l : LogLock} {acts : List LogAct}
    (fine : ∀ a ∈ acts, a.drops = [] ∧ l.rank < a.floor ∧ ∀ k ∈ a.needs, k = l) :
    logDiscipline.Fits [] (underLock l acts) := by
  rw [← List.append_nil (underLock l acts)]
  refine Discipline.fits_underLock (by simp) (fun a member => (fine a member).1) (fun a member => ?_)
    (fun a member k needed => ?_) rfl
  · exact List.forall_mem_singleton.mpr (fine a member).2.1
  · exact List.mem_singleton.mpr ((fine a member).2.2 k needed)

theorem objectBody_fits (op : ObjectOp) : logDiscipline.Fits [] (objectBody op) := by
  have low (l : LoggerPtr) : LogLock.rank (.logger l) < 3 := Nat.lt_succ_of_le (LogSystem.rank_logger l).2
  have inheriting (l : LoggerPtr) (val : Option LogFormatter) :
      logDiscipline.Fits [] (underLock (.logger l) [.storeFormatter l val, .each l 0 .inherit]) := by
    refine fits_alone ?_
    simp [LogAct.drops, LogAct.floor, LogAct.needs, low, Nat.lt_succ_of_lt (low l)]
  cases op with
  | addAppender l a =>
    have above : LogLock.rank (.logger l) < LogLock.rank (.appender a) := low l
    simpa [objectBody, Discipline.Fits, logDiscipline, LogAct.drops, LogAct.floor, LogAct.needs] using
      And.intro above ⟨low l, Nat.lt_succ_of_lt (low l)⟩
  | delAppender l a => exact fits_alone (by simp [LogAct.drops, LogAct.floor, LogAct.needs, Nat.lt_succ_of_lt (low l)])
  | clearAppenders l => exact fits_alone (by simp [LogAct.drops, LogAct.floor, LogAct.needs, Nat.lt_succ_of_lt (low l)])
  | setFormatter l val => exact inheriting l val
  | setPattern l val =>
    simp only [objectBody]
    split
    · rfl
    · exact inheriting l _
  | setLevel l level => exact ⟨by simp, by simp [logDiscipline, LogAct.needs], rfl⟩
  | setAppenderFormatter a val => exact fits_alone (by simp [LogAct.drops, LogAct.floor, LogAct.needs, LogLock.rank])
  | setAppenderLevel a level => exact ⟨by simp, by simp [logDiscipline, LogAct.needs], rfl⟩

theorem body_fits (call : LogCall) : logDiscipline.Fits [] call.body := by
  cases call with
  | getLogger name => exact fits_alone (by simp [LogAct.drops, LogAct.floor, LogAct.needs, LogLock.rank])
  | object op => exact objectBody_fits op
  | getFormatter l => exact fits_alone (by simp [LogAct.drops, LogAct.floor, LogAct.needs, LogLock.rank_lt])
  | getAppenderFormatter a | appenderToYAMLString a =>
    exact fits_alone (by simp [LogAct.drops, LogAct.floor, LogAct.needs, LogLock.rank_lt])
  | toYAMLString => exact fits_alone (by simp [LogAct.drops, LogAct.floor, LogAct.needs, LogLock.rank])
  | create name | statement l level event | log l level event | loggerToYAMLString l =>
    exact ⟨by simp, by simp [logDiscipline, LogAct.needs], rfl⟩

/-- A call acts on no logger but its own. -/
theorem body_target {call : LogCall} {a : LogAct} (member : .act a ∈ call.body) {l : LoggerPtr}
    (refers : l ∈ a.loggers) :
    call.target = some l := by
  cases call with
  | object op =>
    cases op with
    | setPattern l' val =>
      simp only [body, objectBody] at member
      split at member
      · cases member
      · obtain rfl | rfl : a = .storeFormatter l' (some (.init val)) ∨ a = .each l' 0 .inherit := by simpa using member
        all_goals exact congrArg some (List.mem_singleton.mp refers).symm
    | addAppender l' a' =>
      obtain rfl | rfl : a = .peek l' a' ∨ a = .pushBack l' a' := by simpa [body, objectBody] using member
      all_goals exact congrArg some (List.mem_singleton.mp refers).symm
    | setFormatter l' val =>
      obtain rfl | rfl : a = .storeFormatter l' val ∨ a = .each l' 0 .inherit := by simpa [body, objectBody] using member
      all_goals exact congrArg some (List.mem_singleton.mp refers).symm
    | _ =>
      simp only [body, objectBody, Command.act_mem_underLock, List.mem_singleton, Command.act.injEq] at member
      subst member
      simp_all [LogAct.loggers, target]
  | _ =>
    simp only [body, Command.act_mem_underLock, List.mem_singleton, Command.act.injEq] at member
    subst member
    simp_all [LogAct.loggers, target]

theorem body_refers {s : LogSystem} {call : LogCall} (admitted : admits s call = true) {a : LogAct}
    (member : .act a ∈ call.body) : LogSystem.context.refers s a := by
  intro l refers
  rw [admits, body_target member refers] at admitted
  exact of_decide_eq_true admitted

end LogCall

namespace LogSystem
variable {libc : Libc} {T : Type} [DecidableEq T]

theorem begins_known {s : LogSystem} (begins : Begins s) : Known s := by
  obtain ⟨m, files, ⟨objects, -, -, -, rfl⟩, rfl⟩ := begins
  refine ⟨rfl, fun l r behind => (by cases behind), Nat.zero_lt_one, fun i member => ?_⟩
  obtain rfl := List.mem_singleton.mp member
  exact Nat.zero_lt_one

/-- Whatever is running, each thread has its locks, and what it is going to do fits to them. -/
theorem safe_of_reaches {allowed : Threads LogSystem T LogLock LogAct → Move T LogCall LogEnv → Prop}
    {s : Threads LogSystem T LogLock LogAct} (reached : (machine libc T).Reaches allowed s) :
    logDiscipline.Safe context s :=
  Discipline.safe_of_reaches (keeps libc) (fun _ => begins_known) LogCall.body_fits
    (fun _ _ _ _ admitted member => LogCall.body_refers admitted member) reached

/-- Any threads and calls. -/
abbrev Anything (_ : Threads LogSystem T LogLock LogAct) (_ : Move T LogCall LogEnv) : Prop := True

/-- The manager as it is constructed, and threads that do nothing yet. -/
def initial : Threads LogSystem T LogLock LogAct :=
  ⟨⟨LoggerManager.initial.objects, fun _ => none, LoggerManager.initial.loggers, 1,
      fun _ => .create ⟨true, true, true⟩, [], false⟩,
    fun _ => none, fun _ => []⟩

theorem initial_start : (machine libc T).start initial :=
  ⟨⟨LoggerManager.initial, fun _ => ⟨true, true, true⟩, LoggerManager.initial_start, rfl⟩, fun _ => rfl, fun _ => rfl⟩

/-- A C library without dates. -/
def noDates : Libc := ⟨fun _ _ => [], fun _ _ => []⟩

def line : LogEvent := ⟨"main.cpp".toList, 7, 0, 1, 0, 0, "main".toList, "up".toList, "root".toList⟩

end LogSystem
end HpsSf.Log
