import HpsSf.Scheduler.Accounting

/-! The verdict of `stopping()` on a plain scheduler.

A worker decrements the active count before it puts a fiber in state READY back
into the queue. In between, the queue may be empty and the count zero, and the
verdict is taken back by the requeue. It stands for good exactly when no worker
is in between.
-/

set_option autoImplicit false

namespace HpsSf.Scheduler
open Foundation

variable {n : Nat} {tid : Fin n → Int} {s next : State n}

/-- A schedule call from a thread that is no worker. -/
def Label.outside : Label n → Bool
  | .schedule none _ _ | .scheduleAll none _ => true
  | _ => false

/-- The idle fiber of a plain scheduler loops until the verdict, and nothing is
scheduled from outside once `stop()` has been called. -/
structure Plain (s : State n) (label : Label n) : Prop where
  idle : ∀ w ended, label = .idle w ended → ended = s.verdict
  outside : label.outside = true → s.autoStop = false

/-- The worker has decremented the active count and is going to requeue its fiber. -/
def Requeuing (s : State n) (w : Fin n) : Prop :=
  ∃ branch f, (s.worker w).fiberOf branch = some f ∧
    ((s.worker w).pc = .task .settle branch ∧ (s.heap f).state = .ready ∨
      (s.worker w).pc = .task .requeue branch)

/-- In every later state the verdict is true and no worker is on a task. -/
def StaysStopped (tid : Fin n → Int) (s : State n) : Prop :=
  ∀ later, (machine tid).Path Plain s later →
    later.verdict = true ∧ ∀ w, (later.worker w).pc.active = false

theorem verdict_eq_true_iff (s : State n) :
    s.verdict = true ↔
      s.autoStop = true ∧ s.stopping = true ∧ s.fibers = [] ∧ s.activeThreadCount = 0 := by
  simp [State.verdict, and_assoc]

/-- What the verdict would have to mean to be final. -/
structure Quiet (s : State n) : Prop where
  verdict : s.verdict = true
  inactive : ∀ w, (s.worker w).pc.active = false
  settled : ∀ w, ¬ Requeuing s w

/-- A step of one worker that leaves the queue, the count and the fiber states alone. -/
theorem Quiet.move (quiet : Quiet s) (w : Fin n) (self : Worker)
    (worker : next.worker = Function.update s.worker w self) (verdict : next.verdict = s.verdict)
    (states : ∀ f, (next.heap f).state = .ready → (s.heap f).state = .ready)
    (inactive : self.pc.active = false)
    (settled : ∀ branch f, self.fiberOf branch = some f → self.pc ≠ .task .requeue branch ∧
      (self.pc = .task .settle branch → (next.heap f).state ≠ .ready)) : Quiet next := by
  refine ⟨verdict.trans quiet.verdict, fun other => ?_, fun other => ?_⟩
  · rcases eq_or_ne other w with rfl | distinct
    · rw [worker, Function.update_self]
      exact inactive
    · rw [worker, Function.update_of_ne distinct]
      exact quiet.inactive other
  · rintro ⟨branch, f, owned, holding⟩
    rcases eq_or_ne other w with rfl | distinct
    · rw [worker, Function.update_self] at owned holding
      obtain ⟨unqueued, unready⟩ := settled branch f owned
      rcases holding with ⟨settling, ready⟩ | requeuing
      · exact unready settling ready
      · exact unqueued requeuing
    · rw [worker, Function.update_of_ne distinct] at owned holding
      refine quiet.settled other ⟨branch, f, owned, ?_⟩
      exact holding.imp (fun ⟨settling, ready⟩ => ⟨settling, states f ready⟩) id

/-- No worker is on a task, so the only calls left are those from outside. -/
theorem Quiet.no_calls (quiet : Quiet s) {caller : Option (Fin n)} (able : s.mayCall caller = true) :
    caller = none := by
  cases caller with
  | none => rfl
  | some w =>
    have idle := quiet.inactive w
    simp only [State.mayCall] at able
    split at able
    next running =>
      rw [running] at idle
      cases idle
    next => cases able

/-- Behind the decrement a worker only settles its fiber, and stores no READY. -/
theorem advance_settles {fiber : Fiber} {branch : Branch} {stage : Stage} {act : Act} {effect : Effect}
    (advanced : advance fiber branch stage act = some effect) (inactive : stage.active = false)
    (unqueued : stage ≠ .requeue) (unready : stage = .settle → fiber.state ≠ .ready) :
    effect.requeues = false ∧ effect.decrements = false ∧ effect.pc.active = false ∧
      (effect.fiber.state = .ready → fiber.state = .ready) ∧
      ∀ later, effect.pc ≠ .task .settle later ∧ effect.pc ≠ .task .requeue later := by
  cases stage <;> cases act <;> simp only [advance, reduceCtorEq] at advanced
  case settle.proceed =>
    have other := unready rfl
    split at advanced
    case h_1 ready => exact absurd ready other
    case h_2 | h_3 => split at advanced <;> cases advanced <;> exact ⟨rfl, rfl, rfl, id, by simp⟩
    all_goals
      cases advanced
      exact ⟨rfl, rfl, rfl, id, by simp⟩
  case hold.proceed =>
    cases advanced
    exact ⟨rfl, rfl, rfl, by simp, fun _ => ⟨by simp, by simp⟩⟩
  case recycle.proceed =>
    obtain ⟨after, recycled, rfl⟩ := Option.map_eq_some_iff.mp advanced
    obtain ⟨_, rfl⟩ := Fiber.reset_eq_some recycled
    exact ⟨rfl, rfl, rfl, by simp, fun _ => ⟨by simp, by simp⟩⟩
  case requeue.proceed => exact absurd rfl unqueued
  all_goals cases inactive

theorem step_quiet {label : Label n} (quiet : Quiet s) (calls : label.outside = true → s.autoStop = false)
    (stepped : step tid s label = some next) : Quiet next := by
  obtain ⟨stopped, stopping, empty, zero⟩ := (verdict_eq_true_iff s).mp quiet.verdict
  cases label with
  | schedule caller fc thread =>
    obtain ⟨able, _, _⟩ := step_schedule stepped
    cases quiet.no_calls able
    have running := calls rfl
    rw [stopped] at running
    cases running
  | scheduleAll caller fcs =>
    obtain ⟨able, _, _⟩ := step_scheduleAll stepped
    cases quiet.no_calls able
    have running := calls rfl
    rw [stopped] at running
    cases running
  | newFiber caller =>
    cases step_newFiber stepped
    refine ⟨quiet.verdict, quiet.inactive, fun w requeuing => quiet.settled w ?_⟩
    obtain ⟨branch, f, owned, holding⟩ := requeuing
    refine ⟨branch, f, owned, holding.imp (fun ⟨settling, ready⟩ => ⟨settling, ?_⟩) id⟩
    rcases eq_or_ne f s.nextFiber with rfl | other
    · simp [State.setFiber, Fiber.create] at ready
    · simpa [State.setFiber, other] using ready
  | setAutoStop =>
    cases stepped
    exact ⟨(verdict_eq_true_iff _).mpr ⟨rfl, stopping, empty, zero⟩, quiet.inactive, quiet.settled⟩
  | setStopping =>
    cases stepped
    exact ⟨(verdict_eq_true_iff _).mpr ⟨stopped, rfl, empty, zero⟩, quiet.inactive, quiet.settled⟩
  | scan w =>
    obtain ⟨_, ⟨ft, left, picked, _⟩ | ⟨_, rfl⟩⟩ := step_scan stepped
    · rw [empty] at picked
      cases picked
    · exact quiet.move w _ rfl rfl (fun _ => id) rfl (by simp)
  | branch w =>
    have inactive := quiet.inactive w
    obtain ⟨f, thread, branching, _⟩ | ⟨c, thread, f, branching, _, _, _⟩ |
      ⟨c, thread, branching, _, _⟩ | ⟨_, ⟨rfl, _⟩ | ⟨rfl, _⟩⟩ := step_branch stepped
    case inr.inr.inr.inl | inr.inr.inr.inr =>
      exact quiet.move w _ rfl rfl (fun _ => id) rfl (by simp)
    -- an entry taken from the queue is counted
    all_goals
      rw [branching] at inactive
      cases inactive
  | task w act =>
    obtain ⟨stage, branch, g, effect, running, owned, advanced, rfl⟩ := step_task stepped
    have inactive := quiet.inactive w
    rw [running] at inactive
    have settled (holding : stage = .requeue ∨ stage = .settle ∧ (s.heap g).state = .ready) : False := by
      refine quiet.settled w ⟨branch, g, owned, ?_⟩
      rcases holding with rfl | ⟨rfl, ready⟩
      · exact .inr running
      · exact .inl ⟨running, ready⟩
    obtain ⟨unqueued, undecremented, after, ready, elsewhere⟩ := advance_settles advanced inactive
      (fun same => settled (.inl same)) fun same ready => settled (.inr ⟨same, ready⟩)
    refine quiet.move w _ rfl ?_ (fun f holds => ?_) after fun later _ _ =>
      ⟨(elsewhere later).2, fun settling => absurd settling (elsewhere later).1⟩
    · simp [State.verdict, State.apply, unqueued, undecremented]
    · rcases eq_or_ne f g with rfl | other
      · exact ready (by simpa [State.apply] using holds)
      · simpa [State.apply, other] using holds
  | idle w ended =>
    obtain ⟨_, rfl⟩ := step_idle stepped
    exact quiet.move w _ rfl rfl (fun _ => id) rfl (by simp)

/-- A worker that is going to requeue can do so, and then the queue has an entry. -/
theorem Requeuing.verdict_lost (tid : Fin n → Int) {w : Fin n} (requeuing : Requeuing s w) :
    ∃ later, (machine tid).Path Plain s later ∧ later.verdict = false := by
  have plain (s : State n) (act : Act) : Plain s (.task w act) := ⟨nofun, nofun⟩
  have requeue {before : State n} (path : (machine tid).Path Plain s before) (branch : Branch) (f : FiberId)
      (pc : (before.worker w).pc = .task .requeue branch)
      (owned : (before.worker w).fiberOf branch = some f) :
      ∃ later, (machine tid).Path Plain s later ∧ later.verdict = false := by
    refine ⟨before.apply (tid w) w branch f { fiber := before.heap f, pc := .scan, releases := true, requeues := true },
      path.step (plain before .proceed) ?_, ?_⟩
    · simp [machine, step, pc, owned, advance]
    · simp [State.verdict, State.apply, scheduleNoLock]
  obtain ⟨branch, f, owned, ⟨settling, ready⟩ | pc⟩ := requeuing
  · have settled : (machine tid).step s (.task w .proceed) =
        some (s.apply (tid w) w branch f { fiber := s.heap f, pc := .task .requeue branch }) := by
      simp [machine, step, settling, owned, advance, ready]
    refine requeue (.step .here (plain s .proceed) settled) branch f ?_ ?_
    · simp [State.apply, Worker.after]
    · cases branch <;> simpa [State.apply, Worker.after, Worker.fiberOf] using owned
  · exact requeue .here branch f pc owned

/-- The verdict, once true, is final exactly when no worker is about to requeue. -/
theorem verdict_stable_iff (small : n < 2 ^ 64) (reached : (machine tid).Reaches Plain s)
    (stopped : s.verdict = true) : StaysStopped tid s ↔ ∀ w, ¬ Requeuing s w := by
  constructor
  · intro stays w requeuing
    obtain ⟨later, path, lost⟩ := requeuing.verdict_lost tid
    rw [(stays later path).1] at lost
    cases lost
  · intro settled later path
    have none : activeWorkers s = 0 := by
      rw [← active_count small reached]
      exact ((verdict_eq_true_iff s).mp stopped).2.2.2
    have quiet : Quiet s := ⟨stopped, (activeWorkers_eq_zero_iff s).mp none, settled⟩
    have last : Quiet later :=
      path.invariant (P := Quiet) (fun _ _ _ before plain => step_quiet before plain.outside) quiet
    exact ⟨last.verdict, last.inactive⟩

/-- A test of `Plain` for replays. -/
def plainTest (s : State n) (label : Label n) : Bool :=
  (match label with
    | .idle _ ended => ended == s.verdict
    | _ => true) && (!label.outside || !s.autoStop)

theorem plain_of_test {label : Label n} (passed : plainTest s label = true) : Plain s label := by
  obtain ⟨verdict, calls⟩ := Bool.and_eq_true_iff.mp passed
  refine ⟨fun w ended same => ?_, fun outside => ?_⟩
  · subst same
    exact eq_of_beq verdict
  · simpa [outside] using calls

/-- A callback runs to its end, then `stop()` is called. -/
def endsThenStops : List (Label 1) :=
  [.schedule none .callback (-1), .scan 0, .branch 0, .task 0 .proceed, .task 0 .proceed,
   .task 0 .returns, .task 0 .proceed, .task 0 .proceed, .task 0 .proceed, .task 0 .proceed,
   .setAutoStop, .setStopping]

theorem verdict_stable_endsThenStops :
    ∃ s, (machine fun _ : Fin 1 => 1).Reaches Plain s ∧ s.verdict = true ∧
      StaysStopped (fun _ : Fin 1 => 1) s := by
  obtain ⟨s, reached, test⟩ := System.reaches_test (machine fun _ : Fin 1 => 1) Plain plainTest
    (fun _ _ => plain_of_test) (State.initial 1) rfl endsThenStops
    (fun s => s.verdict ∧ (s.worker 0).pc = .scan) (by decide)
  obtain ⟨stopped, scanning⟩ := of_decide_eq_true test
  refine ⟨s, reached, stopped, (verdict_stable_iff (by decide) reached stopped).mpr fun w => ?_⟩
  obtain rfl : w = 0 := Subsingleton.elim _ _
  rintro ⟨_, _, _, ⟨settling, _⟩ | requeuing⟩
  · cases scanning.symm.trans settling
  · cases scanning.symm.trans requeuing

/-- The worker is back from a callback that called `YieldToReady`, and `stop()` has been called. -/
def yieldsUnderStop : List (Label 1) :=
  [.schedule none .callback (-1), .scan 0, .branch 0, .task 0 .proceed, .task 0 .proceed,
   .setAutoStop, .setStopping, .task 0 .yieldToReady, .task 0 .proceed, .task 0 .proceed]

/-- The verdict is true in this state, and later false with the callback running again. -/
theorem verdict_taken_back :
    ∃ s, (machine fun _ : Fin 1 => 1).Reaches Plain s ∧ s.verdict = true ∧
      ∃ later, (machine fun _ : Fin 1 => 1).Path Plain s later ∧ later.verdict = false ∧
        (later.worker 0).pc = .task .exec (.fiber 0) := by
  have run : (((machine fun _ : Fin 1 => 1).replay plainTest (State.initial 1) yieldsUnderStop).any
      fun s => s.verdict && ((machine fun _ : Fin 1 => 1).replay plainTest s
        [.task 0 .proceed, .task 0 .proceed, .scan 0, .branch 0, .task 0 .proceed, .task 0 .proceed]).any
        fun later => later.verdict == false && (later.worker 0).pc == .task .exec (.fiber 0)) = true := by
    decide
  obtain ⟨s, replayed, test⟩ := (Option.any_eq_true _ _).mp run
  obtain ⟨stopped, rest⟩ := Bool.and_eq_true_iff.mp test
  obtain ⟨later, continued, ended⟩ := (Option.any_eq_true _ _).mp rest
  obtain ⟨lost, executing⟩ := Bool.and_eq_true_iff.mp ended
  exact ⟨s, System.reaches_of_replay (fun _ _ => plain_of_test) rfl replayed, stopped, later,
    System.path_of_replay (fun _ _ => plain_of_test) .here continued, eq_of_beq lost, eq_of_beq executing⟩

end HpsSf.Scheduler
