import HpsSf.Scheduler.Places

/-! Fibers whose body has ended, and entries that still name them.

The guard of `run` lets a finished fiber through, so an entry that outlives the
body of its fiber leads behind the last `swapOut` of `MainFunc`. No run gets
there if each body ends with no other place of its fiber left and no ended
fiber is scheduled again.
-/

set_option autoImplicit false

namespace HpsSf.Scheduler
open Foundation

variable {n : Nat} {tid : Fin n → Int} {s next : State n}

def State.over (s : State n) (f : FiberId) : Bool := (s.heap f).state.over

/-- No finished fiber is taken from the queue or entered, the assertion behind the
last `swapOut` is out of reach, and the active count is that of the workers. -/
structure EndSafe (s : State n) : Prop where
  taken : ∀ w f thread, (s.worker w).pc = .branch (some ⟨.fiber f, thread⟩) → s.over f = false
  entered : ∀ w f, StageOn s w f .enter → s.over f = false
  unreached : ∀ w f, StageOn s w f .switch → (s.heap f).context ≠ .ended
  count : s.activeThreadCount = activeWorkers s

/-- A body ends only when its worker is the one place of the fiber, and no fiber
that has ended is scheduled. -/
structure EndsAlone (s : State n) (label : Label n) : Prop where
  ending : ∀ w f, label = .task w .returns ∨ label = .task w .throws →
    StageOn s w f .exec → places f s ≤ 1
  waking : ∀ f, 0 < label.wakes f → s.over f = false

/-- The stages from which the fiber may still be entered, or its state be made another. -/
def Stage.live : Stage → Bool
  | .enter | .switch | .exec | .leave false | .requeue | .hold => true
  | .leave true | .back | .settle | .recycle => false

def Worker.Live (worker : Worker) (f : FiberId) : Prop :=
  (∃ thread, worker.pc = .branch (some ⟨.fiber f, thread⟩)) ∨
    ∃ stage, stage.live = true ∧ worker.On f stage

theorem Worker.Live.refs_pos {worker : Worker} {f : FiberId} (live : worker.Live f) :
    0 < worker.refs f := by
  obtain ⟨thread, branching⟩ | ⟨stage, _, on⟩ := live
  · simp [Worker.refs, branching, Pc.refs]
  · exact on.refs_pos

/-- Program points at which the worker has no fiber at hand. -/
def Pc.bare : Pc → Bool
  | .task _ _ | .branch (some ⟨.fiber _, _⟩) => false
  | .scan | .branch none | .branch (some ⟨.cb _, _⟩) | .idle | .exited => true

theorem Worker.not_on_of_bare {worker : Worker} (bare : worker.pc.bare = true) (f : FiberId)
    (stage : Stage) : ¬ worker.On f stage := by
  rintro ⟨_, running, _⟩
  rw [running] at bare
  cases bare

theorem Worker.not_live_of_bare {worker : Worker} (bare : worker.pc.bare = true) (f : FiberId) :
    ¬ worker.Live f := by
  rintro (⟨_, branching⟩ | ⟨stage, _, on⟩)
  · rw [branching] at bare
    cases bare
  · exact worker.not_on_of_bare bare f stage on

/-- What an ended fiber may still be part of: the loop body of the worker that ran it. -/
structure EndsClean (s : State n) : Prop where
  context : ∀ f, (s.heap f).context = .ended → s.over f = true
  leaving : ∀ w f, StageOn s w f (.leave true) → s.over f = true
  single : ∀ f, s.over f = true → places f s ≤ 1
  unqueued : ∀ f, s.over f = true → queued f s.fibers = 0
  dead : ∀ w f, s.over f = true → ¬ (s.worker w).Live f

theorem EndsClean.safe (clean : EndsClean s) (count : s.activeThreadCount = activeWorkers s) :
    EndSafe s where
  taken w f thread branching := Bool.eq_false_iff.mpr fun ended =>
    clean.dead w f ended (.inl ⟨thread, branching⟩)
  entered w f on := Bool.eq_false_iff.mpr fun ended =>
    clean.dead w f ended (.inr ⟨.enter, rfl, on⟩)
  unreached w f on gone := clean.dead w f (clean.context f gone) (.inr ⟨.switch, rfl, on⟩)
  count := count

theorem endsClean_initial : EndsClean (State.initial n) where
  context f gone := by cases gone
  leaving w f on := by
    obtain ⟨_, running, _⟩ := on
    cases running
  single f ended := by cases ended
  unqueued f ended := by cases ended
  dead w f ended := by cases ended

/-- A step that leaves every fiber record alone and moves one worker. -/
theorem EndsClean.move (clean : EndsClean s) (w : Fin n) (self : Worker)
    (worker : next.worker = Function.update s.worker w self) (heap : next.heap = s.heap)
    (bound : ∀ f, s.over f = true → places f next ≤ places f s)
    (queue : ∀ f, queued f next.fibers ≤ queued f s.fibers)
    (leaving : ∀ f, self.On f (.leave true) → s.over f = true)
    (dead : ∀ f, s.over f = true → ¬ self.Live f) : EndsClean next := by
  have kept (f : FiberId) : next.over f = s.over f := by rw [State.over, heap, State.over]
  refine ⟨fun f gone => ?_, fun other f on => ?_, fun f ended => ?_, fun f ended => ?_,
    fun other f ended live => ?_⟩
  · rw [kept]
    exact clean.context f (by rwa [heap] at gone)
  · rw [kept]
    rcases eq_or_ne other w with rfl | distinct
    · exact leaving f (by rwa [StageOn, worker, Function.update_self] at on)
    · exact clean.leaving other f (by rwa [StageOn, worker, Function.update_of_ne distinct] at on)
  · rw [kept] at ended
    exact Nat.le_trans (bound f ended) (clean.single f ended)
  · exact Nat.le_zero.mp (clean.unqueued f (by rwa [kept] at ended) ▸ queue f)
  · rw [kept] at ended
    rcases eq_or_ne other w with rfl | distinct
    · exact dead f ended (by rwa [worker, Function.update_self] at live)
    · exact clean.dead other f ended (by rwa [worker, Function.update_of_ne distinct] at live)

/-- The worker goes on to where it has no fiber. -/
theorem EndsClean.aside (clean : EndsClean s) (w : Fin n) (self : Worker)
    (worker : next.worker = Function.update s.worker w self) (heap : next.heap = s.heap)
    (bound : ∀ f, s.over f = true → places f next ≤ places f s) (fibers : next.fibers = s.fibers)
    (bare : self.pc.bare = true) : EndsClean next := by
  refine clean.move w self worker heap bound (fun f => ?_) (fun f on => ?_) fun f _ => Worker.not_live_of_bare bare f
  · rw [fibers]
  · exact absurd on (Worker.not_on_of_bare bare f _)

/-- A step of a worker that writes the record of a fiber it holds. -/
theorem EndsClean.write (clean : EndsClean s) (w : Fin n) (self : Worker) (g : FiberId) (fiber : Fiber)
    (worker : next.worker = Function.update s.worker w self)
    (heap : next.heap = Function.update s.heap g fiber)
    (owner : 0 < (s.worker w).refs g)
    (bound : ∀ f, places f next ≤ places f s)
    (queue : ∀ f, f ≠ g ∨ fiber.state.over = true → queued f next.fibers ≤ queued f s.fibers)
    (alone : fiber.state.over = true → places g s ≤ 1)
    (context : fiber.context = .ended → fiber.state.over = true)
    (leaving : self.On g (.leave true) → fiber.state.over = true)
    (dead : fiber.state.over = true → ¬ self.Live g)
    (elsewhere : ∀ f, f ≠ g → ¬ self.On f (.leave true) ∧ ¬ self.Live f) : EndsClean next := by
  have here : next.over g = fiber.state.over := by rw [State.over, heap, Function.update_self]
  have kept {f : FiberId} (other : f ≠ g) : next.over f = s.over f := by
    rw [State.over, heap, Function.update_of_ne other, State.over]
  refine ⟨fun f gone => ?_, fun other f on => ?_, fun f ended => ?_, fun f ended => ?_,
    fun other f ended live => ?_⟩
  · rcases eq_or_ne f g with rfl | different
    · exact here.trans (context (by rwa [heap, Function.update_self] at gone))
    · rw [kept different]
      exact clean.context f (by rwa [heap, Function.update_of_ne different] at gone)
  · rcases eq_or_ne other w with rfl | distinct
    · rw [StageOn, worker, Function.update_self] at on
      rcases eq_or_ne f g with rfl | different
      · exact here.trans (leaving on)
      · exact absurd on (elsewhere f different).1
    · rw [StageOn, worker, Function.update_of_ne distinct] at on
      rcases eq_or_ne f g with rfl | different
      · -- the other worker would be a second place of an ended fiber
        have ended := clean.leaving other f on
        have absent := refs_exclusive (clean.single f ended) distinct.symm owner
        exact absurd on.refs_pos (by omega)
      · rw [kept different]
        exact clean.leaving other f on
  · rcases eq_or_ne f g with rfl | different
    · exact Nat.le_trans (bound f) (alone (here.symm.trans ended))
    · exact Nat.le_trans (bound f) (clean.single f (by rwa [kept different] at ended))
  · rcases eq_or_ne f g with rfl | different
    · have last := here.symm.trans ended
      have empty := queued_exclusive (alone last) owner
      exact Nat.le_zero.mp (empty ▸ queue f (.inr last))
    · exact Nat.le_zero.mp (clean.unqueued f (by rwa [kept different] at ended) ▸ queue f (.inl different))
  · rcases eq_or_ne other w with rfl | distinct
    · rw [worker, Function.update_self] at live
      rcases eq_or_ne f g with rfl | different
      · exact dead (here.symm.trans ended) live
      · exact (elsewhere f different).2 live
    · rw [worker, Function.update_of_ne distinct] at live
      rcases eq_or_ne f g with rfl | different
      · have absent := refs_exclusive (alone (here.symm.trans ended)) distinct.symm owner
        exact absurd live.refs_pos (by omega)
      · exact clean.dead other f (by rwa [kept different] at ended) live

/-- A step that adds entries only for fibers that have not ended. -/
theorem EndsClean.enqueue (clean : EndsClean s) (worker : next.worker = s.worker)
    (heap : next.heap = s.heap)
    (bound : ∀ f, s.over f = true → places f next ≤ places f s) : EndsClean next := by
  have kept (f : FiberId) : next.over f = s.over f := by rw [State.over, heap, State.over]
  refine ⟨fun f gone => ?_, fun w f on => ?_, fun f ended => ?_, fun f ended => ?_,
    fun w f ended live => ?_⟩
  · rw [kept]
    exact clean.context f (by rwa [heap] at gone)
  · rw [kept]
    exact clean.leaving w f (by rwa [StageOn, worker] at on)
  · rw [kept] at ended
    exact Nat.le_trans (bound f ended) (clean.single f ended)
  · rw [kept] at ended
    have fewer := bound f ended
    have same : held f next = held f s := by rw [held, worker, held]
    rw [places, places, same, clean.unqueued f ended] at fewer
    omega
  · rw [kept] at ended
    exact clean.dead w f ended (by rwa [worker] at live)

/-- What one step of a worker does to the end of the body of its fiber. -/
theorem advance_endings {fiber : Fiber} {branch : Branch} {stage : Stage} {act : Act} {effect : Effect}
    (advanced : advance fiber branch stage act = some effect)
    (live : stage.live = true → fiber.state.over = false)
    (leaving : stage = .leave true → fiber.state.over = true)
    (context : fiber.context = .ended → fiber.state.over = true) :
    (effect.fiber.context = .ended → effect.fiber.state.over = true) ∧
      (∀ later, effect.pc = .task later branch →
        (later = .leave true → effect.fiber.state.over = true) ∧
        (effect.fiber.state.over = true → later.live = false)) ∧
      (effect.requeues = true → effect.fiber.state.over = false) ∧
      (effect.fiber.state.over = true →
        fiber.state.over = true ∨ stage = .exec ∧ (act = .returns ∨ act = .throws)) := by
  obtain ⟨state, saved, cb, pooled⟩ := fiber
  cases stage <;> cases act <;> simp only [advance, reduceCtorEq] at advanced
  case recycle.proceed =>
    obtain ⟨after, recycled, rfl⟩ := Option.map_eq_some_iff.mp advanced
    obtain ⟨_, rfl⟩ := Fiber.reset_eq_some recycled
    exact ⟨by simp, by simp, by simp, by simp [Fiber.State.over]⟩
  all_goals grind [Fiber.State.over, Stage.live]

/-- The record of a fiber that nobody refers to yet may be anything that has not ended. -/
theorem EndsClean.construct (clean : EndsClean s) (known : Known s) (fiber : Fiber)
    (fresh : fiber.context ≠ .ended ∧ fiber.state.over = false) :
    EndsClean { s.setFiber s.nextFiber fiber with nextFiber := s.nextFiber + 1 } := by
  have nobody (w : Fin n) : (s.worker w).refs s.nextFiber = 0 := by
    have total := known s.nextFiber (Nat.le_refl _)
    have one := reading_le_tally (fun w => (s.worker w).refs s.nextFiber) w
    rw [places, held] at total
    omega
  have apart {f : FiberId} (ended :
      ({ s.setFiber s.nextFiber fiber with nextFiber := s.nextFiber + 1 } : State n).over f = true) :
      f ≠ s.nextFiber := by
    rintro rfl
    simp [State.over, State.setFiber, fresh.2] at ended
  refine ⟨fun f gone => ?_, fun w f on => ?_, fun f ended => ?_, fun f ended => ?_,
    fun w f ended => ?_⟩
  · rcases eq_or_ne f s.nextFiber with rfl | other
    · exact absurd gone (by simpa [State.setFiber] using fresh.1)
    · simpa [State.over, State.setFiber, other] using
        clean.context f (by simpa [State.setFiber, other] using gone)
  · have other : f ≠ s.nextFiber := by
      rintro rfl
      have present := on.refs_pos
      exact absurd (nobody w) (Nat.pos_iff_ne_zero.mp present)
    simpa [State.over, State.setFiber, other] using clean.leaving w f on
  · have other := apart ended
    exact clean.single f (by simpa [State.over, State.setFiber, other] using ended)
  · have other := apart ended
    exact clean.unqueued f (by simpa [State.over, State.setFiber, other] using ended)
  · have other := apart ended
    exact clean.dead w f (by simpa [State.over, State.setFiber, other] using ended)

/-- A worker turns to a task: to a fiber in the queue, to the one that it keeps, or to a new one. -/
theorem branch_endsClean {w : Fin n} (clean : EndsClean s) (known : Known s)
    (stepped : step tid s (.branch w) = some next) : EndsClean next := by
  have bound (f : FiberId) := step_places_unnamed (f := f) stepped rfl
  obtain ⟨g, thread, branching, rfl⟩ | ⟨c, thread, g, branching, owned, able, rfl⟩ |
    ⟨c, thread, branching, unowned, rfl⟩ | ⟨branching, ⟨rfl, _⟩ | ⟨rfl, _⟩⟩ := step_branch stepped
  · refine clean.move w _ rfl rfl (fun f _ => bound f (.inr rfl)) (fun f => Nat.le_refl _)
      (fun f on => ?_) fun f ended live => ?_
    · obtain ⟨_, running, _⟩ := on
      cases running
    · obtain ⟨_, other⟩ | ⟨_, _, _, running, owned⟩ := live
      · cases other
      · cases running
        cases owned
        exact clean.dead w _ ended (.inl ⟨thread, branching⟩)
  · have owner : 0 < (s.worker w).refs g := by simp [Worker.refs, owned]
    have only {f : FiberId} {stage : Stage} (on : Worker.On
        { s.worker w with pc := .task .enter .callback } f stage) : f = g := by
      obtain ⟨_, running, holds⟩ := on
      cases running
      exact Option.some.inj (Eq.trans (Eq.symm holds) owned)
    refine clean.write w _ g ⟨.init, .fresh, some c, (s.heap g).pooled⟩ rfl rfl owner
      (fun f => bound f (.inr rfl)) (fun f _ => Nat.le_refl _) (by simp [Fiber.State.over]) (by simp) (fun on => ?_)
      (by simp [Fiber.State.over])
      fun f different => ⟨fun on => different (only on), fun live => ?_⟩
    · obtain ⟨_, running, _⟩ := on
      cases running
    · obtain ⟨_, other⟩ | ⟨_, _, on⟩ := live
      · cases other
      · exact different (only on)
  · have built := clean.construct known (Fiber.create (some c) true) ⟨by simp [Fiber.create], rfl⟩
    have fresh : ({ s.setFiber s.nextFiber (Fiber.create (some c) true) with
        nextFiber := s.nextFiber + 1 } : State n).over s.nextFiber = false := by
      simp [State.over, State.setFiber, Fiber.create, Fiber.State.over]
    have only {f : FiberId} {stage : Stage} (on : Worker.On { s.worker w with
        pc := .task .enter .callback, cbFiber := some s.nextFiber } f stage) :
        f = s.nextFiber ∧ stage = .enter := by
      obtain ⟨_, running, holds⟩ := on
      cases running
      exact ⟨(Option.some.inj holds).symm, rfl⟩
    refine built.move w _ rfl rfl (fun f ended => ?_) (fun f => Nat.le_refl _) (fun f on => ?_)
      fun f ended live => ?_
    · exact bound f (.inl fun same => by rw [same, fresh] at ended; cases ended)
    · cases (only on).2
    · obtain ⟨_, other⟩ | ⟨_, _, on⟩ := live
      · cases other
      · rw [(only on).1, fresh] at ended
        cases ended
  all_goals
    exact clean.aside w _ rfl rfl (fun f _ => bound f (.inr rfl)) rfl rfl

theorem task_endsClean {w : Fin n} {act : Act} (clean : EndsClean s) (alone : EndsAlone s (.task w act))
    (stepped : step tid s (.task w act) = some next) : EndsClean next := by
  have bound (f : FiberId) := step_places_unnamed (f := f) stepped rfl
  obtain ⟨stage, branch, g, effect, running, owned, advanced, rfl⟩ := step_task stepped
  have on : StageOn s w g stage := ⟨branch, running, owned⟩
  obtain ⟨context, later, requeue, ending⟩ := advance_endings advanced
    (fun live => Bool.eq_false_iff.mpr fun ended => clean.dead w g ended (.inr ⟨stage, live, on⟩))
    (fun last => clean.leaving w g (last ▸ on)) (clean.context g)
  refine clean.write w _ g effect.fiber rfl rfl on.refs_pos (fun f => bound f (.inr rfl))
    (fun f quiet => ?_) (fun ended => ?_) context (fun leaving => ?_) (fun ended live => ?_)
    (fun f different => ⟨fun leaving => ?_, fun live => ?_⟩)
  · cases requeues : effect.requeues with
    | false => simp [State.apply, requeues]
    | true =>
      have different : f ≠ g := quiet.resolve_right (by simp [requeue requeues])
      simp [State.apply, scheduleNoLock, requeues, different.symm]
  · rcases ending ended with before | ⟨rfl, acts⟩
    · exact clean.single g before
    · exact alone.ending w g (by rcases acts with rfl | rfl <;> simp) on
  · exact (later _ (after_on owned advanced leaving).2).1 rfl
  · obtain ⟨_, branching⟩ | ⟨stage', alive, on'⟩ := live
    · rcases advance_pc advanced with ⟨_, same, _⟩ | ⟨same, _⟩ <;>
        cases same.symm.trans branching
    · rw [(later _ (after_on owned advanced on').2).2 ended] at alive
      cases alive
  · exact different (after_on owned advanced leaving).1
  · obtain ⟨_, branching⟩ | ⟨_, _, on'⟩ := live
    · rcases advance_pc advanced with ⟨_, same, _⟩ | ⟨same, _⟩ <;>
        cases same.symm.trans branching
    · exact different (after_on owned advanced on').1

theorem step_endsClean {label : Label n} (clean : EndsClean s) (known : Known s)
    (alone : EndsAlone s label) (stepped : step tid s label = some next) : EndsClean next := by
  have unnamed (f : FiberId) (ended : s.over f = true) : label.wakes f = 0 := by
    by_contra named
    rw [alone.waking f (Nat.pos_of_ne_zero named)] at ended
    cases ended
  cases label with
  | schedule caller fc thread =>
    obtain ⟨_, _, rfl⟩ := step_schedule stepped
    exact clean.enqueue (accept_worker _ _ _) (accept_heap _ _ _) fun f ended => by
      rw [places_accept, show fc.wakes f = 0 from unnamed f ended]
      exact Nat.le_refl _
  | scheduleAll caller fcs =>
    obtain ⟨_, _, rfl⟩ := step_scheduleAll stepped
    exact clean.enqueue (acceptAll_worker _ _) (acceptAll_heap _ _) fun f ended => by
      rw [places_acceptAll, show (fcs.map (Call.wakes f)).sum = 0 from unnamed f ended]
      exact Nat.le_refl _
  | newFiber caller =>
    cases step_newFiber stepped
    exact clean.construct known _ ⟨by simp [Fiber.create], rfl⟩
  | setAutoStop =>
    cases stepped
    exact clean.enqueue rfl rfl fun _ _ => Nat.le_refl _
  | setStopping =>
    cases stepped
    exact clean.enqueue rfl rfl fun _ _ => Nat.le_refl _
  | scan w =>
    have bound (f : FiberId) := step_places_unnamed (f := f) stepped rfl
    obtain ⟨scanning, ⟨ft, left, picked, rfl⟩ | ⟨_, rfl⟩⟩ := step_scan stepped
    · refine clean.move w _ rfl rfl (fun f _ => bound f (.inr rfl)) (fun f => ?_) (fun f on => ?_)
        fun f ended live => ?_
      · exact (queued_pick picked f).symm ▸ Nat.le_add_left _ _
      · obtain ⟨_, running, _⟩ := on
        cases running
      · obtain ⟨thread, branching⟩ | ⟨_, _, _, running, _⟩ := live
        · cases branching
          have moved := queued_pick picked f
          rw [clean.unqueued f ended, if_pos rfl] at moved
          omega
        · cases running
    · exact clean.aside w _ rfl rfl (fun f _ => bound f (.inr rfl)) rfl rfl
  | branch w => exact branch_endsClean clean known stepped
  | task w act => exact task_endsClean clean alone stepped
  | idle w ended =>
    have bound (f : FiberId) := step_places_unnamed (f := f) stepped rfl
    obtain ⟨idling, rfl⟩ := step_idle stepped
    exact clean.aside w _ rfl rfl (fun f _ => bound f (.inr rfl)) rfl rfl

theorem endsClean_of_reaches (reached : (machine tid).Reaches EndsAlone s) :
    EndsClean s ∧ Known s :=
  machine_invariant (P := fun s => EndsClean s ∧ Known s)
    ⟨endsClean_initial, fun f _ => places_initial f⟩
    (fun _ _ _ ⟨clean, known⟩ alone stepped =>
      ⟨step_endsClean clean known alone stepped, step_known known stepped⟩) reached

/-- When every body ends as the only place of its fiber and no ended fiber is
scheduled, no run enters a finished fiber. -/
theorem end_safe (small : n < 2 ^ 64) (reached : (machine tid).Reaches EndsAlone s) : EndSafe s :=
  (endsClean_of_reaches reached).1.safe (active_count small reached)

/-- A sufficient test of `EndsAlone` for replays. -/
def endsAloneTest (s : State n) : Label n → Bool
  | .task w .returns | .task w .throws =>
      match (s.worker w).pc with
      | .task _ branch => ((s.worker w).fiberOf branch).all fun f => places f s ≤ 1
      | _ => false
  | .schedule _ (.fiber f) _ => !s.over f
  | .scheduleAll _ fcs => fcs.all fun fc => fc == .callback
  | _ => true

theorem endsAlone_of_test {label : Label n} (passed : endsAloneTest s label = true) :
    EndsAlone s label := by
  refine ⟨?_, fun f named => ?_⟩
  · rintro w f (rfl | rfl) ⟨branch, running, owned⟩ <;>
      simpa [endsAloneTest, running, owned] using passed
  · cases label with
    | schedule caller fc thread =>
      cases fc with
      | fiber g =>
        have same : g = f := by
          by_contra different
          simp [Label.wakes, Call.wakes, different] at named
        simpa [endsAloneTest, same] using passed
      | callback => cases named
      | empty => cases named
    | scheduleAll caller fcs =>
      rw [Label.wakes, wakes_of_callbacks f passed] at named
      cases named
    | _ => cases named

/-- A fiber that is scheduled, yields, is rescheduled by its worker and ends. -/
def yieldsThenEnds : List (Label 1) :=
  [.newFiber none, .schedule none (.fiber 0) (-1), .scan 0, .branch 0, .task 0 .proceed,
   .task 0 .proceed, .task 0 .yieldToReady, .task 0 .proceed, .task 0 .proceed, .task 0 .proceed,
   .task 0 .proceed, .scan 0, .branch 0, .task 0 .proceed, .task 0 .proceed, .task 0 .returns,
   .task 0 .proceed, .task 0 .proceed, .task 0 .proceed]

theorem end_safe_yieldsThenEnds :
    ∃ s, (machine fun _ : Fin 1 => 1).Reaches EndsAlone s ∧ s.over 0 = true ∧ EndSafe s := by
  obtain ⟨s, reached, ended⟩ := System.reaches_test (machine fun _ : Fin 1 => 1) EndsAlone
    endsAloneTest (fun _ _ => endsAlone_of_test) (State.initial 1) rfl yieldsThenEnds
    (fun s => s.over 0) (by decide)
  exact ⟨s, reached, ended, end_safe (by decide) reached⟩

/-- One fiber scheduled twice: the second entry is taken after the body has returned. -/
def scheduledTwice : List (Label 1) :=
  [.newFiber none, .schedule none (.fiber 0) (-1), .schedule none (.fiber 0) (-1), .scan 0,
   .branch 0, .task 0 .proceed, .task 0 .proceed, .task 0 .returns, .task 0 .proceed,
   .task 0 .proceed, .task 0 .proceed, .scan 0, .branch 0]

/-- `swapIn` is called on a fiber in state TERM, and its next step is behind the
last `swapOut` of `MainFunc`. -/
theorem finished_fiber_entered :
    (∃ s, (machine fun _ : Fin 1 => 1).Reaches (fun _ _ => True) s ∧
      StageOn s 0 0 .enter ∧ (s.heap 0).state = .term ∧ ¬ EndSafe s) ∧
    ∃ s, (machine fun _ : Fin 1 => 1).Reaches (fun _ _ => True) s ∧
      StageOn s 0 0 .switch ∧ (s.heap 0).context = .ended ∧ ¬ EndSafe s := by
  constructor
  · obtain ⟨s, reached, test⟩ := System.reaches_test (machine fun _ : Fin 1 => 1) (fun _ _ => True)
      (fun _ _ => true) (fun _ _ _ => trivial) (State.initial 1) rfl scheduledTwice
      (fun s => (s.worker 0).pc = .task .enter (.fiber 0) ∧ (s.heap 0).state = .term) (by decide)
    obtain ⟨entering, ended⟩ := of_decide_eq_true test
    have on : StageOn s 0 0 .enter := ⟨_, entering, rfl⟩
    refine ⟨s, reached, on, ended, fun safe => ?_⟩
    have live := safe.entered 0 0 on
    rw [State.over, ended] at live
    cases live
  · obtain ⟨s, reached, test⟩ := System.reaches_test (machine fun _ : Fin 1 => 1) (fun _ _ => True)
      (fun _ _ => true) (fun _ _ _ => trivial) (State.initial 1) rfl
      (scheduledTwice ++ [.task 0 .proceed])
      (fun s => (s.worker 0).pc = .task .switch (.fiber 0) ∧ (s.heap 0).context = .ended) (by decide)
    obtain ⟨switching, ended⟩ := of_decide_eq_true test
    have on : StageOn s 0 0 .switch := ⟨_, switching, rfl⟩
    exact ⟨s, reached, on, ended, fun safe => safe.unreached 0 0 on ended⟩

end HpsSf.Scheduler
