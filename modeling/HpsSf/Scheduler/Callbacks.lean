import HpsSf.Scheduler.Places

/-! The fibers that run callbacks, when tasks suspend themselves by `YieldToReady` only.

The fiber of a callback has one place at any time: the worker that runs it, or
the queue entry its worker made for it. Where it is determines its state, so a
recycled `cb_fiber` is always ready for the next callback.
-/

set_option autoImplicit false

namespace HpsSf

namespace Fiber

/-- Suspended by `YieldToReady` in the middle of a callback. -/
def Parked (fiber : Fiber) : Prop :=
  fiber.state = .ready ∧ fiber.context = .suspended ∧ fiber.cb.isSome = true

/-- Kept by a worker for its next callback. -/
def Spare (fiber : Fiber) : Prop := fiber.state = .init ∧ fiber.cb = none

/-- The same record, or twice a fiber of user code, which runs no callback. -/
def Alike (before after : Fiber) : Prop :=
  after = before ∨
    (before.pooled = false ∧ before.cb = none) ∧ after.pooled = false ∧ after.cb = none

theorem Alike.pooled {before after : Fiber} (alike : before.Alike after) :
    after.pooled = before.pooled := by
  rcases alike with rfl | ⟨⟨first, _⟩, second, _⟩
  · rfl
  · rw [first, second]

theorem Alike.of_pooled {before after : Fiber} (alike : before.Alike after)
    (pooled : before.pooled = true) : after = before := by
  rcases alike with same | ⟨⟨user, _⟩, _⟩
  · exact same
  · rw [pooled] at user
    cases user

end Fiber

namespace Scheduler
open Foundation

variable {n : Nat} {tid : Fin n → Int} {s next : State n}

/-- Tasks yield READY, return or throw. The fiber that runs a callback is known
only to its worker and to its own body, so it is in no schedule call. -/
structure YieldsOnly (s : State n) (label : Label n) : Prop where
  suspends : ∀ w, label ≠ .task w .yieldToHold
  wakes : ∀ f, 0 < label.wakes f → (s.heap f).pooled = false

/-- The context with which a branch enters the fiber of a callback. -/
def Branch.entry : Branch → Fiber.Context
  | .fiber _ => .suspended
  | .callback => .fresh

/-- The record of the fiber of a callback while its worker is at this stage. -/
def Stage.Fits (branch : Branch) (fiber : Fiber) : Stage → Prop
  | .enter => (fiber.state = .init ∨ fiber.state = .ready) ∧ fiber.context = branch.entry ∧
      fiber.cb.isSome = true
  | .switch => fiber.state = .exec ∧ fiber.context = branch.entry ∧ fiber.cb.isSome = true
  | .exec => fiber.state = .exec ∧ fiber.cb.isSome = true
  | .leave false => fiber.state = .ready ∧ fiber.cb.isSome = true
  | .leave true | .recycle => fiber.state.over = true
  | .back | .settle => fiber.Parked ∨ fiber.state.over = true
  | .requeue => fiber.Parked
  | .hold => False

structure Worker.Sound (heap : FiberId → Fiber) (worker : Worker) : Prop where
  owner : ∀ f, worker.cbFiber = some f → (heap f).pooled = true
  taken : ∀ f thread, worker.pc = .branch (some ⟨.fiber f, thread⟩) → (heap f).pooled = true →
    (heap f).Parked
  fits : ∀ stage branch f, worker.pc = .task stage branch → worker.fiberOf branch = some f →
    (heap f).pooled = true → stage.Fits branch (heap f)
  spare : ∀ f, worker.cbFiber = some f → (∀ stage, worker.pc ≠ .task stage .callback) →
    (heap f).Spare

structure Ledger (s : State n) : Prop where
  user : ∀ f, (s.heap f).pooled = false → (s.heap f).cb = none
  single : ∀ f, (s.heap f).pooled = true → places f s ≤ 1
  sound : ∀ w, (s.worker w).Sound s.heap
  parked : ∀ f, (s.heap f).pooled = true → 0 < queued f s.fibers → (s.heap f).Parked

theorem ledger_initial : Ledger (State.initial n) where
  user _ _ := rfl
  single _ pooled := by cases pooled
  sound _ := ⟨nofun, nofun, nofun, nofun⟩
  parked _ pooled := by cases pooled

/-- The fiber has a place that is not with this worker. -/
def Elsewhere (s : State n) (w : Fin n) (f : FiberId) : Prop :=
  0 < queued f s.fibers ∨ ∃ other, other ≠ w ∧ 0 < (s.worker other).refs f

theorem Ledger.not_elsewhere (ledger : Ledger s) {w : Fin n} {f : FiberId}
    (pooled : (s.heap f).pooled = true) (owner : 0 < (s.worker w).refs f) : ¬ Elsewhere s w f := by
  rintro (entry | ⟨other, distinct, present⟩)
  · exact absurd (queued_exclusive (ledger.single f pooled) owner) (Nat.pos_iff_ne_zero.mp entry)
  · exact absurd (refs_exclusive (ledger.single f pooled) distinct.symm owner)
      (Nat.pos_iff_ne_zero.mp present)

theorem Known.not_elsewhere (known : Known s) {w : Fin n} {f : FiberId} (unknown : s.nextFiber ≤ f) :
    ¬ Elsewhere s w f := by
  have total := known f unknown
  rw [places, held] at total
  rintro (entry | ⟨other, _, present⟩)
  · omega
  · have one := reading_le_tally (fun w => (s.worker w).refs f) other
    omega

/-- One worker takes a step; fibers with a place elsewhere keep their records. -/
structure Turn (s next : State n) (w : Fin n) (own : Worker) : Prop where
  worker : next.worker = Function.update s.worker w own
  frame : ∀ f, Elsewhere s w f → (s.heap f).Alike (next.heap f)

theorem Worker.Sound.of_alike {heap after : FiberId → Fiber} {worker : Worker} (sound : worker.Sound heap)
    (alike : ∀ f, 0 < worker.refs f → (heap f).Alike (after f)) : worker.Sound after where
  owner f owned := by
    rw [(alike f (by simp [Worker.refs, owned])).pooled]
    exact sound.owner f owned
  taken f _ branching pooled := by
    have kept := alike f (by simp [Worker.refs, branching, Pc.refs])
    rw [kept.pooled] at pooled
    rw [kept.of_pooled pooled]
    exact sound.taken f _ branching pooled
  fits stage branch f running owned pooled := by
    have on : worker.On f stage := ⟨branch, running, owned⟩
    have kept := alike f on.refs_pos
    rw [kept.pooled] at pooled
    rw [kept.of_pooled pooled]
    exact sound.fits stage branch f running owned pooled
  spare f owned resting := by
    rw [(alike f (by simp [Worker.refs, owned])).of_pooled (sound.owner f owned)]
    exact sound.spare f owned resting

theorem Ledger.turn (ledger : Ledger s) {w : Fin n} {self : Worker} (turn : Turn s next w self)
    (user : ∀ f, (next.heap f).pooled = false → (next.heap f).cb = none)
    (single : ∀ f, (next.heap f).pooled = true → places f next ≤ 1)
    (sound : self.Sound next.heap)
    (parked : ∀ f, (next.heap f).pooled = true → 0 < queued f next.fibers → (next.heap f).Parked) :
    Ledger next where
  user := user
  single := single
  sound other := by
    rw [turn.worker]
    rcases eq_or_ne other w with rfl | distinct
    · rw [Function.update_self]
      exact sound
    · rw [Function.update_of_ne distinct]
      exact (ledger.sound other).of_alike fun f present => turn.frame f (.inr ⟨other, distinct, present⟩)
  parked := parked

/-- A step of a worker that changes no fiber keeps the ledger if the worker and the queue stay sound. -/
theorem Ledger.still (ledger : Ledger s) {w : Fin n} {self : Worker}
    (worker : next.worker = Function.update s.worker w self) (heap : next.heap = s.heap)
    (single : ∀ f, (next.heap f).pooled = true → places f next ≤ 1)
    (sound : self.Sound s.heap) (queue : ∀ f, queued f next.fibers ≤ queued f s.fibers) : Ledger next :=
  ledger.turn ⟨worker, fun f _ => .inl (by rw [heap])⟩ (by rw [heap]; exact ledger.user) single
    (by rw [heap]; exact sound) fun f pooled entry => by
      rw [heap] at pooled ⊢
      exact ledger.parked f pooled (Nat.lt_of_lt_of_le entry (queue f))

/-- A worker at no fiber keeps at most a spare one. -/
theorem Worker.Sound.rest {heap : FiberId → Fiber} {worker : Worker} (sound : worker.Sound heap)
    (pc : Pc) (apart : ∀ stage, worker.pc ≠ .task stage .callback) (ended : Bool)
    (bare : (∀ stage branch, pc ≠ .task stage branch) ∧
      ∀ f thread, pc = .branch (some ⟨.fiber f, thread⟩) → (heap f).pooled = true → (heap f).Parked) :
    Worker.Sound heap ⟨pc, worker.cbFiber, ended⟩ where
  owner := sound.owner
  taken := bare.2
  fits stage branch _ running := absurd running (bare.1 stage branch)
  spare f owned _ := sound.spare f owned apart

/-! ## Work on a fiber -/

/-- A fiber without a callback stays one, and shows in no history. -/
theorem advance_user {fiber : Fiber} {branch : Branch} {stage : Stage} {act : Act} {effect : Effect}
    (advanced : advance fiber branch stage act = some effect) (user : fiber.cb = none) :
    effect.fiber.cb = none ∧ effect.started = none ∧ effect.finished = none := by
  cases stage <;> cases act <;> simp only [advance, reduceCtorEq] at advanced
  case recycle.proceed =>
    obtain ⟨after, recycled, rfl⟩ := Option.map_eq_some_iff.mp advanced
    obtain ⟨_, rfl⟩ := Fiber.reset_eq_some recycled
    exact ⟨rfl, rfl, rfl⟩
  all_goals grind

theorem advance_pooled {fiber : Fiber} {branch : Branch} {stage : Stage} {act : Act} {effect : Effect}
    (advanced : advance fiber branch stage act = some effect) :
    effect.fiber.pooled = fiber.pooled := by
  cases stage <;> cases act <;> simp only [advance, reduceCtorEq] at advanced
  case recycle.proceed =>
    obtain ⟨after, recycled, rfl⟩ := Option.map_eq_some_iff.mp advanced
    obtain ⟨_, rfl⟩ := Fiber.reset_eq_some recycled
    rfl
  all_goals grind

/-- The stages follow each other; at the end the fiber goes back to the queue in
the middle of its callback, or has ended it. -/
theorem advance_fits {fiber : Fiber} {branch : Branch} {stage : Stage} {act : Act} {effect : Effect}
    (advanced : advance fiber branch stage act = some effect) (fits : stage.Fits branch fiber)
    (yields : act ≠ .yieldToHold) :
    (∀ later, effect.pc = .task later branch → later.Fits branch effect.fiber) ∧
      (effect.requeues = true → effect.fiber.Parked) ∧
      (effect.pc = .scan → effect.releases = false → branch = .callback → effect.fiber.Spare) := by
  cases stage <;> cases act <;> simp only [advance, reduceCtorEq] at advanced
  case recycle.proceed =>
    obtain ⟨after, recycled, rfl⟩ := Option.map_eq_some_iff.mp advanced
    obtain ⟨_, rfl⟩ := Fiber.reset_eq_some recycled
    exact ⟨by simp, by simp, fun _ _ _ => ⟨rfl, rfl⟩⟩
  all_goals grind [Stage.Fits, Fiber.Parked, Fiber.State.over]

/-! ## The ledger in a run -/

/-- A step that moves no worker, and changes fibers without a place only. -/
theorem Ledger.calm (ledger : Ledger s) (worker : next.worker = s.worker)
    (frame : ∀ f, 0 < places f s → (s.heap f).Alike (next.heap f))
    (user : ∀ f, (next.heap f).pooled = false → (next.heap f).cb = none)
    (single : ∀ f, (next.heap f).pooled = true → places f next ≤ 1)
    (queue : ∀ f, (next.heap f).pooled = true → queued f next.fibers ≤ queued f s.fibers) :
    Ledger next where
  user := user
  single := single
  sound w := by
    rw [worker]
    exact (ledger.sound w).of_alike fun f present => frame f (places_pos_of_refs present)
  parked f pooled entry := by
    have before := Nat.lt_of_lt_of_le entry (queue f pooled)
    have kept := frame f (Nat.lt_of_lt_of_le before (Nat.le_add_right _ _))
    rw [kept.pooled] at pooled
    rw [kept.of_pooled pooled]
    exact ledger.parked f pooled before

/-- A step that adds no place of a pooled fiber adds no entry of one if it moves no worker. -/
theorem queued_le_of_places {f : FiberId} (worker : next.worker = s.worker)
    (bound : places f next ≤ places f s) : queued f next.fibers ≤ queued f s.fibers := by
  have same : held f next = held f s := by rw [held, worker, held]
  rw [places, places, same] at bound
  omega

theorem turn_task (tid : Fin n → Int) (ledger : Ledger s) {w : Fin n} {branch : Branch} {stage : Stage} {act : Act}
    {g : FiberId} {effect : Effect} (running : (s.worker w).pc = .task stage branch)
    (owned : (s.worker w).fiberOf branch = some g)
    (advanced : advance (s.heap g) branch stage act = some effect) :
    Turn s (s.apply (tid w) w branch g effect) w ((s.worker w).after branch effect) := by
  have on : StageOn s w g stage := ⟨branch, running, owned⟩
  refine ⟨rfl, fun f elsewhere => ?_⟩
  rcases eq_or_ne f g with rfl | other
  · cases pooled : (s.heap f).pooled with
    | true => exact absurd elsewhere (ledger.not_elsewhere pooled on.refs_pos)
    | false =>
      have user := ledger.user f pooled
      refine .inr ⟨⟨pooled, user⟩, ?_⟩
      simp [State.apply, (advance_user advanced user).1, (advance_pooled advanced).trans pooled]
  · exact .inl (Function.update_of_ne other _ _)

theorem ledger_task (ledger : Ledger s) {w : Fin n} {branch : Branch} {stage : Stage} {act : Act}
    {g : FiberId} {effect : Effect} (yields : act ≠ .yieldToHold)
    (running : (s.worker w).pc = .task stage branch) (owned : (s.worker w).fiberOf branch = some g)
    (advanced : advance (s.heap g) branch stage act = some effect)
    (single : ∀ f, ((s.apply (tid w) w branch g effect).heap f).pooled = true →
      places f (s.apply (tid w) w branch g effect) ≤ 1) :
    Ledger (s.apply (tid w) w branch g effect) := by
  have on : StageOn s w g stage := ⟨branch, running, owned⟩
  have sound := ledger.sound w
  have here : (s.apply (tid w) w branch g effect).heap g = effect.fiber := Function.update_self ..
  have away {f : FiberId} (other : f ≠ g) : (s.apply (tid w) w branch g effect).heap f = s.heap f :=
    Function.update_of_ne other _ _
  have flag (f : FiberId) : ((s.apply (tid w) w branch g effect).heap f).pooled = (s.heap f).pooled := by
    rcases eq_or_ne f g with rfl | other
    · rw [here, advance_pooled advanced]
    · rw [away other]
  have fits (pooled : (s.heap g).pooled = true) :=
    advance_fits advanced (sound.fits stage branch g running owned pooled) yields
  have kept {f : FiberId} (spare : ((s.worker w).after branch effect).cbFiber = some f) :
      (s.worker w).cbFiber = some f := by
    simp only [Worker.after] at spare
    split at spare
    · cases spare
    · exact spare
  refine ledger.turn (turn_task tid ledger running owned advanced) (fun f user => ?_) single
    ⟨fun f spare => ?_, fun f thread branching => ?_, fun later other f continues holds pooled => ?_,
      fun f spare resting => ?_⟩ fun f pooled entry => ?_
  · rw [flag] at user
    rcases eq_or_ne f g with rfl | other
    · rw [here]
      exact (advance_user advanced (ledger.user f user)).1
    · rw [away other]
      exact ledger.user f user
  · rw [flag]
    exact sound.owner f (kept spare)
  · rcases advance_pc advanced with ⟨_, same, _⟩ | ⟨same, _⟩ <;> cases same.symm.trans branching
  · obtain ⟨rfl, pc⟩ := after_on owned advanced ⟨other, continues, holds⟩
    have aligned : other = branch := by
      have both := continues.symm.trans pc
      cases both
      rfl
    rw [flag] at pooled
    rw [here, aligned]
    exact (fits pooled).1 later pc
  · have before := kept spare
    have pooled := sound.owner f before
    cases branch with
    | callback =>
      obtain rfl : f = g := Option.some.inj (before.symm.trans owned)
      rcases advance_pc advanced with ⟨later, same, _⟩ | ⟨same, _⟩
      · exact absurd same (resting later)
      · rw [here]
        refine (fits pooled).2.2 same ?_ rfl
        cases releases : effect.releases with
        | false => rfl
        | true => simp [Worker.after, releases] at spare
    | fiber h =>
      obtain rfl : h = g := Option.some.inj owned
      -- the spare fiber of the worker is not the one it has taken
      have other : f ≠ h := by
        rintro rfl
        have twice : 1 < (s.worker w).refs f := by simp [Worker.refs, running, Pc.refs, before]
        have one := reading_le_tally (fun w => (s.worker w).refs f) w
        have most := ledger.single f pooled
        rw [places, held] at most
        omega
      rw [away other]
      exact sound.spare f before fun stage callback => by cases running.symm.trans callback
  · rw [flag] at pooled
    rcases eq_or_ne f g with rfl | other
    · rw [here]
      refine (fits pooled).2.1 ?_
      cases requeues : effect.requeues with
      | true => rfl
      | false =>
        have old : 0 < queued f s.fibers := by simpa [State.apply, requeues] using entry
        exact absurd (.inl old) (ledger.not_elsewhere pooled on.refs_pos)
    · rw [away other]
      refine ledger.parked f pooled ?_
      cases requeues : effect.requeues <;>
        simpa [State.apply, scheduleNoLock, requeues, other.symm] using entry

/-- A step constructs the next fiber, or changes the origin of none. -/
theorem step_pooled {label : Label n} (stepped : step tid s label = some next) (f : FiberId) :
    (next.heap f).pooled = (s.heap f).pooled ∨ f = s.nextFiber := by
  rcases eq_or_ne f s.nextFiber with same | other
  · exact .inr same
  refine .inl ?_
  cases label with
  | schedule caller fc thread =>
    obtain ⟨_, _, rfl⟩ := step_schedule stepped
    rw [accept_heap]
  | scheduleAll caller fcs =>
    obtain ⟨_, _, rfl⟩ := step_scheduleAll stepped
    rw [acceptAll_heap]
  | newFiber caller =>
    cases step_newFiber stepped
    simp [State.setFiber, other]
  | setAutoStop =>
    cases stepped
    rfl
  | setStopping =>
    cases stepped
    rfl
  | scan w => obtain ⟨_, ⟨_, _, _, rfl⟩ | ⟨_, rfl⟩⟩ := step_scan stepped <;> rfl
  | branch w =>
    obtain ⟨_, _, _, rfl⟩ | ⟨_, _, g, _, _, _, rfl⟩ | ⟨_, _, _, _, rfl⟩ |
      ⟨_, ⟨rfl, _⟩ | ⟨rfl, _⟩⟩ := step_branch stepped
    case inr.inl =>
      rcases eq_or_ne f g with rfl | different
      · simp [State.setFiber, State.setWorker]
      · simp [State.setFiber, State.setWorker, different]
    case inr.inr.inl => simp [State.setFiber, State.setWorker, other]
    all_goals rfl
  | task w act =>
    obtain ⟨_, _, g, _, _, _, advanced, rfl⟩ := step_task stepped
    rcases eq_or_ne f g with rfl | different
    · simp [State.apply, advance_pooled advanced]
    · simp [State.apply, different]
  | idle w ended =>
    obtain ⟨_, rfl⟩ := step_idle stepped
    rfl

/-- A pooled fiber keeps its one place: nobody but its worker puts it into the queue. -/
theorem step_single {label : Label n} (ledger : Ledger s) (known : Known s) (yields : YieldsOnly s label)
    (stepped : step tid s label = some next) (f : FiberId) (pooled : (next.heap f).pooled = true) :
    places f next ≤ 1 ∧ (f ≠ s.nextFiber → places f next ≤ places f s) := by
  have bound := step_places stepped f
  rcases eq_or_ne f s.nextFiber with fresh | old
  · rw [known f (Nat.le_of_eq fresh.symm), wakes_unknown stepped (Nat.le_of_eq fresh.symm)] at bound
    refine ⟨?_, fun other => absurd fresh other⟩
    split at bound <;> omega
  · have before : (s.heap f).pooled = true := by
      rw [← (step_pooled stepped f).resolve_right old]
      exact pooled
    have unnamed : label.wakes f = 0 := by
      by_contra named
      have user := yields.wakes f (Nat.pos_of_ne_zero named)
      rw [before] at user
      cases user
    rw [unnamed, if_neg fun fresh => old fresh.1] at bound
    exact ⟨Nat.le_trans bound (ledger.single f before), fun _ => bound⟩

/-- The record of the next fiber may be anything: nobody refers to it. -/
theorem Known.frame_fresh (known : Known s) (fiber : Fiber) {f : FiberId} (present : 0 < places f s) :
    (s.heap f).Alike (Function.update s.heap s.nextFiber fiber f) := by
  refine .inl (Function.update_of_ne ?_ _ _)
  rintro rfl
  rw [known _ (Nat.le_refl _)] at present
  cases present

theorem turn_recycle (ledger : Ledger s) {w : Fin n} {g : FiberId} (owned : (s.worker w).cbFiber = some g)
    (fiber : Fiber) (own : Worker) : Turn s ((s.setFiber g fiber).setWorker w own) w own := by
  refine ⟨rfl, fun f elsewhere => .inl (Function.update_of_ne ?_ _ _)⟩
  rintro rfl
  exact ledger.not_elsewhere ((ledger.sound w).owner f owned) (by simp [Worker.refs, owned]) elsewhere

theorem turn_create (known : Known s) (w : Fin n) (fiber : Fiber) (own : Worker) :
    Turn s { (s.setFiber s.nextFiber fiber).setWorker w own with nextFiber := s.nextFiber + 1 } w own := by
  refine ⟨rfl, fun f elsewhere => .inl (Function.update_of_ne ?_ _ _)⟩
  rintro rfl
  exact known.not_elsewhere (Nat.le_refl _) elsewhere

/-- A call of `schedule` keeps the ledger: the fibers it names run no callback. -/
theorem Ledger.accepts {label : Label n} (ledger : Ledger s) (known : Known s) (yields : YieldsOnly s label)
    (stepped : step tid s label = some next) (worker : next.worker = s.worker) (heap : next.heap = s.heap)
    (nextFiber : next.nextFiber = s.nextFiber) : Ledger next := by
  refine ledger.calm worker (fun f _ => .inl (by rw [heap])) (by rw [heap]; exact ledger.user)
    (fun f pooled => (step_single ledger known yields stepped f pooled).1) fun f pooled => ?_
  rcases Nat.lt_or_ge f s.nextFiber with old | new
  · exact queued_le_of_places worker ((step_single ledger known yields stepped f pooled).2 (Nat.ne_of_lt old))
  · have later := step_known known stepped f (by rwa [nextFiber])
    rw [places] at later
    omega

/-- A worker puts a fresh callback on a fiber that is its own. -/
theorem Ledger.starts (ledger : Ledger s) {w : Fin n} {own : Worker} {g : FiberId} {c : Callback}
    (turn : Turn s next w own) (pc : own.pc = .task .enter .callback) (spare : own.cbFiber = some g)
    (heap : next.heap = Function.update s.heap g ⟨.init, .fresh, some c, true⟩) (fibers : next.fibers = s.fibers)
    (single : ∀ f, (next.heap f).pooled = true → places f next ≤ 1) (unqueued : ¬ 0 < queued g s.fibers) :
    Ledger next := by
  have here : next.heap g = ⟨.init, .fresh, some c, true⟩ := by rw [heap, Function.update_self]
  have away {f : FiberId} (other : f ≠ g) : next.heap f = s.heap f := by rw [heap, Function.update_of_ne other]
  have only {f : FiberId} (owned : own.cbFiber = some f) : f = g := Option.some.inj (owned.symm.trans spare)
  refine ledger.turn turn (fun f user => ?_) single ⟨fun f owned => ?_, fun f thread branching => ?_,
    fun stage branch f running holds _ => ?_, fun f _ resting => absurd pc (resting .enter)⟩ fun f pooled entry => ?_
  · rcases eq_or_ne f g with rfl | other
    · rw [here] at user
      cases user
    · rw [away other] at user ⊢
      exact ledger.user f user
  · rw [only owned, here]
  · cases pc.symm.trans branching
  · cases pc.symm.trans running
    rw [only holds, here]
    exact ⟨.inl rfl, rfl, rfl⟩
  · have other : f ≠ g := by
      rintro rfl
      exact unqueued (fibers ▸ entry)
    rw [away other] at pooled ⊢
    exact ledger.parked f pooled (fibers ▸ entry)

theorem step_ledger {label : Label n} (ledger : Ledger s) (known : Known s) (yields : YieldsOnly s label)
    (stepped : step tid s label = some next) : Ledger next := by
  have single (f : FiberId) (pooled : (next.heap f).pooled = true) :=
    (step_single ledger known yields stepped f pooled).1
  cases label with
  | schedule caller fc thread =>
    obtain ⟨_, _, rfl⟩ := step_schedule stepped
    exact ledger.accepts known yields stepped (accept_worker _ _ _) (accept_heap _ _ _) (accept_nextFiber _ _ _)
  | scheduleAll caller fcs =>
    obtain ⟨_, _, rfl⟩ := step_scheduleAll stepped
    exact ledger.accepts known yields stepped (acceptAll_worker _ _) (acceptAll_heap _ _) (acceptAll_nextFiber _ _)
  | newFiber caller =>
    cases step_newFiber stepped
    refine ledger.calm rfl (fun f => known.frame_fresh _) (fun f user => ?_) single fun f _ => Nat.le_refl _
    rcases eq_or_ne f s.nextFiber with rfl | other
    · simp [State.setFiber, Fiber.create]
    · simp only [State.setFiber, Function.update_of_ne other] at user ⊢
      exact ledger.user f user
  | setAutoStop =>
    cases stepped
    exact ledger.calm rfl (fun _ _ => .inl rfl) ledger.user single fun _ _ => Nat.le_refl _
  | setStopping =>
    cases stepped
    exact ledger.calm rfl (fun _ _ => .inl rfl) ledger.user single fun _ _ => Nat.le_refl _
  | scan w =>
    have sound := ledger.sound w
    obtain ⟨scanning, ⟨ft, left, picked, rfl⟩ | ⟨_, rfl⟩⟩ := step_scan stepped
    · have moved (f : FiberId) := queued_pick picked f
      refine ledger.still rfl rfl single (sound.rest _ (by simp [scanning]) _ ⟨by simp, ?_⟩) fun f => ?_
      · intro f thread branching pooled
        have same : ft = ⟨.fiber f, thread⟩ := Option.some.inj (Pc.branch.inj branching)
        refine ledger.parked f pooled ?_
        rw [moved f, same, if_pos rfl]
        exact Nat.le_add_right _ _
      · rw [moved f]
        exact Nat.le_add_left _ _
    · exact ledger.still rfl rfl single (sound.rest _ (by simp [scanning]) _ ⟨by simp, by simp⟩)
        fun _ => Nat.le_refl _
  | branch w =>
    have sound := ledger.sound w
    obtain ⟨g, thread, branching, rfl⟩ | ⟨c, thread, g, branching, owned, able, rfl⟩ |
      ⟨c, thread, branching, unowned, rfl⟩ | ⟨branching, ⟨rfl, _⟩ | ⟨rfl, _⟩⟩ := step_branch stepped
    · refine ledger.still rfl rfl single ⟨sound.owner, by simp, fun stage branch f running owned pooled => ?_,
        fun f spare _ => sound.spare f spare (by simp [branching])⟩ fun _ => Nat.le_refl _
      cases running
      obtain rfl : g = f := Option.some.inj owned
      obtain ⟨state, context, cb⟩ := sound.taken g thread branching pooled
      exact ⟨.inr state, context, cb⟩
    · have pooled := sound.owner g owned
      refine ledger.starts (c := c) (turn_recycle ledger owned ⟨.init, .fresh, some c, (s.heap g).pooled⟩
        { s.worker w with pc := .task .enter .callback }) rfl owned ?_ rfl single fun entry => ?_
      · rw [pooled]
        rfl
      · exact ledger.not_elsewhere (w := w) pooled (by simp [Worker.refs, owned]) (.inl entry)
    · refine ledger.starts (turn_create known w (Fiber.create (some c) true)
        { s.worker w with pc := .task .enter .callback, cbFiber := some s.nextFiber }) rfl rfl rfl rfl single fun entry => ?_
      exact known.not_elsewhere (w := w) (Nat.le_refl _) (.inl entry)
    all_goals
      exact ledger.still rfl rfl single (sound.rest _ (by simp [branching]) _ ⟨by simp, by simp⟩)
        fun _ => Nat.le_refl _
  | task w act =>
    obtain ⟨stage, branch, g, effect, running, owned, advanced, rfl⟩ := step_task stepped
    exact ledger_task ledger (fun hold => yields.suspends w (by rw [hold])) running owned advanced single
  | idle w ended =>
    obtain ⟨idling, rfl⟩ := step_idle stepped
    exact ledger.still rfl rfl single ((ledger.sound w).rest _ (by simp [idling]) _ ⟨by simp, by simp⟩)
      fun _ => Nat.le_refl _

theorem ledger_of_reaches (reached : (machine tid).Reaches YieldsOnly s) : Ledger s ∧ Known s :=
  machine_invariant (P := fun s => Ledger s ∧ Known s) ⟨ledger_initial, fun f _ => places_initial f⟩
    (fun _ _ _ ⟨ledger, known⟩ yields stepped =>
      ⟨step_ledger ledger known yields stepped, step_known known stepped⟩) reached

end Scheduler
end HpsSf
