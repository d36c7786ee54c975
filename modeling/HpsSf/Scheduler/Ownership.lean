import HpsSf.Foundation.Outcome
import HpsSf.Foundation.Shared
import HpsSf.Scheduler.Suspension

/-! The shared pointers to fibers.

A fiber is kept by the queue entries and the variables of `run` that point to it, by
user code, and by its own stack: `MainFunc` has a pointer to its fiber while the body
runs, and so has each yield until it returns.
-/

set_option autoImplicit false

namespace HpsSf.Scheduler
open Foundation Foundation.Shared

variable {n : Nat}

/-- The fiber that the worker is on, and the stage it is at. -/
def Worker.stageOf (worker : Worker) (f : FiberId) : Option Stage :=
  match worker.pc with
  | .task stage branch => if worker.fiberOf branch = some f then some stage else none
  | _ => none

/-- An existing fiber that the worker is about to turn to, behind the scan. -/
def Worker.upcoming (worker : Worker) : Option FiberId :=
  match worker.pc with
  | .branch (some ⟨.fiber f, _⟩) => some f
  | .branch (some ⟨.cb _, _⟩) => worker.cbFiber
  | _ => none

/-- The worker is in the body of the fiber. -/
def Worker.within (worker : Worker) (f : FiberId) : Bool := worker.stageOf f == some .exec

/-- Pointers to the fiber in the variables of `run`, which are gone when it has returned. -/
def Worker.owns (f : FiberId) (worker : Worker) : Nat :=
  if worker.pc = .exited then 0 else worker.refs f

def owned (f : FiberId) (s : State n) : Nat := queued f s.fibers + tally fun w => (s.worker w).owns f

/-- The workers, with the number of pointers to each fiber, and those of user code among them. -/
structure Owned (n : Nat) where
  state : State n
  /-- `use_count`, which is 0 for a fiber that is destroyed or not made yet. -/
  uses : FiberId → Nat
  handles : FiberId → Nat

namespace Owned

def initial (n : Nat) : Owned n := ⟨State.initial n, fun _ => 0, fun _ => 0⟩

/-- User code has a pointer to the fiber, or gets one from `GetThis` in its body. -/
def names (o : Owned n) (caller : Option (Fin n)) (f : FiberId) : Bool :=
  decide (0 < o.handles f) ||
    match caller with
    | none => false
    | some w => (o.state.worker w).within f

/-- The caller has the pointers that it gives to `schedule`; a batch is swapped out of its container. -/
def permits (o : Owned n) : Label n → Bool
  | .schedule caller (.fiber f) _ => o.names caller f
  | .scheduleAll _ fcs => fcs.all fun fc =>
      match fc with
      | .fiber f => decide (fcs.count (.fiber f) ≤ o.handles f)
      | .callback | .empty => true
  | _ => true

/-- The entries that the scan looks at, up to the one that it takes. -/
def visited (self : Int) (s : State n) : List Entry :=
  s.fibers.take ((s.fibers.takeWhile (·.skipped self fun f => (s.heap f).state)).length + 1)

/-- The fiber whose state the scan reads: not that of an entry for another thread. -/
def readBy (self : Int) (it : Entry) : Option FiberId :=
  if it.thread != -1 && it.thread != self then none
  else
    match it.task with
    | .fiber f => some f
    | .cb _ => none

/-- The fibers that a step looks into. -/
def accessed (tid : Fin n → Int) (s : State n) : Label n → List FiberId
  | .scan w =>
      match (s.worker w).pc with
      | .scan => (visited (tid w) s).filterMap (readBy (tid w))
      | _ => []
  | .branch w => (s.worker w).upcoming.toList
  | .task w _ =>
      match (s.worker w).pc with
      | .task _ branch => ((s.worker w).fiberOf branch).toList
      | _ => []
  | _ => []

/-- The pointers that a worker's step on a fiber makes and drops. -/
def turn (accepts : FiberId → Bool) (uses : FiberId → Nat) (f : FiberId) (fiber : Fiber) (branch : Branch) :
    Stage → Act → Except (Fault FiberId) (FiberId → Nat)
  | .switch, _ =>
      match fiber.context with
      -- `cur` of the yield that returns
      | .suspended => release accepts uses f
      -- `cur` of `MainFunc`
      | .fresh | .ended => .ok (retain uses f)
  | .exec, .yieldToReady | .exec, .yieldToHold => .ok (retain uses f)
  | .leave true, _ => do
      -- `cur.reset()`, and then `raw_ptr -> swapOut()`
      let uses ← release accepts uses f
      deref uses f
      return uses
  | .settle, _ => if fiber.state.over && branch != .callback then release accepts uses f else .ok uses
  | .requeue, _ => release accepts (retain uses f) f
  | .hold, _ => release accepts uses f
  | _, _ => .ok uses

/-- The variables of `run` go when it returns. -/
def returns (o : Owned n) (next : State n) (w : Fin n) : Except (Fault FiberId) (Owned n) :=
  match (o.state.worker w).cbFiber with
  | some f => do
      let uses ← release (fun f => (next.heap f).state.resettable) o.uses f
      return { o with state := next, uses := uses }
  | none => .ok { o with state := next }

/-- The pointers behind a step of the workers, which leads to `next`. -/
def count (o : Owned n) (next : State n) : Label n → Except (Fault FiberId) (Owned n)
  | .schedule _ (.fiber f) _ => .ok { o with state := next, uses := retain o.uses f }
  | .scheduleAll _ fcs => .ok { o with state := next, handles := fun f => o.handles f - fcs.count (.fiber f) }
  | .newFiber _ => .ok
      { state := next
        uses := Function.update o.uses o.state.nextFiber 1
        handles := Function.update o.handles o.state.nextFiber 1 }
  | .branch w =>
      match (o.state.worker w).pc with
      | .branch (some ⟨.cb _, _⟩) =>
          match (o.state.worker w).cbFiber with
          | none => .ok { o with state := next, uses := Function.update o.uses o.state.nextFiber 1 }
          | some _ => .ok { o with state := next }
      | .branch none => if (o.state.worker w).idleOver then o.returns next w else .ok { o with state := next }
      | _ => .ok { o with state := next }
  | .task w act =>
      match (o.state.worker w).pc with
      | .task stage branch =>
          match (o.state.worker w).fiberOf branch with
          | some f => do
              let uses ← turn (fun f => (next.heap f).state.resettable) o.uses f (o.state.heap f) branch stage act
              return { o with state := next, uses := uses }
          | none => .ok { o with state := next }
      | _ => .ok { o with state := next }
  | _ => .ok { o with state := next }

inductive Move (n : Nat) where
  | run (label : Label n)
  /-- User code copies a pointer. -/
  | copy (caller : Option (Fin n)) (f : FiberId)
  | drop (f : FiberId)

/-- What a move comes to: `none` when it is not possible, or ends in an assertion of the workers. -/
def attempt (tid : Fin n → Int) (o : Owned n) : Move n → Option (Except (Fault FiberId) (Owned n))
  | .run label =>
      if o.permits label then
        match derefAll o.uses (accessed tid o.state label) with
        | .error fault => some (.error fault)
        | .ok () => (step tid o.state label).map fun next => o.count next label
      else none
  | .copy caller f =>
      if o.names caller f then
        some (do
          deref o.uses f
          return { o with uses := retain o.uses f, handles := Function.update o.handles f (o.handles f + 1) })
      else none
  | .drop f =>
      if 0 < o.handles f then
        some (do
          let uses ← release (fun f => (o.state.heap f).state.resettable) o.uses f
          return { o with uses := uses, handles := Function.update o.handles f (o.handles f - 1) })
      else none

def machine (tid : Fin n → Int) : System (Owned n) (Move n) where
  start o := o = initial n
  step o move :=
    match o.attempt tid move with
    | some (.ok next) => some next
    | _ => none

/-- No worker turns to a fiber that another one is on. -/
def Alone (o : Owned n) : Move n → Prop
  | .run (.branch w) => ∀ f, (o.state.worker w).upcoming = some f → ∀ v, v ≠ w → (o.state.worker v).stageOf f = none
  | _ => True

end Owned

/-! ## What points to a fiber -/

/-- The pointers on the stack of a fiber that no worker is on. -/
def frames : Fiber.Context → Nat
  | .fresh | .ended => 0
  -- those of `MainFunc` and of the yield
  | .suspended => 2

/-- The pointers on the stack of a fiber that a worker is on. -/
def Stage.frames (context : Fiber.Context) : Stage → Nat
  | .exec | .leave true => 1
  | .leave false => 2
  | .enter | .switch | .back | .settle | .requeue | .hold | .recycle => Scheduler.frames context

/-- The state of a fiber that no worker is on says what its stack holds. -/
def Settled (fiber : Fiber) : Prop :=
  match fiber.context with
  | .fresh => fiber.state = .init
  | .suspended => fiber.state = .ready ∨ fiber.state = .hold
  | .ended => fiber.state.over = true

theorem Settled.suspended {fiber : Fiber} (settled : Settled fiber)
    (stopped : fiber.state = .ready ∨ fiber.state = .hold) : fiber.context = .suspended := by
  unfold Settled at settled
  split at settled
  next => rw [settled] at stopped; simp at stopped
  next context => exact context
  next => rcases stopped with state | state <;> simp [state, Fiber.State.over] at settled

theorem Settled.ended {fiber : Fiber} (settled : Settled fiber) (done : fiber.state.over = true) :
    fiber.context = .ended := by
  unfold Settled at settled
  split at settled
  next => simp [settled, Fiber.State.over] at done
  next => rcases settled with state | state <;> simp [state, Fiber.State.over] at done
  next context => exact context

/-- What the fiber is like while a worker is at the stage. -/
def Stage.Suits (fiber : Fiber) : Stage → Prop
  | .enter => Settled fiber
  | .switch | .exec => True
  | .leave false => fiber.state = .ready ∨ fiber.state = .hold
  | .leave true => fiber.state.over = true
  | .back | .settle => Settled fiber ∧ fiber.context ≠ .fresh
  | .requeue => Settled fiber ∧ fiber.state = .ready
  | .hold => Settled fiber ∧ fiber.state = .hold
  | .recycle => Settled fiber ∧ fiber.state.over = true

/-- At most one worker is on the fiber, and all pointers to it are counted. -/
inductive Kept (s : State n) (f : FiberId) (uses handles : Nat) : Prop where
  | on (w : Fin n) (stage : Stage) : (s.worker w).stageOf f = some stage →
      (∀ v, v ≠ w → (s.worker v).stageOf f = none) → stage.Suits (s.heap f) →
      uses = owned f s + stage.frames (s.heap f).context + handles → Kept s f uses handles
  | off : (∀ w, (s.worker w).stageOf f = none) → Settled (s.heap f) →
      uses = owned f s + frames (s.heap f).context + handles → Kept s f uses handles

variable {s next : State n} {f : FiberId} {w : Fin n} {uses handles : Nat}

theorem Worker.stageOf_eq_some {worker : Worker} {stage : Stage} (on : worker.stageOf f = some stage) :
    ∃ branch, worker.pc = .task stage branch ∧ worker.fiberOf branch = some f := by
  unfold Worker.stageOf at on
  split at on
  next stage branch running =>
    split at on
    next same =>
      cases on
      exact ⟨branch, running, same⟩
    next => cases on
  next => cases on

theorem Worker.stageOf_task {worker : Worker} {stage : Stage} {branch : Branch}
    (running : worker.pc = .task stage branch) {g : FiberId} (on : worker.fiberOf branch = some g) :
    worker.stageOf f = if g = f then some stage else none := by
  simp [Worker.stageOf, running, on]

theorem Worker.owns_pos {worker : Worker} {stage : Stage} (on : worker.stageOf f = some stage) :
    0 < worker.owns f := by
  obtain ⟨branch, running, same⟩ := Worker.stageOf_eq_some on
  rw [Worker.owns, if_neg (by simp [running])]
  exact Worker.On.refs_pos ⟨branch, running, same⟩

theorem owns_le_owned (s : State n) (f : FiberId) (w : Fin n) : (s.worker w).owns f ≤ owned f s :=
  Nat.le_trans (reading_le_tally (fun w => (s.worker w).owns f) w) (Nat.le_add_left ..)

/-- Two workers that point to a fiber are counted both. -/
theorem owns_add_le (s : State n) (f : FiberId) {v : Fin n} (distinct : v ≠ w) :
    (s.worker v).owns f + (s.worker w).owns f ≤ owned f s :=
  Nat.le_trans (readings_le_tally (fun w => (s.worker w).owns f) distinct) (Nat.le_add_left ..)

theorem owned_update (next : State n) {self : Worker}
    (same : next.worker = Function.update s.worker w self) (f : FiberId) :
    owned f next + queued f s.fibers + (s.worker w).owns f = owned f s + queued f next.fibers + self.owns f := by
  have change := tally_update (Worker.owns f) s.worker w self
  rw [owned, owned, same]
  omega

theorem owned_of_same (workers : next.worker = s.worker) (fibers : next.fibers = s.fibers) (f : FiberId) :
    owned f next = owned f s := by
  rw [owned, owned, workers, fibers]

theorem owned_of_worker (same : next.worker = s.worker) (f : FiberId) :
    owned f next + queued f s.fibers = owned f s + queued f next.fibers := by
  rw [owned, owned, same]
  omega

theorem wakes_eq_count (fcs : List Call) (f : FiberId) :
    (fcs.map (Call.wakes f)).sum = fcs.count (.fiber f) := by
  induction fcs with
  | nil => rfl
  | cons fc rest ih =>
    rw [List.map_cons, List.sum_cons, ih, List.count_cons, Nat.add_comm]
    cases fc <;> simp [Call.wakes]

theorem owned_accept (s : State n) (thread : Int) (fc : Call) (f : FiberId) :
    owned f (s.accept thread fc) = owned f s + fc.wakes f := by
  have change := owned_of_worker (accept_worker s thread fc) f
  have entries := places_accept f s thread fc
  rw [places, places, held, held, accept_worker] at entries
  omega

theorem owned_acceptAll (s : State n) (fcs : List Call) (f : FiberId) :
    owned f (fcs.foldl (fun s fc => s.accept (-1) fc) s) = owned f s + fcs.count (.fiber f) := by
  have change := owned_of_worker (acceptAll_worker s fcs) f
  have entries := places_acceptAll f s fcs
  rw [places, places, held, held, acceptAll_worker, wakes_eq_count] at entries
  omega

/-- The fiber is as before, and what is counted more or less points to it or does not any longer. -/
theorem Kept.transfer (kept : Kept s f uses handles)
    (workers : ∀ w, (next.worker w).stageOf f = (s.worker w).stageOf f)
    (fiber : next.heap f = s.heap f) {now handed : Nat}
    (balance : now + owned f s + handles = uses + owned f next + handed) :
    Kept next f now handed := by
  cases kept with
  | on w stage here others fits counted =>
    refine .on w stage ((workers w).trans here) (fun v other => (workers v).trans (others v other)) (fiber ▸ fits) ?_
    rw [fiber]
    omega
  | off nobody settled counted =>
    refine .off (fun w => (workers w).trans (nobody w)) (fiber ▸ settled) ?_
    rw [fiber]
    omega

theorem Kept.alive (kept : Kept s f uses handles) (present : 0 < owned f s ∨ 0 < handles) : 0 < uses := by
  cases kept <;> omega

/-- A fiber with one pointer to it, which is not that of a worker on it, may be destroyed. -/
theorem Kept.resettable (kept : Kept s f uses handles) (last : uses = 1)
    (elsewhere : ∀ w stage, (s.worker w).stageOf f = some stage → 1 < owned f s ∨ 0 < handles) :
    (s.heap f).state.resettable = true := by
  cases kept with
  | on w stage here others fits counted =>
    have pointed := Nat.lt_of_lt_of_le (Worker.owns_pos here) (owns_le_owned s f w)
    have more := elsewhere w stage here
    omega
  | off nobody settled counted =>
    cases context : (s.heap f).context with
    | fresh =>
      simp only [Settled, context] at settled
      simp [Fiber.State.resettable, settled]
    | suspended =>
      simp only [frames, context] at counted
      omega
    | ended =>
      simp only [Settled, context] at settled
      cases state : (s.heap f).state <;> simp_all [Fiber.State.resettable, Fiber.State.over]

/-! ## A step of a worker on a fiber -/

section
variable {branch : Branch} {stage : Stage} {act : Act} {effect : Effect}

theorem apply_queued (s : State n) (self : Int) (w : Fin n) (branch : Branch) (g : FiberId)
    (effect : Effect) (f : FiberId) : queued f (s.apply self w branch g effect).fibers =
      queued f s.fibers + if effect.requeues ∧ g = f then 1 else 0 := by
  cases requeues : effect.requeues <;> simp [State.apply, scheduleNoLock, requeues]

/-- To another fiber than its own a worker points as before. -/
theorem Worker.after_elsewhere {worker : Worker} {fiber : Fiber} {g : FiberId}
    (running : worker.pc = .task stage branch) (on : worker.fiberOf branch = some g)
    (advanced : advance fiber branch stage act = some effect) (other : f ≠ g) :
    (worker.after branch effect).owns f = worker.owns f ∧
      (worker.after branch effect).stageOf f = worker.stageOf f := by
  obtain ⟨pc, cbFiber, idleOver⟩ := worker
  cases running
  obtain ⟨later, goes, kept, -⟩ | ⟨scans, -⟩ := advance_pc advanced
  · cases branch <;>
      simp_all [Worker.after, Worker.owns, Worker.refs, Pc.refs, Worker.stageOf, Worker.fiberOf, Ne.symm]
  · cases branch with
    | fiber h =>
      cases on
      simp [Worker.after, Worker.owns, Worker.refs, Pc.refs, Worker.stageOf, scans, other.symm, Worker.fiberOf]
    | callback =>
      cases on
      cases effect.releases <;>
        simp [Worker.after, Worker.owns, Worker.refs, Pc.refs, Worker.stageOf, scans, other.symm, Worker.fiberOf]

/-- Another fiber than that of the worker has the pointers that it had. -/
theorem owned_apply_of_ne (self : Int) {g : FiberId}
    (running : (s.worker w).pc = .task stage branch) (on : (s.worker w).fiberOf branch = some g)
    (advanced : advance (s.heap g) branch stage act = some effect) (other : f ≠ g) :
    owned f (s.apply self w branch g effect) = owned f s ∧
      ∀ v, ((s.apply self w branch g effect).worker v).stageOf f = (s.worker v).stageOf f := by
  have change := owned_update (s.apply self w branch g effect) rfl f
  rw [apply_queued, if_neg fun requeued => other requeued.2.symm] at change
  obtain ⟨owns, stageOf⟩ := Worker.after_elsewhere running on advanced other
  refine ⟨by omega, fun v => ?_⟩
  by_cases mover : v = w
  · subst mover
    simpa [State.apply] using stageOf
  · simp [State.apply, mover]

/-- A worker is at a stage with the fiber, and no other one is on it. -/
structure Standing (s : State n) (w : Fin n) (branch : Branch) (f : FiberId) (stage : Stage) (uses handles : Nat) :
    Prop where
  running : (s.worker w).pc = .task stage branch
  on : (s.worker w).fiberOf branch = some f
  others : ∀ v, v ≠ w → (s.worker v).stageOf f = none
  suits : stage.Suits (s.heap f)
  counted : uses = owned f s + stage.frames (s.heap f).context + handles

theorem Kept.standing (kept : Kept s f uses handles) (running : (s.worker w).pc = .task stage branch)
    (on : (s.worker w).fiberOf branch = some f) : Standing s w branch f stage uses handles := by
  have here : (s.worker w).stageOf f = some stage := by rw [Worker.stageOf_task running on, if_pos rfl]
  cases kept with
  | off nobody => cases (nobody w).symm.trans here
  | on v stage' there others suits counted =>
    obtain rfl : w = v := by
      by_contra distinct
      cases (others w distinct).symm.trans here
    cases here.symm.trans there
    exact ⟨running, on, others, suits, counted⟩

/-- The worker itself points to the fiber. -/
theorem Standing.pointed (standing : Standing s w branch f stage uses handles) : 0 < owned f s := by
  have here : (s.worker w).stageOf f = some stage := by
    rw [Worker.stageOf_task standing.running standing.on, if_pos rfl]
  exact Nat.lt_of_lt_of_le (Worker.owns_pos here) (owns_le_owned s f w)

/-- The worker stays with its fiber. -/
theorem Standing.stays (standing : Standing s w branch f stage uses handles) (self : Int)
    {later : Stage} {now : Nat} (goes : effect.pc = .task later branch)
    (kept : effect.releases = false) (unqueued : effect.requeues = false)
    (suits : later.Suits effect.fiber)
    (counted : now = owned f s + later.frames effect.fiber.context + handles) :
    Kept (s.apply self w branch f effect) f now handles := by
  have change := owned_update (s.apply self w branch f effect) rfl f
  rw [apply_queued, if_neg fun requeued => by cases unqueued.symm.trans requeued.1] at change
  have same : ((s.worker w).after branch effect).owns f = (s.worker w).owns f := by
    cases branch <;> simp [Worker.after, Worker.owns, Worker.refs, Pc.refs, standing.running, goes, kept]
  have fiberOf : ((s.worker w).after branch effect).fiberOf branch = some f := (after_fiberOf kept).trans standing.on
  have heap : (s.apply self w branch f effect).heap f = effect.fiber := Function.update_self ..
  refine .on w later ?_ (fun v other => ?_) (heap ▸ suits) ?_
  · simp [State.apply, Worker.stageOf_task goes fiberOf]
  · simpa [State.apply, other] using standing.others v other
  · rw [heap]
    omega

/-- The worker is through with its fiber; it keeps the pointer to one that it recycles. -/
theorem Standing.ends (standing : Standing s w branch f stage uses handles) (self : Int) {now : Nat}
    (scans : effect.pc = .scan) (settled : Settled effect.fiber)
    (counted : now + (if effect.releases || branch != .callback then 1 else 0) =
      owned f s + (if effect.requeues then 1 else 0) + frames effect.fiber.context + handles) :
    Kept (s.apply self w branch f effect) f now handles := by
  have change := owned_update (s.apply self w branch f effect) rfl f
  have gone : ((s.worker w).after branch effect).owns f + (if effect.releases || branch != .callback then 1 else 0) =
      (s.worker w).owns f := by
    cases branch with
    | fiber g =>
      cases standing.on
      simp [Worker.after, Worker.owns, Worker.refs, Pc.refs, standing.running, scans, Nat.add_comm]
    | callback =>
      have spare : (s.worker w).cbFiber = some f := standing.on
      cases releases : effect.releases <;>
        simp [Worker.after, Worker.owns, Worker.refs, Pc.refs, standing.running, scans, spare, releases]
  have heap : (s.apply self w branch f effect).heap f = effect.fiber := Function.update_self ..
  simp only [apply_queued, and_true] at change
  refine .off (fun v => ?_) (heap ▸ settled) ?_
  · by_cases mover : v = w
    · subst mover
      simp [State.apply, Worker.stageOf, scans]
    · simpa [State.apply, mover] using standing.others v mover
  · rw [heap]
    omega

/-- The step finds the fiber, destroys it only in a state that the destructor accepts, and counts
the pointers as they are behind it. -/
def Turns (accepts : FiberId → Bool) (uses : FiberId → Nat) (s : State n) (self : Int) (w : Fin n) (branch : Branch)
    (f : FiberId) (stage : Stage) (act : Act) (effect : Effect) (handles : Nat) : Prop :=
  ∃ now, Owned.turn accepts uses f (s.heap f) branch stage act = .ok (Function.update uses f now) ∧
    Kept (s.apply self w branch f effect) f now handles

section
variable {uses : FiberId → Nat} (accepts : FiberId → Bool) (self : Int)

theorem unchanged (uses : FiberId → Nat) (f : FiberId) :
    Except.ok (ε := Fault FiberId) uses = .ok (Function.update uses f (uses f)) := by
  rw [Function.update_eq_self]

theorem Standing.enter (standing : Standing s w branch f .enter (uses f) handles)
    (advanced : advance (s.heap f) branch .enter act = some effect) :
    Turns accepts uses s self w branch f .enter act effect handles := by
  cases act <;> simp only [advance, reduceCtorEq] at advanced
  split at advanced <;> cases advanced
  exact ⟨_, unchanged uses f, standing.stays self rfl rfl rfl trivial standing.counted⟩

theorem Standing.switch (standing : Standing s w branch f .switch (uses f) handles)
    (advanced : advance (s.heap f) branch .switch act = some effect) :
    Turns accepts uses s self w branch f .switch act effect handles := by
  have pointed := standing.pointed
  have counted := standing.counted
  cases act <;> simp only [advance, reduceCtorEq] at advanced
  split at advanced <;> cases advanced
  next context =>
    simp only [Stage.frames, frames, context] at counted
    refine ⟨uses f + 1, by simp [Owned.turn, context, retain], standing.stays self rfl rfl rfl trivial ?_⟩
    simp only [Stage.frames]
    omega
  next context =>
    simp only [Stage.frames, frames, context] at counted
    refine ⟨uses f - 1, ?_, standing.stays self rfl rfl rfl trivial ?_⟩
    · simp only [Owned.turn, context]
      exact release_ok accepts (by omega) (by omega)
    · simp only [Stage.frames]
      omega

theorem Standing.exec (standing : Standing s w branch f .exec (uses f) handles)
    (advanced : advance (s.heap f) branch .exec act = some effect) :
    Turns accepts uses s self w branch f .exec act effect handles := by
  have counted := standing.counted
  simp only [Stage.frames] at counted
  cases act <;> simp only [advance, reduceCtorEq] at advanced <;> cases advanced
  case yieldToReady | yieldToHold =>
    refine ⟨uses f + 1, rfl, standing.stays self rfl rfl rfl (by simp [Stage.Suits]) ?_⟩
    simp only [Stage.frames]
    omega
  case returns | throws => exact ⟨_, unchanged uses f, standing.stays self rfl rfl rfl rfl counted⟩

theorem Standing.leave {done : Bool} (standing : Standing s w branch f (.leave done) (uses f) handles)
    (advanced : advance (s.heap f) branch (.leave done) act = some effect) :
    Turns accepts uses s self w branch f (.leave done) act effect handles := by
  have pointed := standing.pointed
  have counted := standing.counted
  cases act <;> simp only [advance, reduceCtorEq] at advanced
  cases advanced
  cases done with
  | false => exact ⟨_, unchanged uses f, standing.stays self rfl rfl rfl ⟨standing.suits, by simp⟩ counted⟩
  | true =>
    simp only [Stage.frames] at counted
    refine ⟨uses f - 1, ?_, standing.stays self rfl rfl rfl ⟨standing.suits, by simp⟩ ?_⟩
    · have left : 0 < Function.update uses f (uses f - 1) f := by
        rw [Function.update_self]
        omega
      simp only [Owned.turn, release_ok accepts (show 0 < uses f by omega) (by omega)]
      exact congrArg (fun found => found >>= fun _ => pure _) (deref_ok left)
    · simp only [Stage.frames, frames, if_true]
      omega

theorem Standing.back (standing : Standing s w branch f .back (uses f) handles)
    (advanced : advance (s.heap f) branch .back act = some effect) :
    Turns accepts uses s self w branch f .back act effect handles := by
  cases act <;> simp only [advance, reduceCtorEq] at advanced
  cases advanced
  exact ⟨_, unchanged uses f, standing.stays self rfl rfl rfl standing.suits standing.counted⟩

theorem Standing.settle (standing : Standing s w branch f .settle (uses f) handles)
    (advanced : advance (s.heap f) branch .settle act = some effect)
    (fits : accepts f = effect.fiber.state.resettable) :
    Turns accepts uses s self w branch f .settle act effect handles := by
  have pointed := standing.pointed
  have counted := standing.counted
  obtain ⟨settled, begun⟩ := standing.suits
  simp only [Stage.frames] at counted
  cases act <;> simp only [advance, reduceCtorEq] at advanced
  split at advanced
  next ready =>
    cases advanced
    exact ⟨_, by simp [Owned.turn, ready, Fiber.State.over], standing.stays self rfl rfl rfl ⟨settled, ready⟩ counted⟩
  case h_2 | h_3 =>
    rename_i done
    split at advanced <;> cases advanced
    · refine ⟨uses f - 1, ?_, standing.ends self rfl settled (by simp; omega)⟩
      simp only [Owned.turn, done]
      exact release_ok accepts (by omega) fun _ => by simp [fits, done, Fiber.State.resettable]
    · exact ⟨_, by simp [Owned.turn],
        standing.stays self rfl rfl rfl ⟨settled, by simp [done, Fiber.State.over]⟩ counted⟩
  -- A fiber that has been entered and left is READY, HOLD or over.
  all_goals
    rename_i state
    cases advanced
    refine ⟨_, by simp [Owned.turn, state, Fiber.State.over], standing.stays self rfl rfl rfl ⟨settled, ?_⟩ counted⟩
    revert settled begun
    cases context : (s.heap f).context <;> simp [Settled, context, state, Fiber.State.over]

theorem Standing.requeue (standing : Standing s w branch f .requeue (uses f) handles)
    (advanced : advance (s.heap f) branch .requeue act = some effect) :
    Turns accepts uses s self w branch f .requeue act effect handles := by
  have pointed := standing.pointed
  have counted := standing.counted
  simp only [Stage.frames] at counted
  cases act <;> simp only [advance, reduceCtorEq] at advanced
  cases advanced
  refine ⟨uses f, ?_, standing.ends self rfl standing.suits.1 (by simp; omega)⟩
  have more : retain uses f f = uses f + 1 := retain_self ..
  rw [Owned.turn, release_ok accepts (by omega) (by omega), more]
  simp [retain]

theorem Standing.hold (standing : Standing s w branch f .hold (uses f) handles)
    (advanced : advance (s.heap f) branch .hold act = some effect) :
    Turns accepts uses s self w branch f .hold act effect handles := by
  have pointed := standing.pointed
  have counted := standing.counted
  have context := standing.suits.1.suspended (.inr standing.suits.2)
  simp only [Stage.frames, frames, context] at counted
  cases act <;> simp only [advance, reduceCtorEq] at advanced
  cases advanced
  refine ⟨uses f - 1, release_ok accepts (by omega) (by omega), standing.ends self rfl ?_ ?_⟩
  · simp [Settled, context]
  · simp [frames, context]
    omega

theorem Standing.recycle (standing : Standing s w .callback f .recycle (uses f) handles)
    (advanced : advance (s.heap f) .callback .recycle act = some effect) :
    Turns accepts uses s self w .callback f .recycle act effect handles := by
  have counted := standing.counted
  cases act <;> simp only [advance, reduceCtorEq] at advanced
  obtain ⟨fiber, reset, rfl⟩ := Option.map_eq_some_iff.mp advanced
  obtain ⟨-, rfl⟩ := Fiber.reset_eq_some reset
  simp only [Stage.frames, frames, standing.suits.1.ended standing.suits.2] at counted
  exact ⟨uses f, unchanged uses f, standing.ends self rfl rfl (by simpa [frames] using counted)⟩

theorem Standing.turns (standing : Standing s w branch f stage (uses f) handles)
    (advanced : advance (s.heap f) branch stage act = some effect)
    (fits : accepts f = effect.fiber.state.resettable) (recycles : stage = .recycle → branch = .callback) :
    Turns accepts uses s self w branch f stage act effect handles := by
  cases stage with
  | enter => exact standing.enter accepts self advanced
  | switch => exact standing.switch accepts self advanced
  | exec => exact standing.exec accepts self advanced
  | leave done => exact standing.leave accepts self advanced
  | back => exact standing.back accepts self advanced
  | settle => exact standing.settle accepts self advanced fits
  | requeue => exact standing.requeue accepts self advanced
  | hold => exact standing.hold accepts self advanced
  | recycle =>
    obtain rfl := recycles rfl
    exact standing.recycle accepts self advanced

end

theorem advance_recycle {fiber : Fiber} (advanced : advance fiber branch stage act = some effect)
    {later : Branch} (goes : effect.pc = .task .recycle later) : later = .callback := by
  cases stage <;> cases act <;> simp only [advance, reduceCtorEq] at advanced
  case settle.proceed =>
    split at advanced
    case h_2 | h_3 =>
      split at advanced <;> cases advanced <;> cases goes
      rfl
    all_goals
      cases advanced
      cases goes
  case enter.proceed | switch.proceed =>
    split at advanced <;> cases advanced <;> cases goes
  case recycle.proceed =>
    obtain ⟨_, -, rfl⟩ := Option.map_eq_some_iff.mp advanced
    cases goes
  all_goals
    cases advanced
    cases goes

end

end HpsSf.Scheduler
