import HpsSf.Scheduler.Accounting

/-! The places of a fiber: queue entries and the variables `ft.fiber` and `cb_fiber` of the workers.

Only a schedule call adds a place to an existing fiber. Every other step moves a
place or drops one, so a fiber that is rescheduled only while it has no place
has at most one at any time.
-/

set_option autoImplicit false

namespace HpsSf.Scheduler
open Foundation

variable {n : Nat}

def Pc.refs (f : FiberId) : Pc → Nat
  | .branch (some ft) => if ft.task = .fiber f then 1 else 0
  | .task _ (.fiber g) => if g = f then 1 else 0
  | .branch none | .task _ .callback | .scan | .idle | .exited => 0

def Worker.refs (f : FiberId) (worker : Worker) : Nat :=
  worker.pc.refs f + if worker.cbFiber = some f then 1 else 0

/-- The worker is at this stage with this fiber. -/
def Worker.On (worker : Worker) (f : FiberId) (stage : Stage) : Prop :=
  ∃ branch, worker.pc = .task stage branch ∧ worker.fiberOf branch = some f

abbrev StageOn (s : State n) (w : Fin n) (f : FiberId) (stage : Stage) : Prop :=
  (s.worker w).On f stage

theorem Worker.On.refs_pos {worker : Worker} {f : FiberId} {stage : Stage}
    (on : worker.On f stage) : 0 < worker.refs f := by
  obtain ⟨branch, running, owned⟩ := on
  cases branch with
  | fiber g =>
    cases owned
    simp [Worker.refs, running, Pc.refs]
  | callback =>
    have spare : worker.cbFiber = some f := owned
    simp [Worker.refs, spare]

def queued (f : FiberId) (fibers : List Entry) : Nat :=
  fibers.countP fun ft => ft.task = .fiber f

def held (f : FiberId) (s : State n) : Nat := tally fun w => (s.worker w).refs f

def places (f : FiberId) (s : State n) : Nat := queued f s.fibers + held f s

def Call.wakes (f : FiberId) : Call → Nat
  | .fiber g => if g = f then 1 else 0
  | .callback | .empty => 0

/-- A batch of callbacks names no fiber. -/
theorem wakes_of_callbacks {fcs : List Call} (f : FiberId)
    (callbacks : (fcs.all fun fc => fc == .callback) = true) : (fcs.map (Call.wakes f)).sum = 0 := by
  rw [List.sum_eq_zero_iff]
  intro wakes member
  obtain ⟨fc, given, rfl⟩ := List.mem_map.mp member
  rw [eq_of_beq (List.all_eq_true.mp callbacks fc given)]
  rfl

/-- How many schedule calls of a step name the fiber. -/
def Label.wakes (f : FiberId) : Label n → Nat
  | .schedule _ fc _ => fc.wakes f
  | .scheduleAll _ fcs => (fcs.map (Call.wakes f)).sum
  | _ => 0

/-- With one place at most, two workers never refer to one fiber. -/
theorem refs_exclusive {s : State n} {f : FiberId} (single : places f s ≤ 1) {w other : Fin n}
    (distinct : w ≠ other) (first : 0 < (s.worker w).refs f) : (s.worker other).refs f = 0 := by
  have both := readings_le_tally (fun w => (s.worker w).refs f) distinct
  rw [places, held] at single
  omega

theorem queued_exclusive {s : State n} {f : FiberId} (single : places f s ≤ 1) {w : Fin n}
    (first : 0 < (s.worker w).refs f) : queued f s.fibers = 0 := by
  have one := reading_le_tally (fun w => (s.worker w).refs f) w
  rw [places, held] at single
  omega

theorem places_pos_of_refs {s : State n} {f : FiberId} {w : Fin n} (present : 0 < (s.worker w).refs f) :
    0 < places f s := by
  have one := reading_le_tally (fun w => (s.worker w).refs f) w
  rw [places, held]
  omega

@[simp] theorem queued_append (f : FiberId) (front rest : List Entry) :
    queued f (front ++ rest) = queued f front + queued f rest :=
  List.countP_append

@[simp] theorem queued_fiber (f g : FiberId) (thread : Int) :
    queued f [⟨.fiber g, thread⟩] = if g = f then 1 else 0 := by
  simp [queued, List.countP_cons]

@[simp] theorem queued_cb (f : FiberId) (c : Callback) (thread : Int) :
    queued f [⟨.cb c, thread⟩] = 0 := by
  simp [queued]

theorem queued_pick {self : Int} {state : FiberId → Fiber.State} {fibers left : List Entry} {ft : Entry}
    (picked : pick self state fibers = some (ft, left)) (f : FiberId) :
    queued f fibers = (if ft.task = .fiber f then 1 else 0) + queued f left := by
  rw [queued, (pick_perm picked).countP_eq, List.countP_cons, Nat.add_comm]
  simp [queued]

/-- A step that replaces one worker adds as many places as that worker and the queue gain. -/
theorem places_le {f : FiberId} {s next : State n} {extra : Nat} (w : Fin n) (self : Worker)
    (same : next.worker = Function.update s.worker w self)
    (gain : queued f next.fibers + self.refs f ≤
      queued f s.fibers + (s.worker w).refs f + extra) :
    places f next ≤ places f s + extra := by
  have change : held f next + (s.worker w).refs f = held f s + self.refs f := by
    rw [held, same]
    exact tally_update (Worker.refs f) s.worker w self
  rw [places, places]
  omega

theorem places_accept (f : FiberId) (s : State n) (thread : Int) (fc : Call) :
    places f (s.accept thread fc) = places f s + fc.wakes f := by
  have workers : held f (s.accept thread fc) = held f s := by rw [held, accept_worker]; rfl
  rw [places, workers, places]
  cases fc with
  | fiber g =>
    simp only [State.accept, scheduleNoLock, queued_append, queued_fiber, Call.wakes]
    omega
  | callback => simp [State.accept, scheduleNoLock, Call.wakes]
  | empty => rfl

theorem places_acceptAll (f : FiberId) (s : State n) (fcs : List Call) :
    places f (fcs.foldl (fun s fc => s.accept (-1) fc) s) =
      places f s + (fcs.map (Call.wakes f)).sum := by
  induction fcs generalizing s with
  | nil => rfl
  | cons fc rest ih =>
    rw [List.foldl_cons, ih, places_accept, List.map_cons, List.sum_cons]
    omega

/-- A step on a fiber stays in its branch, or ends the loop body. -/
theorem advance_pc {fiber : Fiber} {branch : Branch} {stage : Stage} {act : Act} {effect : Effect}
    (advanced : advance fiber branch stage act = some effect) :
    (∃ later, effect.pc = .task later branch ∧ effect.releases = false ∧ effect.requeues = false) ∨
      effect.pc = .scan ∧ (effect.requeues = true → effect.releases = true) := by
  cases stage <;> cases act <;> simp only [advance, reduceCtorEq] at advanced
  case enter.proceed =>
    split at advanced <;> cases advanced
    exact .inl ⟨_, rfl, rfl, rfl⟩
  case switch.proceed =>
    split at advanced <;> cases advanced
    all_goals exact .inl ⟨_, rfl, rfl, rfl⟩
  case settle.proceed =>
    split at advanced
    case h_2 | h_3 =>
      split at advanced <;> cases advanced
      · exact .inr ⟨rfl, by simp⟩
      · exact .inl ⟨_, rfl, rfl, rfl⟩
    all_goals
      cases advanced
      exact .inl ⟨_, rfl, rfl, rfl⟩
  case requeue.proceed =>
    cases advanced
    exact .inr ⟨rfl, fun _ => rfl⟩
  case hold.proceed =>
    cases advanced
    exact .inr ⟨rfl, by simp⟩
  case recycle.proceed =>
    obtain ⟨_, _, rfl⟩ := Option.map_eq_some_iff.mp advanced
    exact .inr ⟨rfl, by simp⟩
  all_goals
    cases advanced
    exact .inl ⟨_, rfl, rfl, rfl⟩

/-- The worker that requeues its fiber gives up the variable that held it. -/
theorem advance_refs {fiber : Fiber} {worker : Worker} {branch : Branch} {g : FiberId} {stage : Stage}
    {act : Act} {effect : Effect} (running : worker.pc = .task stage branch)
    (owned : worker.fiberOf branch = some g)
    (advanced : advance fiber branch stage act = some effect) (f : FiberId) :
    (if effect.requeues ∧ g = f then 1 else 0) + (worker.after branch effect).refs f ≤
      worker.refs f := by
  unfold Worker.after
  obtain ⟨_, pc, releases, requeues, _, _, _⟩ := effect
  obtain ⟨_, cbFiber, _⟩ := worker
  cases running
  rcases advance_pc advanced with ⟨later, same, kept, unqueued⟩ | ⟨same, dropped⟩
  · cases same
    cases kept
    cases unqueued
    cases branch <;> simp [Worker.refs, Pc.refs]
  · cases same
    cases requeues with
    | false =>
      cases branch <;> simp only [Worker.refs, Pc.refs] <;> split_ifs <;> simp_all
    | true =>
      cases dropped rfl
      cases branch with
      | fiber h =>
        cases owned
        simp [Worker.refs, Pc.refs]
      | callback =>
        cases owned
        simp [Worker.refs, Pc.refs]

@[simp] theorem after_pc (worker : Worker) (branch : Branch) (effect : Effect) :
    (worker.after branch effect).pc = effect.pc := rfl

theorem after_fiberOf {worker : Worker} {branch : Branch} {effect : Effect} (kept : effect.releases = false) :
    (worker.after branch effect).fiberOf branch = worker.fiberOf branch := by
  cases branch <;> simp [Worker.after, Worker.fiberOf, kept]

/-- Within the loop body the worker stays with the fiber it has taken. -/
theorem after_on {fiber : Fiber} {worker : Worker} {branch : Branch} {g : FiberId} {stage : Stage}
    {act : Act} {effect : Effect} (owned : worker.fiberOf branch = some g)
    (advanced : advance fiber branch stage act = some effect) {f : FiberId} {later : Stage}
    (on : (worker.after branch effect).On f later) : f = g ∧ effect.pc = .task later branch := by
  obtain ⟨other, running, holds⟩ := on
  have pc : effect.pc = .task later other := running
  rcases advance_pc advanced with ⟨stage, same, kept, _⟩ | ⟨same, _⟩
  · rw [same] at pc
    cases pc
    refine ⟨?_, same⟩
    rw [after_fiberOf kept, owned] at holds
    exact (Option.some.inj holds).symm
  · rw [same] at pc
    cases pc

/-- Places are added by schedule calls, and one by the construction of the fiber itself. -/
theorem step_places {tid : Fin n → Int} {s next : State n} {label : Label n}
    (stepped : step tid s label = some next) (f : FiberId) :
    places f next ≤ places f s + (label.wakes f +
      if f = s.nextFiber ∧ f < next.nextFiber then 1 else 0) := by
  cases label with
  | schedule caller fc thread =>
    obtain ⟨_, _, rfl⟩ := step_schedule stepped
    rw [places_accept, Label.wakes]
    omega
  | scheduleAll caller fcs =>
    obtain ⟨_, _, rfl⟩ := step_scheduleAll stepped
    rw [places_acceptAll, Label.wakes]
    omega
  | newFiber caller =>
    cases step_newFiber stepped
    exact Nat.le_add_right _ _
  | setAutoStop =>
    cases stepped
    exact Nat.le_add_right _ _
  | setStopping =>
    cases stepped
    exact Nat.le_add_right _ _
  | scan w =>
    obtain ⟨scanning, ⟨ft, left, picked, rfl⟩ | ⟨_, rfl⟩⟩ := step_scan stepped
    · have moved := queued_pick picked f
      refine places_le w _ rfl ?_
      simp only [Worker.refs, scanning, Pc.refs]
      omega
    · refine places_le w _ rfl ?_
      simp [Worker.refs, scanning, Pc.refs, State.setWorker]
  | branch w =>
    obtain ⟨g, thread, branching, rfl⟩ | ⟨c, thread, g, branching, _, _, rfl⟩ |
      ⟨c, thread, branching, unowned, rfl⟩ | ⟨branching, ⟨rfl, _⟩ | ⟨rfl, _⟩⟩ := step_branch stepped
    case inr.inr.inl =>
      refine places_le w _ rfl ?_
      rcases eq_or_ne f s.nextFiber with rfl | other
      · simp [Worker.refs, branching, unowned, Pc.refs, State.setWorker, State.setFiber]
      · simp [Worker.refs, branching, unowned, Pc.refs, State.setWorker, State.setFiber, other.symm]
    all_goals
      refine places_le w _ rfl ?_
      simp [Worker.refs, branching, Pc.refs, State.setWorker, State.setFiber]
  | task w act =>
    obtain ⟨stage, branch, g, effect, running, owned, advanced, rfl⟩ := step_task stepped
    have fewer := advance_refs running owned advanced f
    have queue : queued f (s.apply (tid w) w branch g effect).fibers =
        queued f s.fibers + if effect.requeues ∧ g = f then 1 else 0 := by
      cases requeues : effect.requeues <;> simp [State.apply, scheduleNoLock, requeues]
    refine places_le w _ rfl ?_
    rw [queue]
    omega
  | idle w ended =>
    obtain ⟨idling, rfl⟩ := step_idle stepped
    refine places_le w _ rfl ?_
    simp [Worker.refs, idling, Pc.refs, State.setWorker]

/-- A step that names no fiber adds no place to a constructed one. -/
theorem step_places_unnamed {tid : Fin n → Int} {s next : State n} {label : Label n}
    (stepped : step tid s label = some next) {f : FiberId} (unnamed : label.wakes f = 0)
    (old : f ≠ s.nextFiber ∨ next.nextFiber = s.nextFiber) : places f next ≤ places f s := by
  have bound := step_places stepped f
  have constructed : ¬ (f = s.nextFiber ∧ f < next.nextFiber) := by
    rintro ⟨rfl, fresh⟩
    rcases old with different | same
    · exact different rfl
    · exact absurd fresh (by rw [same]; exact Nat.lt_irrefl _)
  rw [unnamed, if_neg constructed] at bound
  exact bound

theorem step_nextFiber {tid : Fin n → Int} {s next : State n} {label : Label n}
    (stepped : step tid s label = some next) : s.nextFiber ≤ next.nextFiber := by
  cases label with
  | schedule caller fc thread =>
    obtain ⟨_, _, rfl⟩ := step_schedule stepped
    cases fc <;> exact Nat.le_refl _
  | scheduleAll caller fcs =>
    obtain ⟨_, _, rfl⟩ := step_scheduleAll stepped
    exact Nat.le_of_eq (acceptAll_nextFiber s fcs).symm
  | newFiber caller =>
    cases step_newFiber stepped
    exact Nat.le_succ _
  | setAutoStop =>
    cases stepped
    exact Nat.le_refl _
  | setStopping =>
    cases stepped
    exact Nat.le_refl _
  | scan w =>
    obtain ⟨_, ⟨_, _, _, rfl⟩ | ⟨_, rfl⟩⟩ := step_scan stepped <;> exact Nat.le_refl _
  | branch w =>
    obtain ⟨_, _, _, rfl⟩ | ⟨_, _, _, _, _, _, rfl⟩ | ⟨_, _, _, _, rfl⟩ |
      ⟨_, ⟨rfl, _⟩ | ⟨rfl, _⟩⟩ := step_branch stepped
    case inr.inr.inl => exact Nat.le_succ _
    all_goals exact Nat.le_refl _
  | task w act =>
    obtain ⟨_, _, _, _, _, _, _, rfl⟩ := step_task stepped
    exact Nat.le_refl _
  | idle w ended =>
    obtain ⟨_, rfl⟩ := step_idle stepped
    exact Nat.le_refl _

/-- A fiber that is not constructed yet cannot be named by a schedule call. -/
theorem wakes_unknown {tid : Fin n → Int} {s next : State n} {label : Label n}
    (stepped : step tid s label = some next) {f : FiberId} (unknown : s.nextFiber ≤ f) :
    label.wakes f = 0 := by
  have stranger (fc : Call) (known : s.knows fc = true) : fc.wakes f = 0 := by
    cases fc with
    | fiber g =>
      have older : g < s.nextFiber := of_decide_eq_true known
      exact if_neg (Nat.ne_of_lt (Nat.lt_of_lt_of_le older unknown))
    | callback => rfl
    | empty => rfl
  cases label with
  | schedule caller fc thread => exact stranger fc (step_schedule stepped).2.1
  | scheduleAll caller fcs =>
    rw [Label.wakes, List.sum_eq_zero_iff]
    intro wakes member
    obtain ⟨fc, given, rfl⟩ := List.mem_map.mp member
    exact stranger fc ((step_scheduleAll stepped).2.1 fc given)
  | _ => rfl

/-- Only constructed fibers have places. -/
def Known (s : State n) : Prop := ∀ f, s.nextFiber ≤ f → places f s = 0

theorem places_initial (f : FiberId) : places f (State.initial n) = 0 := by
  have none : held f (State.initial n) = 0 := (tally_eq_zero_iff _).mpr fun _ => rfl
  rw [places, none]
  rfl

theorem step_known {tid : Fin n → Int} {s next : State n} {label : Label n} (known : Known s)
    (stepped : step tid s label = some next) : Known next := by
  intro f unknown
  have older := Nat.le_trans (step_nextFiber stepped) unknown
  have bound := step_places stepped f
  have later : ¬ (f = s.nextFiber ∧ f < next.nextFiber) := fun fresh =>
    absurd fresh.2 (Nat.not_lt.mpr unknown)
  rw [known f older, wakes_unknown stepped older, if_neg later] at bound
  exact Nat.le_zero.mp bound

end HpsSf.Scheduler
