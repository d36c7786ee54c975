import HpsSf.Foundation.Tally
import HpsSf.Scheduler.Machine

/-! What one step can do to the active count and to the places of a fiber.

A place of a fiber is a queue entry or a variable of `run` that holds it. Only a
schedule call adds a place to an existing fiber; every other step moves or drops one.
-/

set_option autoImplicit false

namespace HpsSf.Scheduler
open Foundation

variable {n : Nat}

/-! ## The active count -/

/-- Between taking an entry and the decrement of `m_activeThreadCount`. -/
def Stage.active : Stage → Bool
  | .enter | .switch | .exec | .leave _ | .back => true
  | .settle | .requeue | .hold | .recycle => false

def Pc.active : Pc → Bool
  | .branch ft => ft.isSome
  | .task stage _ => stage.active
  | .scan | .idle | .exited => false

def activeWorkers (s : State n) : Nat := tally fun w => (s.worker w).pc.active.toNat

theorem activeWorkers_le (s : State n) : activeWorkers s ≤ n := by
  have bound := tally_le_card (fun w => (s.worker w).pc.active.toNat)
    fun w => Bool.toNat_le _
  rwa [Fintype.card_fin] at bound

theorem activeWorkers_eq_zero_iff (s : State n) :
    activeWorkers s = 0 ↔ ∀ w, (s.worker w).pc.active = false := by
  rw [activeWorkers, tally_eq_zero_iff]
  exact forall_congr' fun w => Bool.toNat_eq_zero

/-- A worker that replaces its own record changes the count by its own difference. -/
theorem activeWorkers_update (s next : State n) (w : Fin n) (self : Worker)
    (same : next.worker = Function.update s.worker w self) :
    activeWorkers next + (s.worker w).pc.active.toNat = activeWorkers s + self.pc.active.toNat := by
  rw [activeWorkers, same]
  exact tally_update (fun worker : Worker => worker.pc.active.toNat) s.worker w self

theorem accept_worker (s : State n) (thread : Int) (fc : Call) :
    (s.accept thread fc).worker = s.worker := by
  cases fc <;> rfl

theorem accept_active (s : State n) (thread : Int) (fc : Call) :
    (s.accept thread fc).activeThreadCount = s.activeThreadCount := by
  cases fc <;> rfl

theorem accept_heap (s : State n) (thread : Int) (fc : Call) : (s.accept thread fc).heap = s.heap := by
  cases fc <;> rfl

theorem accept_nextFiber (s : State n) (thread : Int) (fc : Call) :
    (s.accept thread fc).nextFiber = s.nextFiber := by
  cases fc <;> rfl

/-- What one entry leaves alone, a batch leaves alone. -/
theorem acceptAll_keeps {α : Type} {field : State n → α}
    (kept : ∀ s thread fc, field (s.accept thread fc) = field s) (s : State n) (fcs : List Call) :
    field (fcs.foldl (fun s fc => s.accept (-1) fc) s) = field s := by
  induction fcs generalizing s with
  | nil => rfl
  | cons fc rest ih => rw [List.foldl_cons, ih, kept]

theorem acceptAll_worker (s : State n) (fcs : List Call) :
    (fcs.foldl (fun s fc => s.accept (-1) fc) s).worker = s.worker :=
  acceptAll_keeps accept_worker s fcs

theorem acceptAll_active (s : State n) (fcs : List Call) :
    (fcs.foldl (fun s fc => s.accept (-1) fc) s).activeThreadCount = s.activeThreadCount :=
  acceptAll_keeps accept_active s fcs

theorem acceptAll_heap (s : State n) (fcs : List Call) :
    (fcs.foldl (fun s fc => s.accept (-1) fc) s).heap = s.heap :=
  acceptAll_keeps accept_heap s fcs

theorem acceptAll_nextFiber (s : State n) (fcs : List Call) :
    (fcs.foldl (fun s fc => s.accept (-1) fc) s).nextFiber = s.nextFiber :=
  acceptAll_keeps accept_nextFiber s fcs

/-- The step that leaves the counted part of the loop body is the one that decrements. -/
theorem advance_active {fiber : Fiber} {branch : Branch} {stage : Stage} {act : Act} {effect : Effect}
    (advanced : advance fiber branch stage act = some effect) :
    stage.active.toNat = effect.pc.active.toNat + effect.decrements.toNat := by
  cases stage <;> cases act <;> simp only [advance, reduceCtorEq] at advanced
  case enter.proceed =>
    split at advanced <;> cases advanced
    rfl
  case switch.proceed => split at advanced <;> cases advanced <;> rfl
  case settle.proceed =>
    split at advanced <;> try (cases advanced; rfl)
    all_goals split at advanced <;> cases advanced <;> rfl
  case recycle.proceed =>
    obtain ⟨_, _, rfl⟩ := Option.map_eq_some_iff.mp advanced
    rfl
  all_goals
    cases advanced
    rfl

/-- `m_activeThreadCount` follows the number of workers that have taken an entry. -/
def Counted (s : State n) : Prop := s.activeThreadCount = wrap64 (activeWorkers s)

theorem counted_initial : Counted (State.initial n) := by
  have none : activeWorkers (State.initial n) = 0 := (activeWorkers_eq_zero_iff _).mpr fun _ => rfl
  rw [Counted, none]
  rfl

theorem Counted.of_same {s next : State n} (counted : Counted s)
    (workers : ∀ w, (next.worker w).pc.active = (s.worker w).pc.active)
    (count : next.activeThreadCount = s.activeThreadCount) : Counted next := by
  have same : activeWorkers next = activeWorkers s :=
    tally_congr fun w => congrArg Bool.toNat (workers w)
  rw [Counted, count, same]
  exact counted

/-- A worker moves between program points that are counted alike. -/
theorem Counted.move {s next : State n} (counted : Counted s) (w : Fin n) (self : Worker)
    (worker : next.worker = Function.update s.worker w self)
    (alike : self.pc.active = (s.worker w).pc.active)
    (count : next.activeThreadCount = s.activeThreadCount) : Counted next := by
  have change := activeWorkers_update s next w self worker
  rw [alike] at change
  have same : activeWorkers next = activeWorkers s := by omega
  rw [Counted, count, same]
  exact counted

theorem Counted.enters {s next : State n} (counted : Counted s) (w : Fin n) (self : Worker)
    (worker : next.worker = Function.update s.worker w self)
    (before : (s.worker w).pc.active = false) (after : self.pc.active = true)
    (count : next.activeThreadCount = incr64 s.activeThreadCount) : Counted next := by
  have change := activeWorkers_update s next w self worker
  rw [before, after] at change
  have more : activeWorkers next = activeWorkers s + 1 := change
  rw [Counted, count, counted, more]
  exact incr64_wrap64 _

theorem Counted.leaves {s next : State n} (counted : Counted s) (w : Fin n) (self : Worker)
    (worker : next.worker = Function.update s.worker w self)
    (before : (s.worker w).pc.active = true) (after : self.pc.active = false)
    (count : next.activeThreadCount = decr64 s.activeThreadCount) : Counted next := by
  have change := activeWorkers_update s next w self worker
  rw [before, after] at change
  have fewer : activeWorkers s = activeWorkers next + 1 := change.symm
  rw [Counted, count, counted, fewer]
  exact decr64_wrap64 _

theorem step_counted {tid : Fin n → Int} {s next : State n} {label : Label n} (counted : Counted s)
    (stepped : step tid s label = some next) : Counted next := by
  cases label with
  | schedule caller fc thread =>
    obtain ⟨_, _, rfl⟩ := step_schedule stepped
    exact counted.of_same (fun w => by rw [accept_worker]) (accept_active _ _ _)
  | scheduleAll caller fcs =>
    obtain ⟨_, _, rfl⟩ := step_scheduleAll stepped
    exact counted.of_same (fun w => by rw [acceptAll_worker]) (acceptAll_active _ _)
  | newFiber caller =>
    cases step_newFiber stepped
    exact counted.of_same (fun _ => rfl) rfl
  | setAutoStop =>
    cases stepped
    exact counted.of_same (fun _ => rfl) rfl
  | setStopping =>
    cases stepped
    exact counted.of_same (fun _ => rfl) rfl
  | scan w =>
    obtain ⟨scanning, ⟨ft, left, _, rfl⟩ | ⟨_, rfl⟩⟩ := step_scan stepped
    · exact counted.enters w _ rfl (by rw [scanning]; rfl) rfl rfl
    · exact counted.move w _ rfl (by rw [scanning]; rfl) rfl
  | branch w =>
    obtain ⟨f, thread, branching, rfl⟩ | ⟨c, thread, f, branching, _, _, rfl⟩ |
      ⟨c, thread, branching, _, rfl⟩ | ⟨branching, ⟨rfl, _⟩ | ⟨rfl, _⟩⟩ := step_branch stepped
    all_goals exact counted.move w _ rfl (by rw [branching]; rfl) rfl
  | task w act =>
    obtain ⟨stage, branch, f, effect, running, _, advanced, rfl⟩ := step_task stepped
    have shift := advance_active advanced
    have before : (s.worker w).pc.active = stage.active := by rw [running]; rfl
    cases dec : effect.decrements with
    | true =>
      rw [dec, Bool.toNat_true] at shift
      have bound := Bool.toNat_le stage.active
      have inside : stage.active = true := Bool.toNat_eq_one.mp (by omega)
      have outside : effect.pc.active = false := Bool.toNat_eq_zero.mp (by omega)
      exact counted.leaves w _ rfl (before.trans inside) outside (by simp [State.apply, dec])
    | false =>
      have alike : effect.pc.active = (s.worker w).pc.active := by
        rw [before]
        cases inside : stage.active <;> cases after : effect.pc.active <;>
          simp [dec, inside, after] at shift ⊢
      exact counted.move w _ rfl alike (by simp [State.apply, dec])
  | idle w ended =>
    obtain ⟨idling, rfl⟩ := step_idle stepped
    exact counted.move w _ rfl (by rw [idling]; rfl) rfl

/-- In every run the counter is the number of workers between taking an entry and decrementing. -/
theorem active_count {tid : Fin n → Int} (small : n < 2 ^ 64) {allowed : State n → Label n → Prop}
    {s : State n} (reached : (machine tid).Reaches allowed s) :
    s.activeThreadCount = activeWorkers s := by
  have counted : Counted s :=
    machine_invariant counted_initial (fun _ _ _ counted _ => step_counted counted) reached
  exact counted.trans (wrap64_of_lt (Nat.lt_of_le_of_lt (activeWorkers_le s) small))

end HpsSf.Scheduler
