import HpsSf.Scheduler.Places

/-! Suspension and wake-up of fibers across workers.

A fiber that suspends itself stores its new state before its context is saved,
and the worker stores HOLD again after the switch. The scan only steps over
fibers in state EXEC, so a wake-up that reaches the queue in between lets a
second worker enter the fiber. Nothing of this can happen when a fiber is
rescheduled only while it has no place.
-/

set_option autoImplicit false

namespace HpsSf.Scheduler
open Foundation

variable {n : Nat}

/-- The worker is on the fiber's stack: entered, and `swapOut` not completed. -/
def Executing (s : State n) (w : Fin n) (f : FiberId) : Prop :=
  StageOn s w f .exec ∨ ∃ done, StageOn s w f (.leave done)

/-- The worker is inside `swapIn` of the fiber, before or after the switch. -/
def Entering (s : State n) (w : Fin n) (f : FiberId) : Prop :=
  StageOn s w f .enter ∨ StageOn s w f .switch

/-- No worker enters a fiber that another one is still on, and no worker is
about to store HOLD over the state of a fiber that another one runs. -/
structure SuspensionSafe (s : State n) : Prop where
  entry : ∀ w other f, w ≠ other → Executing s w f → ¬ (Entering s other f ∨ Executing s other f)
  holdWrite : ∀ w other f, w ≠ other → StageOn s w f .hold →
    ¬ (StageOn s other f .switch ∨ Executing s other f)

/-- Every fiber named by the step has no place yet, and is named once. -/
def WakesParked (s : State n) (label : Label n) : Prop :=
  ∀ f, 0 < label.wakes f → places f s + label.wakes f ≤ 1

/-- A fiber that is only rescheduled while parked has at most one place. -/
theorem places_le_one {tid : Fin n → Int} {s : State n}
    (reached : (machine tid).Reaches WakesParked s) : Known s ∧ ∀ f, places f s ≤ 1 := by
  refine machine_invariant (P := fun s => Known s ∧ ∀ f, places f s ≤ 1)
    ⟨fun f _ => places_initial f, fun f => by rw [places_initial]; exact Nat.zero_le 1⟩ ?_ reached
  rintro s label next ⟨known, single⟩ parked stepped
  refine ⟨step_known known stepped, fun f => ?_⟩
  have bound := step_places stepped f
  rcases Nat.lt_or_ge f s.nextFiber with old | new
  · rw [if_neg fun fresh => Nat.ne_of_lt old fresh.1] at bound
    rcases Nat.eq_zero_or_pos (label.wakes f) with unnamed | named
    · have := single f
      omega
    · have := parked f named
      omega
  · rw [known f new, wakes_unknown stepped new] at bound
    split at bound <;> omega

theorem Executing.refs_pos {s : State n} {w : Fin n} {f : FiberId} (on : Executing s w f) :
    0 < (s.worker w).refs f := by
  rcases on with on | ⟨_, on⟩ <;> exact on.refs_pos

theorem Entering.refs_pos {s : State n} {w : Fin n} {f : FiberId} (on : Entering s w f) :
    0 < (s.worker w).refs f := by
  rcases on with on | on <;> exact on.refs_pos

theorem suspensionSafe_of_single {s : State n} (single : ∀ f, places f s ≤ 1) :
    SuspensionSafe s where
  entry w other f distinct on := by
    have absent := refs_exclusive (single f) distinct on.refs_pos
    rintro (entering | executing)
    · exact absurd entering.refs_pos (by omega)
    · exact absurd executing.refs_pos (by omega)
  holdWrite w other f distinct on := by
    have absent := refs_exclusive (single f) distinct on.refs_pos
    rintro (switching | executing)
    · exact absurd switching.refs_pos (by omega)
    · exact absurd executing.refs_pos (by omega)

/-- In a pool of one worker, or when every fiber is rescheduled only while it is
in no queue entry and no worker holds it, suspension is safe in every run. -/
theorem suspension_safe {tid : Fin n → Int} {s : State n}
    (reached : (machine tid).Reaches (fun s label => n ≤ 1 ∨ WakesParked s label) s) :
    SuspensionSafe s := by
  rcases Nat.lt_or_ge 1 n with several | alone
  · have parked := reached.weaken fun s label condition =>
      condition.resolve_left (Nat.not_le.mpr several)
    exact suspensionSafe_of_single (places_le_one parked).2
  · have subsingleton (w other : Fin n) : w = other := Fin.ext (by omega)
    exact ⟨fun w other _ distinct => absurd (subsingleton w other) distinct,
      fun w other _ distinct => absurd (subsingleton w other) distinct⟩

/-- A sufficient test of `WakesParked` for replays. -/
def wakesParkedTest (s : State n) : Label n → Bool
  | .schedule _ (.fiber f) _ => places f s = 0
  | .scheduleAll _ fcs => fcs.all fun fc => fc == .callback
  | _ => true

theorem wakesParked_of_test {s : State n} {label : Label n} (passed : wakesParkedTest s label = true) :
    WakesParked s label := by
  intro f named
  cases label with
  | schedule caller fc thread =>
    cases fc with
    | fiber g =>
      have same : g = f := by
        by_contra different
        simp [Label.wakes, Call.wakes, different] at named
      have parked : places g s = 0 := of_decide_eq_true passed
      simp [Label.wakes, Call.wakes, same, ← parked]
    | callback => cases named
    | empty => cases named
  | scheduleAll caller fcs =>
    rw [Label.wakes, wakes_of_callbacks f passed] at named
    cases named
  | _ => cases named

def poolTid {n : Nat} (w : Fin n) : Int := w.val + 1

/-- Worker 0 suspends the fiber of a callback and finishes with it; then the
fiber is rescheduled and worker 1 runs it. -/
def resumedElsewhere : List (Label 2) :=
  [.schedule none .callback (-1), .scan 0, .branch 0, .task 0 .proceed, .task 0 .proceed,
   .task 0 .yieldToHold, .task 0 .proceed, .task 0 .proceed, .task 0 .proceed, .task 0 .proceed,
   .schedule none (.fiber 0) (-1), .scan 1, .branch 1, .task 1 .proceed, .task 1 .proceed]

theorem suspension_safe_resumedElsewhere :
    ∃ s, (machine (poolTid (n := 2))).Reaches (fun s label => 2 ≤ 1 ∨ WakesParked s label) s ∧
      StageOn s 1 0 .exec ∧ SuspensionSafe s := by
  obtain ⟨s, reached, test⟩ := System.reaches_test (machine (poolTid (n := 2)))
    (fun s label => 2 ≤ 1 ∨ WakesParked s label) wakesParkedTest
    (fun _ _ passed => .inr (wakesParked_of_test passed)) (State.initial 2) rfl resumedElsewhere
    (fun s => (s.worker 1).pc = .task .exec (.fiber 0)) (by decide)
  exact ⟨s, reached, ⟨_, of_decide_eq_true test, rfl⟩, suspension_safe reached⟩

/-- Worker 0 runs a callback on fiber 0. A timer callback on worker 1 reschedules
the fiber, worker 0 stores HOLD for it, and worker 1 enters it. -/
def overtaken : List (Label 2) :=
  [.schedule none .callback (-1), .scan 0, .branch 0, .task 0 .proceed, .task 0 .proceed,
   .scheduleAll none [.callback], .scan 1, .branch 1, .task 1 .proceed, .task 1 .proceed,
   .schedule (some 1) (.fiber 0) (-1), .task 1 .returns, .task 1 .proceed, .task 1 .proceed,
   .task 1 .proceed, .task 1 .proceed,
   .task 0 .yieldToHold,
   .scan 1, .branch 1, .task 1 .proceed, .task 1 .proceed]

/-- Worker 0 then comes back from its own `swapIn` and is about to store HOLD. -/
def overwritten : List (Label 2) :=
  overtaken ++ [.task 0 .proceed, .task 0 .proceed, .task 0 .proceed]

/-- Some run has two workers on one fiber, and some run stores HOLD over the
EXEC of a fiber that another worker runs. -/
theorem suspension_unsafe :
    (∃ s, (machine (poolTid (n := 2))).Reaches (fun _ _ => True) s ∧
      StageOn s 0 0 (.leave false) ∧ StageOn s 1 0 .exec ∧ ¬ SuspensionSafe s) ∧
    (∃ s, (machine (poolTid (n := 2))).Reaches (fun _ _ => True) s ∧
      StageOn s 0 0 .hold ∧ StageOn s 1 0 .exec ∧ (s.heap 0).state = .exec ∧ ¬ SuspensionSafe s) := by
  constructor
  · obtain ⟨s, reached, test⟩ := System.reaches_test (machine (poolTid (n := 2))) (fun _ _ => True)
      (fun _ _ => true) (fun _ _ _ => trivial) (State.initial 2) rfl overtaken
      (fun s => (s.worker 0).pc = .task (.leave false) .callback ∧ (s.worker 0).cbFiber = some 0 ∧
        (s.worker 1).pc = .task .exec (.fiber 0)) (by decide)
    obtain ⟨leaving, owned, running⟩ := of_decide_eq_true test
    have first : StageOn s 0 0 (.leave false) := ⟨_, leaving, owned⟩
    have second : StageOn s 1 0 .exec := ⟨_, running, rfl⟩
    exact ⟨s, reached, first, second, fun safe =>
      safe.entry 0 1 0 (by decide) (.inr ⟨_, first⟩) (.inr (.inl second))⟩
  · obtain ⟨s, reached, test⟩ := System.reaches_test (machine (poolTid (n := 2))) (fun _ _ => True)
      (fun _ _ => true) (fun _ _ _ => trivial) (State.initial 2) rfl overwritten
      (fun s => (s.worker 0).pc = .task .hold .callback ∧ (s.worker 0).cbFiber = some 0 ∧
        (s.worker 1).pc = .task .exec (.fiber 0) ∧ (s.heap 0).state = .exec) (by decide)
    obtain ⟨holding, owned, running, executing⟩ := of_decide_eq_true test
    have first : StageOn s 0 0 .hold := ⟨_, holding, owned⟩
    have second : StageOn s 1 0 .exec := ⟨_, running, rfl⟩
    exact ⟨s, reached, first, second, executing, fun safe =>
      safe.holdWrite 0 1 0 (by decide) first (.inr (.inl second))⟩

end HpsSf.Scheduler
