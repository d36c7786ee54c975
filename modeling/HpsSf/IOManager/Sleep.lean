import HpsSf.IOManager.Hook
import HpsSf.Timer.Manager

/-! The timers that the hooked `sleep` and `usleep` arm.

The interval is computed in the 32 bits of the argument before it is widened, by
a product for seconds and by a truncating division for microseconds.
-/

set_option autoImplicit false

namespace HpsSf.Hook
open Foundation (System add64 wrap64_of_lt)
open Foundation.SearchTree (Shape)

/-- A call of a hook with its argument, `unsigned int` or `useconds_t`. -/
inductive Pause where
  | sleep (seconds : BitVec 32)
  | usleep (usec : BitVec 32)
  deriving DecidableEq

/-- The interval passed to `addTimer`, in milliseconds. -/
def Pause.ms : Pause → Nat
  | .sleep seconds => (seconds * 1000).toNat
  | .usleep usec => (usec / 1000).toNat

/-- What is asked for, in microseconds. -/
def Pause.micros : Pause → Nat
  | .sleep seconds => seconds.toNat * 1000 * 1000
  | .usleep usec => usec.toNat

/-- The interval is exact, and the deadline is a 64-bit number. -/
def Pause.Fits (now : Nat) : Pause → Prop
  | .sleep seconds => seconds.toNat * 1000 < 2 ^ 32 ∧ now + seconds.toNat * 1000 < 2 ^ 64
  | .usleep usec => 1000 ∣ usec.toNat ∧ now + usec.toNat / 1000 < 2 ^ 64

instance (now : Nat) : (p : Pause) → Decidable (p.Fits now)
  | .sleep _ => inferInstanceAs (Decidable (_ ∧ _))
  | .usleep _ => inferInstanceAs (Decidable (_ ∧ _))

/-- How a call goes on. -/
inductive Paused where
  /-- `sleep_f` or `usleep_f`. -/
  | original
  /-- The timer is armed, and the fiber yields until it is scheduled. -/
  | held (timers : TimerManager Ref)
  /-- `addTimer` on a null pointer. -/
  | crashed

/-- `sleep` and `usleep`; the timer is new at the address, and its callback schedules the fiber. -/
def Locals.pause (s : Locals) (timers : TimerManager Ref) (shape : Shape Addr) (now : Nat) (a : Addr) (p : Pause) :
    Paused :=
  if s.t_hook_enable then
    let fiber := s.t_fiber.getD .main
    match s.ioManager with
    | some _ => .held (timers.addTimer shape now a p.ms (some fiber) false).after
    | none => .crashed
  else .original

/-! ## The deadline -/

theorem Pause.ms_sleep (seconds : BitVec 32) : (sleep seconds).ms = seconds.toNat * 1000 % 2 ^ 32 :=
  BitVec.toNat_mul ..

theorem Pause.ms_usleep (usec : BitVec 32) : (usleep usec).ms = usec.toNat / 1000 := BitVec.toNat_udiv

/-- A wrapped sum is early, as both parts are below the modulus. -/
theorem le_add64_iff {now ms : Nat} (reading : now < 2 ^ 64) (small : ms < 2 ^ 32) :
    now + ms ≤ add64 now ms ↔ now + ms < 2 ^ 64 := by
  have wrapped : add64 now ms = (now + ms) % 2 ^ 64 := rfl
  omega

/-- The sum is late enough exactly when the interval is exact and the sum does not wrap. -/
theorem Pause.le_add64_iff {now : Nat} (reading : now < 2 ^ 64) (p : Pause) :
    1000 * now + p.micros ≤ 1000 * add64 now p.ms ↔ p.Fits now := by
  have small : p.ms < 2 ^ 32 := by cases p <;> exact BitVec.isLt _
  have most : add64 now p.ms ≤ now + p.ms := Nat.mod_le ..
  have whole := Hook.le_add64_iff reading small
  cases p with
  | sleep seconds =>
    rw [ms_sleep] at small most whole ⊢
    rw [micros, Fits]
    by_cases exact : seconds.toNat * 1000 < 2 ^ 32
    · rw [Nat.mod_eq_of_lt exact] at whole ⊢
      omega
    · have lost : seconds.toNat * 1000 % 2 ^ 32 < seconds.toNat * 1000 := by omega
      omega
  | usleep usec =>
    rw [ms_usleep] at small most whole ⊢
    rw [micros, Fits]
    omega

end HpsSf.Hook

namespace HpsSf.TimerManager
open Foundation.SearchTree (Shape)

variable {C : Type} {m next : TimerManager C} {a : Addr} {deadline : Nat}

/-- Nobody has the pointer that `addTimer` has returned, and the timer is not freed yet. -/
def LeavesAlone (a : Addr) : Label C → Prop
  | .cancel _ b | .refresh _ _ b | .reset _ _ b _ _ | .release b => b ≠ a
  | _ => True

/-- The timer at the address fires once, at this deadline. -/
def Once (m : TimerManager C) (a : Addr) (deadline : Nat) : Prop :=
  ∃ timer, m.heap a = some timer ∧ timer.next = deadline ∧ timer.recurring = false

theorem Once.of_heap (once : m.Once a deadline) (same : next.heap a = m.heap a) : next.Once a deadline := by
  obtain ⟨timer, here, facts⟩ := once
  exact ⟨timer, same.trans here, facts⟩

theorem Once.write (once : m.Once a deadline) {b : Addr} (other : b ≠ a) (timer : Timer C) :
    (m.write b timer).Once a deadline :=
  once.of_heap (Function.update_of_ne other.symm ..)

theorem Once.deadline_eq (once : m.Once a deadline) : m.deadline a = deadline := by
  obtain ⟨timer, here, next, -⟩ := once
  rw [TimerManager.deadline, here]
  exact next

theorem Once.fire (once : m.Once a deadline) (shape : Shape Addr) (now : Nat) (expired : List Addr) :
    (fire shape now expired m).2.Once a deadline := by
  induction expired generalizing m with
  | nil => exact once
  | cons b rest ih =>
    unfold TimerManager.fire
    split
    next => exact ih once
    next timer found =>
      refine ih ?_
      obtain rfl | other := eq_or_ne b a
      · obtain ⟨timer', here, next, single⟩ := once
        cases found.symm.trans here
        rw [if_neg (by simp [single])]
        exact ⟨{ timer with cb := none }, Function.update_self .., next, single⟩
      · split
        · exact (once.write other _).of_heap rfl
        · exact once.write other _

section Calls

variable {shape : Shape Addr} {b u : Addr} {now ms : Nat} {fromNow : Bool} {outcome : Outcome C}

theorem cancel_heap_of_ne (called : m.cancel shape b = .ok outcome) (other : u ≠ b) :
    outcome.after.heap u = m.heap u := by
  obtain ⟨timer, -, rfl | ⟨it, -, rfl⟩⟩ := cancel_ok called
  · rfl
  · exact Function.update_of_ne other ..

theorem refresh_heap_of_ne (called : m.refresh shape now b = .ok outcome) (other : u ≠ b) :
    outcome.after.heap u = m.heap u := by
  obtain ⟨timer, -, rfl | ⟨-, it, -, rfl⟩⟩ := refresh_ok called
  · rfl
  · exact Function.update_of_ne other ..

theorem reset_heap_of_ne (called : m.reset shape now b ms fromNow = .ok outcome) (other : u ≠ b) :
    outcome.after.heap u = m.heap u := by
  obtain ⟨timer, -, ⟨-, -, rfl⟩ | rfl | ⟨-, it, -, rfl⟩⟩ := reset_ok called
  · rfl
  · rfl
  · exact Function.update_of_ne other ..

end Calls

theorem Once.step (once : m.Once a deadline) {label : Label C} (alone : LeavesAlone a label)
    (stepped : m.step label = some next) : next.Once a deadline := by
  cases label with
  | addTimer shape now b ms cb recurring =>
    obtain ⟨free, rfl⟩ := addTimer_ok stepped
    have other : b ≠ a := by
      rintro rfl
      obtain ⟨timer, here, -⟩ := once
      cases free.symm.trans here
    exact (once.write other _).of_heap rfl
  | cancel shape b =>
    obtain ⟨outcome, called, rfl⟩ := answered_of_step stepped
    exact once.of_heap (cancel_heap_of_ne called (Ne.symm alone))
  | refresh shape now b =>
    obtain ⟨outcome, called, rfl⟩ := answered_of_step stepped
    exact once.of_heap (refresh_heap_of_ne called (Ne.symm alone))
  | reset shape now b ms fromNow =>
    obtain ⟨outcome, called, rfl⟩ := answered_of_step stepped
    exact once.of_heap (reset_heap_of_ne called (Ne.symm alone))
  | getNextTimer now =>
    cases stepped
    exact once.of_heap rfl
  | listExpiredCb shape now =>
    cases stepped
    have unscanned : Once { m with timers := m.unexpired now } a deadline := once.of_heap rfl
    exact unscanned.fire shape now _
  | release b =>
    obtain ⟨-, rfl⟩ := release_ok stepped
    exact once.of_heap (Function.update_of_ne (Ne.symm alone) ..)

/-- A scan returns the callback at the deadline and at no other reading. -/
theorem Once.collected (once : m.Once a deadline) (path : (machine C).Path (fun _ => LeavesAlone a) m next) {now : Nat}
    (member : a ∈ next.expired now) : now = deadline := by
  have kept : next.Once a deadline :=
    path.invariant (P := fun m => m.Once a deadline) (fun _ _ _ once alone stepped => once.step alone stepped) once
  exact (mem_expired member).symm.trans kept.deadline_eq

end HpsSf.TimerManager

namespace HpsSf.Hook
open Foundation (System add64)
open Foundation.SearchTree (Shape)
open TimerManager (LeavesAlone Once)

/-- The deadline is not before the end of the pause, and no scan returns the callback before it. -/
structure InTime (p : Pause) (now : Nat) (a : Addr) (armed : TimerManager Ref) : Prop where
  deadline : 1000 * now + p.micros ≤ 1000 * armed.deadline a
  scheduled : ∀ later, (TimerManager.machine Ref).Path (fun _ => LeavesAlone a) armed later →
    ∀ t, a ∈ later.expired t → 1000 * now + p.micros ≤ 1000 * t

theorem addTimer_once (timers : TimerManager Ref) (shape : Shape Addr) (now : Nat) (a : Addr) (ms : Nat)
    (cb : Option Ref) :
    (timers.addTimer shape now a ms cb false).after.Once a (add64 now ms) :=
  ⟨_, Function.update_self .., rfl, rfl⟩

/-- A pause on a worker is not cut short exactly when its interval fits. -/
theorem pause_inTime_iff {s : Locals} (enabled : s.t_hook_enable = true) (worker : s.ioManager.isSome = true)
    (timers : TimerManager Ref) (shape : Shape Addr) {now : Nat} (reading : now < 2 ^ 64) (a : Addr) (p : Pause) :
    (∃ armed, s.pause timers shape now a p = .held armed ∧ InTime p now a armed) ↔ p.Fits now := by
  obtain ⟨k, manager⟩ := Option.isSome_iff_exists.mp worker
  have held : s.pause timers shape now a p =
      .held (timers.addTimer shape now a p.ms (some (s.t_fiber.getD .main)) false).after := by
    simp [Locals.pause, enabled, manager]
  have once := addTimer_once timers shape now a p.ms (some (s.t_fiber.getD .main))
  rw [← p.le_add64_iff reading]
  constructor
  · rintro ⟨armed, same, inTime⟩
    cases held.symm.trans same
    have late := inTime.deadline
    rwa [once.deadline_eq] at late
  · intro late
    refine ⟨_, held, by rwa [once.deadline_eq], fun later path t member => ?_⟩
    rwa [once.collected path member]

/-- A fiber on a worker of an IO manager. -/
def worker : Locals :=
  { t_hook_enable := true, t_scheduler := some 0, t_scheduler_fiber := some .main, t_fiber := some (.task 1)
    schedulers := fun k => if k = 0 then some ⟨.ioManager, none⟩ else none, phase := .task 0 .main }

theorem pause_inTime_iff_day :
    ∃ armed, worker.pause .initial .spine 1 5 (.sleep 86400) = .held armed ∧ InTime (.sleep 86400) 1 5 armed :=
  (pause_inTime_iff rfl rfl .initial .spine (by decide) 5 (.sleep 86400)).mpr (by decide)

theorem worker_reached : Locals.machine.Reaches (fun _ _ => True) worker := by
  have run : Locals.machine.Reaches (fun _ _ => True) _ := .step (.start (Locals.begins_poolThread .ioManager)) trivial
    (show Locals.machine.step (Locals.poolThread .ioManager) .run = some _ from rfl)
  exact .step run trivial (show Locals.machine.step _ (.swapIn 1) = some worker from rfl)

/-- Fifty days are over at once, and so is a millisecond less a microsecond. -/
theorem sleep_cut_short : Locals.machine.Reaches (fun _ _ => True) worker ∧
    (∃ armed, worker.pause .initial .spine 1 5 (.sleep 4294968) = .held armed ∧ armed.deadline 5 = 705 ∧
      5 ∈ armed.expired 705 ∧ ¬ InTime (.sleep 4294968) 1 5 armed) ∧
    ∃ armed, worker.pause .initial .spine 1 5 (.usleep 999) = .held armed ∧ armed.deadline 5 = 1 ∧
      5 ∈ armed.expired 1 ∧ ¬ InTime (.usleep 999) 1 5 armed := by
  refine ⟨worker_reached, ⟨_, rfl, by decide, by decide, fun inTime => ?_⟩,
    ⟨_, rfl, by decide, by decide, fun inTime => ?_⟩⟩
  · exact absurd inTime.deadline (by decide)
  · exact absurd inTime.deadline (by decide)

end HpsSf.Hook
