import HpsSf.Timer.Expiry

/-! A timer whose deadline was missed, and the timers behind it, are never collected again.

The scan goes on as long as the deadlines are the clock reading itself. A timer that
it meets with an earlier deadline stops it, and stays where it is, so that it stops
every later scan at the same place, whatever is added, cancelled or fired elsewhere.
-/

set_option autoImplicit false

namespace HpsSf.TimerManager
open Foundation (System add64)
open Foundation.SearchTree (Shape)

variable {C : Type} {m next : TimerManager C} {stuck : List Addr}

/-- The clock is not read before this time, and no call is on one of these timers. -/
def Leaves (since : Nat) (stuck : List Addr) (_ : TimerManager C) (label : Label C) : Prop :=
  (∀ now, Timed.reading label = some now → since ≤ now) ∧
    match label with
    | .cancel _ a | .refresh _ _ a | .reset _ _ a _ _ => a ∉ stuck
    | .addTimer .. | .getNextTimer _ | .listExpiredCb .. | .release _ => True

/-- What is stuck is stuck in its order, and no deadline of it has changed. -/
structure Stuck (before : TimerManager C) (stuck : List Addr) (m : TimerManager C) : Prop where
  shaped : Ordered unordered m
  timers : stuck.Sublist m.timers
  heap : ∀ u ∈ stuck, m.heap u = before.heap u

theorem erase_sublist {timers : List Addr} (held : stuck.Sublist timers) {it : Addr} (other : it ∉ stuck) :
    stuck.Sublist (timers.erase it) := by
  have erased := held.erase it
  rwa [List.erase_of_not_mem other] at erased

/-- What begins with an element at which the front ends is behind the front. -/
theorem sublist_dropWhile {p : Addr → Bool} {a : Addr} {rest timers : List Addr}
    (held : (a :: rest).Sublist timers) (ends : p a = false) :
    (a :: rest).Sublist (timers.dropWhile p) := by
  induction timers with
  | nil => cases held
  | cons u timers ih =>
    cases passes : p u with
    | false =>
      rw [List.dropWhile_cons_of_neg (by simp [passes])]
      exact held
    | true =>
      rw [List.dropWhile_cons_of_pos passes]
      cases held with
      | cons _ later => exact ih later
      | cons_cons => cases ends.symm.trans passes

theorem fire_sublist (shape : Shape Addr) (now : Nat) {expired : List Addr}
    (held : stuck.Sublist m.timers) :
    stuck.Sublist (fire shape now expired m).2.timers := by
  induction expired generalizing m with
  | nil => exact held
  | cons a rest ih =>
    unfold fire
    split
    next => exact ih held
    next timer _ =>
      refine ih ?_
      split
      · exact held.trans (shape.sublist_insert a m.timers)
      · exact held

section
variable {before : TimerManager C} {a : Addr} {rest : List Addr} {since : Nat}

theorem Stuck.unexpired (held : Stuck before (a :: rest) m) (overdue : before.deadline a < since)
    {now : Nat} (later : since ≤ now) :
    (a :: rest).Sublist (m.unexpired now) ∧ ∀ u ∈ a :: rest, u ∉ m.expired now := by
  have same : m.deadline a = before.deadline a := by rw [deadline, held.heap a (List.mem_cons_self ..), deadline]
  have behind : (a :: rest).Sublist (m.unexpired now) :=
    sublist_dropWhile held.timers (by simp only [beq_eq_false_iff_ne, same]; omega)
  exact ⟨behind, fun u member due => (held.shaped.expired_apart now).2 u due (behind.subset member)⟩

theorem Stuck.written (held : Stuck before stuck m) {u : Addr} (other : u ∉ stuck) (timer : Timer C)
    (v : Addr) (member : v ∈ stuck) : (m.write u timer).heap v = before.heap v := by
  have distinct : v ≠ u := ne_of_mem_of_not_mem member other
  simpa [TimerManager.write, distinct] using held.heap v member

theorem Stuck.step {label : Label C} (held : Stuck before (a :: rest) m)
    (overdue : before.deadline a < since) (leaves : Leaves since (a :: rest) m label)
    (stepped : m.step label = some next) : Stuck before (a :: rest) next := by
  have shaped := step_ordered held.shaped (agree_unordered _ _) stepped
  cases label with
  | addTimer shape now u ms cb recurring =>
    obtain ⟨free, rfl⟩ := addTimer_ok stepped
    have other : u ∉ a :: rest := fun member => held.shaped.absent free (held.timers.subset member)
    exact ⟨shaped, held.timers.trans (shape.sublist_insert u m.timers), held.written other _⟩
  | cancel shape u =>
    obtain ⟨outcome, called, rfl⟩ := answered_of_step stepped
    obtain ⟨timer, found, rfl | ⟨it, located, rfl⟩⟩ := cancel_ok called
    · exact held
    · have cleared : Ordered unordered (m.write u { timer with cb := none }) :=
        held.shaped.write (held.shaped.small u timer found) (.inr (by simp [deadline, found]))
      obtain ⟨rfl, -⟩ := cleared.find_eq (by simp [TimerManager.write]) located
      exact ⟨shaped, erase_sublist held.timers leaves.2, held.written leaves.2 _⟩
  | refresh shape now u =>
    obtain ⟨outcome, called, rfl⟩ := answered_of_step stepped
    obtain ⟨timer, found, rfl | ⟨-, it, located, rfl⟩⟩ := refresh_ok called
    · exact held
    · obtain ⟨rfl, -⟩ := held.shaped.find_eq (by simp [found]) located
      exact ⟨shaped, (erase_sublist held.timers leaves.2).trans (shape.sublist_insert it _), held.written leaves.2 _⟩
  | reset shape now u ms fromNow =>
    obtain ⟨outcome, called, rfl⟩ := answered_of_step stepped
    obtain ⟨timer, found, ⟨-, -, rfl⟩ | rfl | ⟨-, it, located, rfl⟩⟩ := reset_ok called
    · exact held
    · exact held
    · obtain ⟨rfl, -⟩ := held.shaped.find_eq (by simp [found]) located
      exact ⟨shaped, (erase_sublist held.timers leaves.2).trans (shape.sublist_insert it _), held.written leaves.2 _⟩
  | getNextTimer now =>
    cases stepped
    exact ⟨shaped, held.timers, held.heap⟩
  | listExpiredCb shape now =>
    cases stepped
    obtain ⟨behind, out⟩ := held.unexpired overdue (leaves.1 now rfl)
    refine ⟨shaped, fire_sublist shape now behind, fun u member => ?_⟩
    have kept := fire_heap (m := { m with timers := m.unexpired now }) shape now (held.shaped.expired_apart now).1 u
    rw [if_neg (out u member)] at kept
    exact kept.trans (held.heap u member)
  | release u =>
    obtain ⟨out, rfl⟩ := release_ok stepped
    refine ⟨shaped, held.timers, fun v member => ?_⟩
    have distinct : v ≠ u := fun same => out (same ▸ held.timers.subset member)
    simpa [distinct] using held.heap v member

end

/-- In every run a timer that is still in the set behind its deadline stays there, with all those behind
it in the order of the set, and no scan collects any of them, until one of them is cancelled or set anew. -/
theorem never_collected (reached : (machine C).Reaches (fun _ _ => True) m) {a : Addr}
    {rest : List Addr} (held : (a :: rest).Sublist m.timers) {since : Nat}
    (overdue : m.deadline a < since) {later : TimerManager C}
    (path : (machine C).Path (Leaves since (a :: rest)) m later) :
    (a :: rest).Sublist later.timers ∧ (∀ u ∈ a :: rest, later.heap u = m.heap u) ∧
      ∀ now, since ≤ now → ∀ u ∈ a :: rest, u ∉ later.expired now := by
  have shaped : Ordered unordered m := ordered_of_reaches (reached.weaken fun _ _ _ => agree_unordered _ _)
  have stuck : Stuck m (a :: rest) later :=
    path.invariant (fun m label next held leaves stepped => held.step overdue leaves stepped)
      ⟨shaped, held, fun _ _ => rfl⟩
  exact ⟨stuck.timers, stuck.heap, fun now passed => (stuck.unexpired overdue passed).2⟩

/-- The clock passes the first deadline by one unread millisecond. A timer that is added later fires,
as its address puts it to the front; the one that is due at 101 does not. -/
theorem never_collected_missed :
    ∃ m later : TimerManager Unit, (machine Unit).Reaches (fun _ _ => True) m ∧ m.timers = [5, 9] ∧
      m.deadline 9 = 101 ∧ (machine Unit).Path (Leaves 12 [5, 9]) m later ∧
      (later.listExpiredCb .spine 101).1 = [some ()] ∧ later.expired 101 = [3] ∧
        ∀ now, 12 ≤ now → ∀ u ∈ [5, 9], u ∉ later.expired now := by
  obtain ⟨m, reached, test⟩ := System.reaches_test (machine Unit) (fun _ _ => True) (fun _ _ => true)
    (fun _ _ _ => trivial) initial rfl
    [.addTimer .spine 1 5 10 (some ()) false, .addTimer .spine 1 9 100 (some ()) false]
    (fun m => m.timers = [5, 9] ∧ m.deadline 5 = 11 ∧ m.deadline 9 = 101 ∧
      (m.step (.addTimer .spine 12 3 89 (some ()) false)).any fun later =>
        (later.listExpiredCb .spine 101).1 = [some ()] ∧ later.expired 101 = [3]) (by decide)
  obtain ⟨timers, first, second, after⟩ := of_decide_eq_true test
  obtain ⟨later, stepped, fires⟩ := (Option.any_eq_true _ _).mp after
  obtain ⟨returned, expired⟩ := of_decide_eq_true fires
  have moved : (machine Unit).step m (.addTimer .spine 12 3 89 (some ()) false) = some later := stepped
  have leaves : Leaves 12 [5, 9] m (.addTimer .spine 12 3 89 (some ()) false) := by
    refine ⟨fun now same => ?_, trivial⟩
    cases same
    exact Nat.le_refl 12
  have path : (machine Unit).Path (Leaves 12 [5, 9]) m later := .step .here leaves moved
  obtain ⟨-, -, never⟩ := never_collected reached (by rw [timers]) (by rw [first]; decide) path
  exact ⟨m, later, reached, timers, second, path, returned, expired, never⟩

end HpsSf.TimerManager
