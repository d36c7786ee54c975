import HpsSf.Timer.Periods

/-! What a scan for expired timers collects.

The scan stops at the first timer whose deadline is not the clock reading, so it
takes all that is due only when nothing is overdue and what is due comes first.
An overdue timer at the front is never taken again, and holds up all others.
-/

set_option autoImplicit false

namespace HpsSf.TimerManager
open Foundation (System add64)
open Foundation.SearchTree (Shape)

variable {C : Type} {m : TimerManager C}

/-- What a scan at this clock reading must do: these are the timers it collects. -/
structure Collects (m : TimerManager C) (now : Nat) (due : List Addr) (scan : List (Option C) × TimerManager C) :
    Prop where
  all : due.Perm (m.timers.filter fun a => m.deadline a ≤ now)
  ordered : due.Pairwise fun u v => m.deadline u ≤ m.deadline v
  returned : scan.1 = due.map fun a => (m.heap a).bind Timer.cb
  oneShot : ∀ a ∈ due, ∀ timer, m.heap a = some timer → timer.recurring = false →
    a ∉ scan.2.timers ∧ scan.2.heap a = some { timer with cb := none }
  recurring : ∀ a ∈ due, ∀ timer, m.heap a = some timer → timer.recurring = true →
    scan.2.timers.count a = 1 ∧ scan.2.heap a = some { timer with next := add64 now timer.ms }
  untouched : ∀ a ∉ due, scan.2.heap a = m.heap a ∧ scan.2.timers.count a = m.timers.count a

/-- No timer is overdue, and those that are due come first. -/
structure Prompt (m : TimerManager C) (now : Nat) : Prop where
  current : ∀ a ∈ m.timers, now ≤ m.deadline a
  first : m.timers.Pairwise fun u v => m.deadline v = now → m.deadline u = now

/-- A front that ends at the first other element is all there is exactly when nothing comes behind. -/
theorem takeWhile_eq_filter_iff {A : Type} {p : A → Bool} {elements : List A} :
    elements.takeWhile p = elements.filter p ↔ elements.Pairwise fun u v => p v = true → p u = true := by
  induction elements with
  | nil => simp
  | cons x rest ih =>
    rw [List.pairwise_cons]
    cases holds : p x with
    | true => simp [holds, ih]
    | false =>
      rw [List.takeWhile_cons_of_neg (by simp [holds]), List.filter_cons_of_neg (by simp [holds]), eq_comm,
        List.filter_eq_nil_iff]
      constructor
      · intro none
        exact ⟨fun v member passes => absurd passes (none v member),
          List.pairwise_of_forall_mem_list fun u _ v member passes => absurd passes (none v member)⟩
      · rintro ⟨before, -⟩ v member passes
        cases before v member passes

/-- The scan takes all that is due exactly when it is prompt. -/
theorem expired_eq_iff (m : TimerManager C) (now : Nat) :
    m.expired now = m.timers.filter (fun a => m.deadline a ≤ now) ↔ m.Prompt now := by
  have narrowed (current : ∀ a ∈ m.timers, now ≤ m.deadline a) :
      m.timers.filter (fun a => m.deadline a ≤ now) = m.timers.filter fun a => m.deadline a == now := by
    refine List.filter_congr fun a member => ?_
    have later := current a member
    rw [Bool.eq_iff_iff, decide_eq_true_iff, beq_iff_eq]
    omega
  constructor
  · intro taken
    have current : ∀ a ∈ m.timers, now ≤ m.deadline a := by
      intro a member
      by_contra overdue
      have due : a ∈ m.expired now := taken ▸ List.mem_filter.mpr ⟨member, decide_eq_true (by omega)⟩
      have deadline := mem_expired due
      omega
    rw [narrowed current, expired, takeWhile_eq_filter_iff] at taken
    exact ⟨current, by simpa using taken⟩
  · intro prompt
    rw [narrowed prompt.current, expired, takeWhile_eq_filter_iff]
    simpa using prompt.first

theorem expired_sublist (m : TimerManager C) (now : Nat) :
    (m.expired now).Sublist (m.timers.filter fun a => m.deadline a ≤ now) := by
  have due : (m.expired now).filter (fun a => m.deadline a ≤ now) = m.expired now := by
    refine List.filter_eq_self.mpr fun a member => ?_
    simp [mem_expired member]
  rw [← due]
  exact (List.takeWhile_sublist _).filter _

/-- Whatever is in the way of the scan: what it does with the timers that it takes. -/
theorem listExpired_collects (shaped : Ordered unordered m) (shape : Shape Addr) (now : Nat) :
    (m.listExpiredCb shape now).1 = ((m.expired now).map fun a => (m.heap a).bind Timer.cb) ∧
      (∀ u, (m.listExpiredCb shape now).2.heap u =
        if u ∈ m.expired now then (m.heap u).map (fired now) else m.heap u) ∧
      ∀ u, (m.listExpiredCb shape now).2.timers.count u =
        if u ∈ m.expired now then (if (m.heap u).any (·.recurring) then 1 else 0) else m.timers.count u := by
  obtain ⟨front, apart⟩ := shaped.expired_apart now
  obtain ⟨after, members⟩ := shaped.listExpired shape now (agree_unordered _ _)
  have live (a : Addr) (due : a ∈ m.expired now) : (m.heap a).isSome = true :=
    shaped.live a ((List.takeWhile_sublist _).subset due)
  refine ⟨fire_callbacks shape now live front, fire_heap shape now front, fun u => ?_⟩
  have whole : u ∈ m.timers ↔ u ∈ m.expired now ∨ u ∈ m.unexpired now := by
    rw [← List.mem_append, expired_append]
  rw [after.nodup.count, shaped.nodup.count]
  by_cases due : u ∈ m.expired now
  · obtain ⟨timer, found⟩ := Option.isSome_iff_exists.mp (live u due)
    simp [members, due, apart u due, found]
  · simp [members, due, whole]

/-- In every reachable state the scan collects what is due exactly when nothing is
overdue and what is due comes first. -/
theorem collects_iff (reached : (machine C).Reaches (fun _ _ => True) m) (shape : Shape Addr) (now : Nat) :
    (∃ due, m.Collects now due (m.listExpiredCb shape now)) ↔ m.Prompt now := by
  have shaped : Ordered unordered m := ordered_of_reaches (reached.weaken fun _ _ _ => agree_unordered _ _)
  obtain ⟨returned, heap, count⟩ := listExpired_collects shaped shape now
  rw [← expired_eq_iff]
  constructor
  · rintro ⟨due, collects⟩
    -- As many callbacks as timers are due, and they come from the front of the set.
    have lengths : (m.expired now).length = due.length := by
      simpa using congrArg List.length (returned.symm.trans collects.returned)
    exact (expired_sublist m now).eq_of_length (lengths.trans collects.all.length_eq)
  · intro taken
    refine ⟨m.expired now, .of_eq taken, ?_, returned, ?_, ?_, fun a out => ?_⟩
    · refine List.pairwise_of_forall_mem_list fun u first v second => ?_
      rw [mem_expired first, mem_expired second]
    · intro a due timer found once
      have absent : (m.listExpiredCb shape now).2.timers.count a = 0 := by simp [count, due, found, once]
      exact ⟨List.count_eq_zero.mp absent, by simp [heap, due, found, fired, once]⟩
    · intro a due timer found again
      exact ⟨by simp [count, due, found, again], by simp [heap, due, found, fired, again]⟩
    · exact ⟨by rw [heap, if_neg out], by rw [count, if_neg out]⟩

/-- An overdue timer at the front holds up all others, at every later clock reading. -/
theorem overdue_blocks {first : Addr} {rest : List Addr} (front : m.timers = first :: rest) (shape : Shape Addr)
    {now : Nat} (overdue : m.deadline first < now) : m.listExpiredCb shape now = ([], m) := by
  have missed : m.deadline first ≠ now := by omega
  have none : m.expired now = [] := by simp [expired, front, missed]
  have all : m.unexpired now = m.timers := by simp [unexpired, front, missed]
  rw [listExpiredCb, none, all]
  rfl

/-- Two timers that are due at once, one of which recurs. -/
def dueTogether : List (Label Unit) :=
  [.addTimer .spine 1 5 10 (some ()) true, .addTimer .spine 1 6 10 (some ()) false,
    .addTimer .spine 1 9 100 (some ()) false]

theorem collects_iff_dueTogether :
    ∃ m, (machine Unit).Reaches (fun _ _ => True) m ∧ m.timers = [5, 6, 9] ∧
      ∃ due, m.Collects 11 due (m.listExpiredCb .spine 11) := by
  obtain ⟨m, reached, test⟩ := System.reaches_test (machine Unit) (fun _ _ => True) (fun _ _ => true)
    (fun _ _ _ => trivial) initial rfl dueTogether
    (fun m => m.timers = [5, 6, 9] ∧ m.deadline 5 = 11 ∧ m.deadline 6 = 11 ∧ m.deadline 9 = 101) (by decide)
  obtain ⟨timers, first, second, last⟩ := of_decide_eq_true test
  refine ⟨m, reached, timers, (collects_iff reached .spine 11).mpr ⟨?_, ?_⟩⟩
  · simp [timers, first, second, last]
  · simp [timers, first, second, last]

/-- The clock is read once after the deadline, and the timer is never collected. -/
theorem overdue_timer_stranded :
    ∃ m, (machine Unit).Reaches (fun _ _ => True) m ∧ m.timers = [5] ∧ m.deadline 5 = 11 ∧
      (∀ now, 11 < now → m.listExpiredCb .spine now = ([], m)) ∧
        ¬ ∃ due, m.Collects 12 due (m.listExpiredCb .spine 12) := by
  obtain ⟨m, reached, test⟩ := System.reaches_test (machine Unit) (fun _ _ => True) (fun _ _ => true)
    (fun _ _ _ => trivial) initial rfl [.addTimer .spine 1 5 10 (some ()) false]
    (fun m => m.timers = [5] ∧ m.deadline 5 = 11) (by decide)
  obtain ⟨timers, deadline⟩ := of_decide_eq_true test
  have blocked (now : Nat) (later : 11 < now) : m.listExpiredCb .spine now = ([], m) :=
    overdue_blocks timers .spine (by rwa [deadline])
  refine ⟨m, reached, timers, deadline, blocked, ?_⟩
  rintro ⟨due, collects⟩
  have all := collects.all.length_eq
  have returned := congrArg List.length collects.returned
  simp only [blocked 12 (by decide), timers, List.length_map, List.length_nil] at all returned
  simp [← returned, deadline] at all

end HpsSf.TimerManager
