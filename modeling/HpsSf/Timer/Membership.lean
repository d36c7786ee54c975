import HpsSf.Timer.Order

/-! Active timers and the set that holds them.

A timer is active as long as it has its callback. When every insertion agrees in
address with the timers around it, lookup finds exactly the active ones. `reset`
answers for an inactive timer too when asked to change nothing.
-/

set_option autoImplicit false

namespace HpsSf.TimerManager
open Foundation (System add64 wrap64_lt)
open Foundation.SearchTree (Shape)

variable {C : Type} {m : TimerManager C}

/-- Timers are created with a callback, and addresses agree with deadlines at each insertion. -/
structure Coherent (m : TimerManager C) (label : Label C) : Prop where
  inserts : Inserts BothSides m label
  callback : ∀ shape now a ms recurring, label ≠ .addTimer shape now a ms none recurring

/-- The timers with a callback are those in the set. -/
def ActiveIn (m : TimerManager C) : Prop :=
  ∀ a timer, m.heap a = some timer → (timer.cb.isSome = true ↔ a ∈ m.timers)

theorem Ordered.find_of_mem (ordered : Ordered byBoth m) (shape : Shape Addr) {a : Addr}
    (member : a ∈ m.timers) : m.find shape a = some a := by
  refine shape.find_of_sorted ?_ (ordered.ordered.imp_of_mem fun {u v} first second holds => ?_) member
  · rw [lt_eq_less (ordered.live a member) (ordered.live a member), less_self]
  · obtain ⟨earlier, below⟩ := holds
    rw [lt_eq_less (ordered.live u first) (ordered.live v second),
      lt_eq_less (ordered.live v second) (ordered.live u first)]
    simp only [less, Bool.or_eq_true, Bool.or_eq_false_iff, decide_eq_true_eq, decide_eq_false_iff_not]
    omega

/-- Lookup finds a live timer exactly when it is active. -/
theorem ActiveIn.found (active : ActiveIn m) (ordered : Ordered byBoth m) (shape : Shape Addr) {a : Addr}
    {timer : Timer C} (live : m.heap a = some timer) :
    timer.cb.isSome = true ↔ m.find shape a = some a := by
  rw [active a timer live]
  exact ⟨ordered.find_of_mem shape, fun found => (ordered.find_eq (by simp [live]) found).2⟩

/-- Writing one timer, with its place in the set made to fit. -/
theorem ActiveIn.write (active : ActiveIn m) (a : Addr) (timer : Timer C) {timers : List Addr}
    {tickled : Bool} (here : timer.cb.isSome = true ↔ a ∈ timers)
    (others : ∀ u, u ≠ a → (u ∈ timers ↔ u ∈ m.timers)) :
    ActiveIn { m.write a timer with timers := timers, tickled := tickled } := by
  intro u other live
  rcases eq_or_ne u a with rfl | distinct
  · simp only [TimerManager.write, Function.update_self, Option.some.injEq] at live
    rw [← live]
    exact here
  · rw [others u distinct]
    exact active u other (by simpa [TimerManager.write, distinct] using live)

/-! ## Expiry -/

/-- What becomes of an expired timer. -/
def fired (now : Nat) (timer : Timer C) : Timer C :=
  if timer.recurring then { timer with next := add64 now timer.ms } else { timer with cb := none }

theorem fire_heap (shape : Shape Addr) (now : Nat) {expired : List Addr} (nodup : expired.Nodup) (u : Addr) :
    (fire shape now expired m).2.heap u =
      if u ∈ expired then (m.heap u).map (fired now) else m.heap u := by
  induction expired generalizing m with
  | nil => rfl
  | cons a rest ih =>
    obtain ⟨apart, restNodup⟩ := List.nodup_cons.mp nodup
    cases found : m.heap a with
    | none =>
      simp only [fire, found, ih restNodup, List.mem_cons]
      rcases eq_or_ne u a with rfl | other
      · simp [apart, found]
      · simp [other]
    | some timer =>
      have written (after : TimerManager C) (same : after.heap = (m.write a (fired now timer)).heap) :
          (fire shape now rest after).2.heap u =
            if u ∈ a :: rest then (m.heap u).map (fired now) else m.heap u := by
        rw [ih restNodup, same]
        rcases eq_or_ne u a with rfl | other
        · simp [TimerManager.write, apart, found]
        · simp [TimerManager.write, other]
      simp only [fire, found]
      cases recurring : timer.recurring <;> exact written _ (by simp [fired, recurring, TimerManager.insert])

theorem ActiveIn.listExpired (active : ActiveIn m) (ordered : Ordered byBoth m) (shape : Shape Addr) (now : Nat)
    (inserts : Inserts BothSides m (.listExpiredCb shape now)) :
    ActiveIn (m.listExpiredCb shape now).2 := by
  obtain ⟨front, apart⟩ := ordered.expired_apart now
  have heap (u : Addr) : (m.listExpiredCb shape now).2.heap u =
      if u ∈ m.expired now then (m.heap u).map (fired now) else m.heap u := fire_heap shape now front u
  intro u timer live
  rw [heap u] at live
  rw [(ordered.listExpired shape now inserts).2 u]
  have whole : u ∈ m.timers ↔ u ∈ m.expired now ∨ u ∈ m.unexpired now := by
    rw [← List.mem_append, expired_append]
  by_cases due : u ∈ m.expired now
  · rw [if_pos due] at live
    obtain ⟨before, found, rfl⟩ := Option.map_eq_some_iff.mp live
    have held := (active u before found).mpr (whole.mpr (.inl due))
    cases recurring : before.recurring <;> simp [fired, recurring, apart u due, due, found, held]
  · rw [if_neg due] at live
    rw [active u timer live, whole]
    simp [due]

/-! ## The run -/

/-- A timer that is erased and inserted again stays active. -/
theorem ActiveIn.reinsert (active : ActiveIn m) (ordered : Ordered byBoth m) (shape : Shape Addr) {a : Addr}
    {before : Timer C} (live : m.heap a = some before) (held : before.cb.isSome = true)
    (timer : Timer C) (callback : timer.cb = before.cb) (small : timer.next < 2 ^ 64)
    (agree : Agree BothSides ((m.timers.erase a).map m.key) [(a, timer.next)]) (tickled : Bool) :
    ActiveIn { ((m.erase a).write a timer).insert shape a with tickled := tickled } := by
  have perm := (ordered.reinsert shape small agree).2
  have member := (active a before live).mp held
  refine active.write a timer ?_ fun u other => ?_
  · rw [callback, perm.mem_iff]
    exact iff_of_true held (List.mem_cons_self ..)
  · rw [perm.mem_iff, List.mem_cons, ordered.nodup.mem_erase_iff]
    simp [other]

theorem step_activeIn {label : Label C} {next : TimerManager C} (active : ActiveIn m)
    (ordered : Ordered byBoth m) (coherent : Coherent m label) (stepped : step m label = some next) :
    ActiveIn next := by
  have inserts := coherent.inserts
  cases label with
  | addTimer shape now a ms cb recurring =>
    have callback : cb.isSome = true := by
      cases cb with
      | none => exact absurd rfl (coherent.callback shape now a ms recurring)
      | some _ => rfl
    obtain ⟨free, rfl⟩ := addTimer_ok stepped
    have out : a ∉ m.timers := ordered.absent free
    have written : Ordered byBoth (m.write a ⟨recurring, ms, add64 now ms, cb⟩) :=
      ordered.write (wrap64_lt _) (.inl out)
    have here : (m.write a ⟨recurring, ms, add64 now ms, cb⟩).key a = (a, add64 now ms) := by
      rw [key, deadline_write]
    have perm := (written.insert shape (by simp [TimerManager.write]) out fun u member => by
      rw [here, key_write_of_ne (ne_of_mem_of_not_mem member out)]
      exact inserts.1 _ (List.mem_map_of_mem member)).2.1
    refine active.write a ⟨recurring, ms, add64 now ms, cb⟩ ?_ fun u other => ?_
    · exact iff_of_true callback (perm.mem_iff.mpr (List.mem_cons_self ..))
    · rw [perm.mem_iff, List.mem_cons]
      simp [other, TimerManager.write]
  | cancel shape a =>
    obtain ⟨outcome, called, rfl⟩ := answered_of_step stepped
    obtain ⟨timer, found, rfl | ⟨it, located, rfl⟩⟩ := cancel_ok called
    · exact active
    · have same : timer.next = m.deadline a := by simp [deadline, found]
      have cleared : Ordered byBoth (m.write a { timer with cb := none }) :=
        ordered.write (ordered.small a timer found) (.inr same)
      obtain ⟨rfl, _⟩ := cleared.find_eq (by simp [TimerManager.write]) located
      refine active.write it { timer with cb := none } ?_ fun u other => ?_
      · exact iff_of_false (by simp) ordered.nodup.not_mem_erase
      · exact List.mem_erase_of_ne other
  | refresh shape now a =>
    obtain ⟨outcome, called, rfl⟩ := answered_of_step stepped
    obtain ⟨timer, found, rfl | ⟨held, it, located, rfl⟩⟩ := refresh_ok called
    · exact active
    · obtain ⟨rfl, _⟩ := ordered.find_eq (by simp [found]) located
      exact active.reinsert ordered shape found held { timer with next := add64 now timer.ms } rfl (wrap64_lt _)
        (by simpa [Inserts, planned, kept, found, held, located] using inserts) m.tickled
  | reset shape now a ms fromNow =>
    obtain ⟨outcome, called, rfl⟩ := answered_of_step stepped
    obtain ⟨timer, found, ⟨-, -, rfl⟩ | rfl | ⟨held, it, located, rfl⟩⟩ := reset_ok called
    · exact active
    · exact active
    · obtain ⟨rfl, _⟩ := ordered.find_eq (by simp [found]) located
      exact active.reinsert ordered shape found held
        { timer with ms := ms, next := resetNext timer now ms fromNow } rfl (wrap64_lt _)
        (by simpa [Inserts, planned, kept, found, held, located] using inserts) _
  | getNextTimer now =>
    cases stepped
    exact active
  | listExpiredCb shape now =>
    cases stepped
    exact active.listExpired ordered shape now inserts
  | release a =>
    obtain ⟨out, rfl⟩ := release_ok stepped
    intro u timer live
    rcases eq_or_ne u a with rfl | other
    · simp at live
    · exact active u timer (by simpa [other] using live)

theorem active_of_reaches (reached : (machine C).Reaches Coherent m) : Ordered byBoth m ∧ ActiveIn m := by
  refine reached.invariant (P := fun m => Ordered byBoth m ∧ ActiveIn m) (fun m begins => ?_)
    fun m label next ⟨ordered, active⟩ coherent stepped =>
      ⟨step_ordered ordered coherent.inserts stepped, step_activeIn active ordered coherent stepped⟩
  rw [show m = initial from begins]
  exact ⟨⟨⟨nofun, List.nodup_nil, nofun⟩, List.Pairwise.nil⟩, nofun⟩

/-- Lookup finds exactly the active timers, and each call answers whether its
timer was active; `reset` does so unless it is asked to change nothing. -/
structure MembershipExact (m : TimerManager C) : Prop where
  found : ∀ shape a timer, m.heap a = some timer → (timer.cb.isSome = true ↔ m.find shape a = some a)
  cancelled : ∀ shape a timer, m.heap a = some timer → m.cancel shape a = .ok
    (if timer.cb.isSome then
      { returned := true, after := (m.write a { timer with cb := none }).erase a }
    else { returned := false, after := m })
  refreshed : ∀ shape now a timer, m.heap a = some timer → ∃ outcome, m.refresh shape now a = .ok outcome ∧
    outcome.returned = timer.cb.isSome ∧ (timer.cb.isSome = false → outcome.after = m)
  wasReset : ∀ shape now a ms fromNow timer, m.heap a = some timer →
    ∃ outcome, m.reset shape now a ms fromNow = .ok outcome ∧
      (outcome.returned = timer.cb.isSome ↔ timer.cb.isSome = true ∨ ms ≠ timer.ms ∨ fromNow = true) ∧
      (timer.cb.isSome = false → outcome.after = m)

/-- In every run whose insertions agree in address with the timers of the set,
being active is being found, and the calls act on active timers alone. -/
theorem membership_exact (reached : (machine C).Reaches Coherent m) : MembershipExact m := by
  obtain ⟨ordered, active⟩ := active_of_reaches reached
  refine ⟨fun shape a timer live => active.found ordered shape live, fun shape a timer live => ?_,
    fun shape now a timer live => ?_, fun shape now a ms fromNow timer live => ?_⟩
  · cases held : timer.cb.isSome with
    | false => simp [cancel, live, held]
    | true =>
      have same : timer.next = m.deadline a := by simp [deadline, live]
      have cleared : Ordered byBoth (m.write a { timer with cb := none }) :=
        ordered.write (ordered.small a timer live) (.inr same)
      have located := cleared.find_of_mem shape ((active a timer live).mp held)
      simp [cancel, live, held, located]
  · cases held : timer.cb.isSome with
    | false => exact ⟨⟨false, false, m⟩, by simp [refresh, live, held], rfl, fun _ => rfl⟩
    | true =>
      have located := (active.found ordered shape live).mp held
      have result : m.refresh shape now a = .ok { returned := true
                                                  after := ((m.erase a).write a { timer with
                                                    next := add64 now timer.ms }).insert shape a } := by
        simp only [refresh, live, held, located, if_true]
      exact ⟨_, result, rfl, by simp⟩
  · by_cases unchanged : ms = timer.ms ∧ fromNow = false
    · have result : m.reset shape now a ms fromNow = .ok { returned := true, after := m } := by
        simp only [reset, live, if_pos unchanged]
      refine ⟨_, result, ?_, fun _ => rfl⟩
      obtain ⟨rfl, rfl⟩ := unchanged
      cases timer.cb.isSome <;> simp
    · have changes : ms ≠ timer.ms ∨ fromNow = true := by
        rcases eq_or_ne ms timer.ms with equal | other
        · exact .inr (by simpa [equal] using unchanged)
        · exact .inl other
      cases held : timer.cb.isSome with
      | false =>
        have result : m.reset shape now a ms fromNow = .ok { returned := false, after := m } := by
          simp only [reset, live, if_neg unchanged, held, Bool.false_eq_true, if_false]
        exact ⟨_, result, iff_of_true rfl (.inr changes), fun _ => rfl⟩
      | true =>
        have located := (active.found ordered shape live).mp held
        have result : m.reset shape now a ms fromNow = .ok (((m.erase a).write a
            { timer with ms := ms, next := resetNext timer now ms fromNow }).addTimerLocked shape a) := by
          simp only [reset, live, if_neg unchanged, held, located, if_true]
        exact ⟨_, result, iff_of_true rfl (.inl rfl), by simp⟩

/-- A test of `Coherent` for replays. -/
def coherentTest (m : TimerManager C) (label : Label C) : Bool :=
  decide (Inserts BothSides m label) &&
    match label with
    | .addTimer _ _ _ _ cb _ => cb.isSome
    | _ => true

theorem coherent_of_test {label : Label C} (passed : coherentTest m label = true) : Coherent m label := by
  obtain ⟨inserts, callback⟩ := Bool.and_eq_true_iff.mp passed
  refine ⟨of_decide_eq_true inserts, fun shape now a ms recurring same => ?_⟩
  subst same
  cases callback

theorem membership_exact_ascending :
    ∃ m, (machine Unit).Reaches Coherent m ∧ m.timers = [5] ∧ m.heap 9 = some ⟨false, 100, 101, none⟩ ∧
      MembershipExact m := by
  obtain ⟨m, reached, test⟩ := System.reaches_test (machine Unit) Coherent coherentTest
    (fun _ _ => coherent_of_test) initial rfl ascending
    (fun m => m.timers = [5] ∧ m.heap 9 = some ⟨false, 100, 101, none⟩) (by decide)
  obtain ⟨timers, cancelled⟩ := of_decide_eq_true test
  exact ⟨m, reached, timers, cancelled, membership_exact reached⟩

/-- The later of two timers lies at the lower address: lookup misses it, and
`cancel` erases the end of the set. A cancelled timer is reset with success. -/
theorem active_timer_missed :
    (∃ m, (machine Unit).Reaches (fun _ _ => True) m ∧ m.heap 5 = some ⟨false, 100, 101, some ()⟩ ∧
      m.find .spine 5 = none ∧ m.cancel .spine 5 = .error .eraseEnd ∧ ¬ MembershipExact m) ∧
    ∃ m, (machine Unit).Reaches (fun _ _ => True) m ∧ m.heap 9 = some ⟨false, 10, 11, none⟩ ∧
      m.reset .spine 2 9 10 false = .ok { returned := true, after := m } := by
  constructor
  · obtain ⟨m, reached, test⟩ := System.reaches_test (machine Unit) (fun _ _ => True) (fun _ _ => true)
      (fun _ _ _ => trivial) initial rfl descending
      (fun m => m.heap 5 = some ⟨false, 100, 101, some ()⟩ ∧ m.find .spine 5 = none ∧
        (m.write 5 ⟨false, 100, 101, none⟩).find .spine 5 = none) (by decide)
    obtain ⟨live, missed, cleared⟩ := of_decide_eq_true test
    refine ⟨m, reached, live, missed, by simp [cancel, live, cleared], fun exact' => ?_⟩
    have located := (exact'.found .spine 5 _ live).mp rfl
    cases missed.symm.trans located
  · obtain ⟨m, reached, test⟩ := System.reaches_test (machine Unit) (fun _ _ => True) (fun _ _ => true)
      (fun _ _ _ => trivial) initial rfl [.addTimer .spine 1 9 10 (some ()) false, .cancel .spine 9]
      (fun m => m.heap 9 = some ⟨false, 10, 11, none⟩) (by decide)
    have cancelled := of_decide_eq_true test
    exact ⟨m, reached, cancelled, by simp [reset, cancelled]⟩

end HpsSf.TimerManager
