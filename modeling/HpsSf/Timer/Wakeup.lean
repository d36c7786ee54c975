import HpsSf.Timer.Periods

/-! When the poller is woken up for a new earliest timer.

`addTimer` and `reset` decide under the lock that their timer is at the front, and
call `onTimerInsertedAtFront` after they have let go of it. Operations of other
threads may come in between.
-/

set_option autoImplicit false

namespace HpsSf
open Foundation (System add64 wrap64_lt)
open Foundation.SearchTree (Shape)

namespace TimerManager

variable {C : Type}

/-- `reset` behind its first test, which is made before the lock is taken. -/
def resetLocked (m : TimerManager C) (shape : Shape Addr) (now : Nat) (a : Addr) (ms : Nat) (fromNow : Bool) :
    Except Fault (Outcome C) :=
  match m.heap a with
  | none => .error .dangling
  | some timer =>
      if timer.cb.isSome then
        match m.find shape a with
        | some it =>
            .ok (((m.erase it).write a
              { timer with ms := ms, next := resetNext timer now ms fromNow }).addTimerLocked shape a)
        | none => .ok { returned := false, after := m }
      else .ok { returned := false, after := m }

theorem reset_eq (m : TimerManager C) (shape : Shape Addr) (now : Nat) (a : Addr) (ms : Nat) (fromNow : Bool) :
    m.reset shape now a ms fromNow =
      if (m.heap a).any fun timer => decide (ms = timer.ms ∧ fromNow = false) then .ok { returned := true, after := m }
      else m.resetLocked shape now a ms fromNow := by
  unfold reset resetLocked
  cases m.heap a with
  | none => rfl
  | some timer =>
    exact if_congr (by rw [Option.any_some, decide_eq_true_eq]) rfl rfl

/-- The locked section of an operation. -/
def locked (m : TimerManager C) : Label C → Option (Outcome C)
  | .addTimer shape now a ms cb recurring =>
      if (m.heap a).isNone then some (m.addTimer shape now a ms cb recurring) else none
  | .cancel shape a => (m.cancel shape a).toOption
  | .refresh shape now a => (m.refresh shape now a).toOption
  | .reset shape now a ms fromNow => (m.resetLocked shape now a ms fromNow).toOption
  | .getNextTimer now => some { returned := true, after := (m.getNextTimer now).2 }
  | .listExpiredCb shape now => some { returned := true, after := (m.listExpiredCb shape now).2 }
  | .release a =>
      if a ∈ m.timers then none
      else some { returned := true, after := { m with heap := Function.update m.heap a none } }

end TimerManager

/-- A manager whose operations overlap, with what was called since the last `getNextTimer`. -/
structure Waking (T C : Type) where
  manager : TimerManager C
  /-- The threads on their way to the call, and whether they set out since the last `getNextTimer`. -/
  calling : List (T × Bool)
  /-- The calls of operations that set out since. -/
  fresh : Nat
  /-- The calls of operations that had set out before. -/
  stale : Nat
  /-- How many were on their way at the last `getNextTimer`. -/
  late : Nat

namespace Waking
open TimerManager (Label Outcome locked)

variable {T C : Type} [DecidableEq T]

inductive Label (T C : Type) where
  | locked (thread : T) (operation : TimerManager.Label C)
  | onTimerInsertedAtFront (thread : T) (since : Bool)

/-- What the locked section of a thread leaves of the calls. -/
def after (s : Waking T C) (thread : T) : TimerManager.Label C → Outcome C → Waking T C
  | .getNextTimer _, outcome =>
      ⟨outcome.after, s.calling.map fun entry => (entry.1, false), 0, 0, s.calling.length⟩
  | _, outcome =>
      { s with manager := outcome.after
               calling := if outcome.atFront then (thread, true) :: s.calling else s.calling }

def step (s : Waking T C) : Label T C → Option (Waking T C)
  | .locked thread operation =>
      if thread ∈ s.calling.map Prod.fst then none
      else (TimerManager.locked s.manager operation).map (s.after thread operation)
  | .onTimerInsertedAtFront thread since =>
      if (thread, since) ∈ s.calling then
        some { s with calling := s.calling.erase (thread, since)
                      fresh := if since then s.fresh + 1 else s.fresh
                      stale := if since then s.stale else s.stale + 1 }
      else none

def machine (T C : Type) [DecidableEq T] : System (Waking T C) (Label T C) where
  start s := s = ⟨.initial, [], 0, 0, 0⟩
  step := step

/-- The calls of `onTimerInsertedAtFront` since the last `getNextTimer`. -/
def calls (s : Waking T C) : Nat := s.fresh + s.stale

/-- The operation has put a timer into the set that is due before every other one. -/
structure PutsFirst (operation : TimerManager.Label C) (outcome : Outcome C) (a : Addr) : Prop where
  puts : (∃ shape now ms cb recurring, operation = .addTimer shape now a ms cb recurring) ∨
    ∃ shape now ms fromNow, operation = .reset shape now a ms fromNow
  returned : outcome.returned = true
  first : ∀ u ∈ outcome.after.timers, u ≠ a → outcome.after.deadline a < outcome.after.deadline u

/-- The poller is woken up for a new earliest timer, and not more often than needed. -/
structure Wakeful (s : Waking T C) : Prop where
  /-- When a timer has been put before all others, the poller was woken up since its last
  reading, or an operation since then, maybe this one, is on its way to wake it up. -/
  woken : ∀ thread operation outcome a next, TimerManager.locked s.manager operation = some outcome →
    PutsFirst operation outcome a → s.step (.locked thread operation) = some next →
    0 < next.calls ∨ ∃ other, (other, true) ∈ next.calling
  /-- An operation that was on its way has called when it returns. -/
  called : ∀ thread since next, s.step (.onTimerInsertedAtFront thread since) = some next → 0 < next.calls
  /-- One operation sets out in between two readings at most. -/
  once : s.fresh + s.calling.countP Prod.snd ≤ 1
  /-- All other calls are of operations that were on their way at the first one. -/
  others : s.calls ≤ 1 + s.late

end Waking

namespace TimerManager

variable {C : Type} {m : TimerManager C} {shape : Shape Addr} {a : Addr} {outcome : Outcome C}

/-- A timer that is due before all others is put to the front, and the flag decides the call. -/
theorem addTimerLocked_atFront (shaped : Ordered unordered m) (live : (m.heap a).isSome = true) (absent : a ∉ m.timers)
    (first : ∀ u ∈ (m.addTimerLocked shape a).after.timers, u ≠ a → m.deadline a < m.deadline u) :
    (m.addTimerLocked shape a).atFront = !m.tickled := by
  have perm : (m.insert shape a).timers.Perm (a :: m.timers) :=
    (shaped.insert shape live absent fun _ _ => trivial).2.1
  have before (u : Addr) (member : u ∈ m.timers) : m.lt a u = true := by
    have later := first u (perm.mem_iff.mpr (List.mem_cons_of_mem _ member)) (ne_of_mem_of_not_mem member absent)
    rw [lt_eq_less live (shaped.live u member)]
    simp [less, key, later]
  have inserted := shape.insert_first before
  simp [addTimerLocked, TimerManager.insert, inserted]

/-- The flag before and after a locked section, and what decides the call. -/
structure Decides (before : Bool) (operation : Label C) (outcome : Outcome C) : Prop where
  shaped : Ordered unordered outcome.after
  tickled : (∀ now, operation ≠ .getNextTimer now) → outcome.after.tickled = (before || outcome.atFront)
  cleared : ∀ now, operation = .getNextTimer now → outcome.after.tickled = false ∧ outcome.atFront = false
  once : outcome.atFront = true → before = false
  first : ∀ a, Waking.PutsFirst operation outcome a → outcome.atFront = !before

theorem cancel_tickled (called : m.cancel shape a = .ok outcome) :
    outcome.after.tickled = m.tickled ∧ outcome.atFront = false := by
  obtain ⟨timer, -, rfl | ⟨it, -, rfl⟩⟩ := cancel_ok called <;> exact ⟨rfl, rfl⟩

theorem refresh_tickled {now : Nat} (called : m.refresh shape now a = .ok outcome) :
    outcome.after.tickled = m.tickled ∧ outcome.atFront = false := by
  obtain ⟨timer, -, rfl | ⟨-, it, -, rfl⟩⟩ := refresh_ok called <;> exact ⟨rfl, rfl⟩

theorem fire_tickled (shape : Shape Addr) (now : Nat) (expired : List Addr) :
    (fire shape now expired m).2.tickled = m.tickled := by
  induction expired generalizing m with
  | nil => rfl
  | cons a rest ih =>
    unfold fire
    split
    next => exact ih
    next => split <;> exact ih

theorem Decides.quiet {operation : Label C} (shaped : Ordered unordered outcome.after)
    (other : ∀ now, operation ≠ .getNextTimer now) (tickled : outcome.after.tickled = m.tickled)
    (stays : outcome.atFront = false)
    (puts : ∀ a, Waking.PutsFirst operation outcome a → False) : Decides m.tickled operation outcome where
  shaped := shaped
  tickled _ := by rw [tickled, stays, Bool.or_false]
  cleared now same := absurd same (other now)
  once front := absurd (stays.symm.trans front) Bool.false_ne_true
  first a first := (puts a first).elim

theorem Decides.addTimerLocked {base : TimerManager C} {operation : Label C} (shaped : Ordered unordered base)
    (live : (base.heap a).isSome = true) (absent : a ∉ base.timers) (other : ∀ now, operation ≠ .getNextTimer now)
    (puts : ∀ u, Waking.PutsFirst operation (base.addTimerLocked shape a) u → u = a) :
    Decides base.tickled operation (base.addTimerLocked shape a) where
  shaped := (shaped.insert shape live absent fun _ _ => trivial).1.tickle _
  tickled _ := rfl
  cleared now same := absurd same (other now)
  once front := by simpa using (Bool.and_eq_true_iff.mp front).2
  first u first := by
    obtain rfl := puts u first
    exact addTimerLocked_atFront shaped live absent first.first

theorem locked_decides (shaped : Ordered unordered m) {operation : Label C}
    (did : locked m operation = some outcome) : Decides m.tickled operation outcome := by
  have stepped {outcome : Except Fault (Outcome C)} {result : Outcome C} (did : outcome.toOption = some result) :
      outcome = .ok result := by
    cases outcome with
    | error fault => cases did
    | ok other => exact congrArg Except.ok (Option.some.inj did)
  have neither (outcome : Outcome C) (operation : Label C)
      (added : ∀ shape now a ms cb recurring, operation ≠ .addTimer shape now a ms cb recurring)
      (changed : ∀ shape now a ms fromNow, operation ≠ .reset shape now a ms fromNow) (a : Addr)
      (first : Waking.PutsFirst operation outcome a) : False := by
    obtain ⟨shape, now, ms, cb, recurring, same⟩ | ⟨shape, now, ms, fromNow, same⟩ := first.puts
    · exact added _ _ _ _ _ _ same
    · exact changed _ _ _ _ _ same
  cases operation with
  | addTimer shape now a ms cb recurring =>
    rw [locked] at did
    split at did
    next free =>
      obtain rfl := Option.some.inj did
      have out : a ∉ m.timers := shaped.absent (Option.isNone_iff_eq_none.mp free)
      have written : Ordered unordered (m.write a ⟨recurring, ms, add64 now ms, cb⟩) :=
        shaped.write (wrap64_lt _) (.inl out)
      refine Decides.addTimerLocked written (by simp [write]) out (by simp) fun u first => ?_
      obtain ⟨_, _, _, _, _, same⟩ | ⟨_, _, _, _, same⟩ := first.puts <;> cases same
      rfl
    next => cases did
  | cancel shape a =>
    have called := stepped did
    obtain ⟨tickled, stays⟩ := cancel_tickled called
    have after : m.step (.cancel shape a) = some outcome.after := by rw [TimerManager.step, called]; rfl
    exact .quiet (step_ordered shaped (agree_unordered _ _) after) (by simp) tickled stays
      (neither _ _ (by simp) (by simp))
  | refresh shape now a =>
    have called := stepped did
    obtain ⟨tickled, stays⟩ := refresh_tickled called
    have after : m.step (.refresh shape now a) = some outcome.after := by rw [TimerManager.step, called]; rfl
    exact .quiet (step_ordered shaped (agree_unordered _ _) after) (by simp) tickled stays
      (neither _ _ (by simp) (by simp))
  | reset shape now a ms fromNow =>
    have called := stepped did
    unfold resetLocked at called
    split at called
    next => cases called
    next timer found =>
      have unchanged (did : outcome = { returned := false, after := m }) :
          Decides m.tickled (.reset shape now a ms fromNow) outcome := by
        subst did
        exact .quiet shaped (by simp) rfl rfl fun a first => absurd first.returned Bool.false_ne_true
      split at called
      · split at called
        next it located =>
          obtain rfl := Except.ok.inj called
          obtain ⟨rfl, member⟩ := shaped.find_eq (by simp [found]) located
          have out : it ∉ m.timers.erase it := shaped.nodup.not_mem_erase
          have erased : Ordered unordered (m.erase it) := shaped.sublist List.erase_sublist
          have written : Ordered unordered ((m.erase it).write it
              { timer with ms := ms, next := resetNext timer now ms fromNow }) := erased.write (wrap64_lt _) (.inl out)
          refine Decides.addTimerLocked written (by simp [write]) out (by simp) fun u first => ?_
          obtain ⟨_, _, _, _, _, same⟩ | ⟨_, _, _, _, same⟩ := first.puts <;> cases same
          rfl
        next => exact unchanged (Except.ok.inj called).symm
      · exact unchanged (Except.ok.inj called).symm
  | getNextTimer now =>
    obtain rfl := Option.some.inj did
    have puts := neither { returned := true, after := (m.getNextTimer now).2 } (.getNextTimer now)
      (by simp) (by simp)
    exact ⟨shaped.tickle false, fun other => absurd rfl (other now), fun _ _ => ⟨rfl, rfl⟩, by simp,
      fun a first => (puts a first).elim⟩
  | listExpiredCb shape now =>
    obtain rfl := Option.some.inj did
    exact .quiet (shaped.listExpired shape now (agree_unordered _ _)).1 (by simp) (fire_tickled shape now _) rfl
      (neither _ _ (by simp) (by simp))
  | release a =>
    rw [locked] at did
    split at did
    next => cases did
    next out =>
      obtain rfl := Option.some.inj did
      exact .quiet (shaped.release out) (by simp) rfl rfl
        (neither _ _ (by simp) (by simp))

end TimerManager

namespace Waking
open TimerManager (Ordered unordered Outcome locked_decides)

variable {T C : Type} [DecidableEq T] {s next : Waking T C}

/-- The flag is set when one operation has set out since the last reading. -/
structure Kept (s : Waking T C) : Prop where
  shaped : Ordered unordered s.manager
  since : s.fresh + s.calling.countP Prod.snd = if s.manager.tickled then 1 else 0
  before : s.stale + s.calling.countP (fun entry => !entry.2) = s.late

omit [DecidableEq T] in
theorem after_other {thread : T} {operation : TimerManager.Label C} {outcome : Outcome C}
    (other : ∀ now, operation ≠ .getNextTimer now) :
    s.after thread operation outcome =
      { s with manager := outcome.after
               calling := if outcome.atFront then (thread, true) :: s.calling else s.calling } := by
  cases operation with
  | getNextTimer now => exact absurd rfl (other now)
  | _ => rfl

omit [DecidableEq T] in
theorem Kept.locked (kept : s.Kept) {thread : T} {operation : TimerManager.Label C} {outcome : Outcome C}
    (did : TimerManager.locked s.manager operation = some outcome) : (s.after thread operation outcome).Kept := by
  have decides := locked_decides kept.shaped did
  by_cases reads : ∃ now, operation = .getNextTimer now
  · obtain ⟨now, rfl⟩ := reads
    refine ⟨decides.shaped, ?_, ?_⟩
    · have cleared : (s.after thread (.getNextTimer now) outcome).manager.tickled = false := (decides.cleared now rfl).1
      rw [cleared, if_neg Bool.false_ne_true]
      simp [after]
    · simp [after]
  · have other (now : Nat) : operation ≠ .getNextTimer now := fun same => reads ⟨now, same⟩
    rw [after_other other]
    refine ⟨decides.shaped, ?_, ?_⟩
    · have since := kept.since
      simp only [decides.tickled other]
      cases front : outcome.atFront with
      | false => simpa using since
      | true =>
        rw [decides.once front, if_neg Bool.false_ne_true] at since
        simp
        omega
    · have before := kept.before
      cases outcome.atFront <;> simpa using before

theorem Kept.call (kept : s.Kept) {thread : T} {since : Bool} (inside : (thread, since) ∈ s.calling)
    (stepped : s.step (.onTimerInsertedAtFront thread since) = some next) : next.Kept := by
  rw [step, if_pos inside] at stepped
  obtain rfl := Option.some.inj stepped
  have perm := List.perm_cons_erase inside
  have now := kept.since
  have before := kept.before
  rw [perm.countP_eq, List.countP_cons] at now before
  refine ⟨kept.shaped, ?_, ?_⟩
  · change (if since then s.fresh + 1 else s.fresh) + _ = _
    rw [← now]
    cases since <;> simp
    omega
  · change (if since then s.stale else s.stale + 1) + _ = _
    rw [← before]
    cases since <;> simp
    omega

theorem kept_of_reaches (reached : (machine T C).Reaches (fun _ _ => True) s) : s.Kept := by
  refine reached.invariant (fun s begins => ?_) fun s label next kept _ stepped => ?_
  · obtain rfl := begins
    exact ⟨⟨⟨nofun, List.nodup_nil, nofun⟩, List.Pairwise.nil⟩, rfl, rfl⟩
  · cases label with
    | locked thread operation =>
      replace stepped : s.step (.locked thread operation) = some next := stepped
      rw [step] at stepped
      split at stepped
      next => cases stepped
      next =>
        obtain ⟨outcome, did, rfl⟩ := Option.map_eq_some_iff.mp stepped
        exact kept.locked did
    | onTimerInsertedAtFront thread since =>
      by_cases inside : (thread, since) ∈ s.calling
      · exact kept.call inside stepped
      · replace stepped : s.step (.onTimerInsertedAtFront thread since) = some next := stepped
        rw [step, if_neg inside] at stepped
        cases stepped

/-- However the operations of the threads interleave, the poller is woken up for a
new earliest timer, by one operation in between two of its readings. -/
theorem pollers_woken (reached : (machine T C).Reaches (fun _ _ => True) s) : Wakeful s := by
  have kept := kept_of_reaches reached
  refine ⟨fun thread operation outcome a next did first stepped => ?_, fun thread since next stepped => ?_, ?_, ?_⟩
  · rw [step] at stepped
    split at stepped
    next => cases stepped
    next =>
      rw [did] at stepped
      obtain rfl := Option.some.inj stepped
      have decides := locked_decides kept.shaped did
      have other (now : Nat) : operation ≠ .getNextTimer now := by
        rintro rfl
        obtain ⟨_, _, _, _, _, same⟩ | ⟨_, _, _, _, same⟩ := first.puts <;> cases same
      have after : Kept (s.after thread operation outcome) := kept.locked did
      have tickled : (s.after thread operation outcome).manager.tickled = true := by
        rw [after_other other]
        simp [decides.tickled other, decides.first a first]
      have one := after.since
      rw [tickled, if_pos rfl] at one
      by_cases called : 0 < (s.after thread operation outcome).fresh
      · exact .inl (Nat.add_pos_left called _)
      · have waiting : 0 < (s.after thread operation outcome).calling.countP Prod.snd := by omega
        obtain ⟨⟨other, since⟩, inside, rfl⟩ := List.countP_pos_iff.mp waiting
        exact .inr ⟨other, inside⟩
  · rw [step] at stepped
    split at stepped
    next =>
      obtain rfl := Option.some.inj stepped
      cases since <;> simp only [calls, Bool.false_eq_true, if_true, if_false] <;> omega
    next => cases stepped
  · rw [kept.since]
    split <;> omega
  · have since := kept.since
    have before := kept.before
    have flag : (if s.manager.tickled then 1 else 0) ≤ 1 := by split <;> omega
    unfold calls
    omega

/-- Two timers are put first one after the other by two threads, and one call is enough for both. -/
theorem pollers_woken_once :
    ∃ s : Waking Bool Unit, (machine Bool Unit).Reaches (fun _ _ => True) s ∧ s.calls = 1 ∧ s.late = 0 ∧
      s.manager.timers = [9, 5] ∧ Wakeful s := by
  obtain ⟨s, reached, test⟩ := System.reaches_test (machine Bool Unit) (fun _ _ => True) (fun _ _ => true)
    (fun _ _ _ => trivial) ⟨.initial, [], 0, 0, 0⟩ rfl
    [.locked true (.getNextTimer 1), .locked true (.addTimer .spine 1 5 100 (some ()) false),
      .onTimerInsertedAtFront true true, .locked false (.addTimer .spine 1 9 10 (some ()) false)]
    (fun s => s.calls = 1 ∧ s.late = 0 ∧ s.manager.timers = [9, 5]) (by decide)
  obtain ⟨calls, late, timers⟩ := of_decide_eq_true test
  exact ⟨s, reached, calls, late, timers, pollers_woken reached⟩

/-- A thread returns from `addTimer` with the earliest timer before the call of another
one, and with a reading between a decision and its call there are two calls. -/
theorem wakeups_overlap :
    (∃ s next : Waking Bool Unit, (machine Bool Unit).Reaches (fun _ _ => True) s ∧
      s.step (.locked true (.addTimer .spine 1 9 10 (some ()) false)) = some next ∧
      next.manager.timers = [9, 5] ∧ next.manager.deadline 9 = 11 ∧ next.manager.deadline 5 = 101 ∧
      next.calls = 0 ∧ next.calling = [(false, true)]) ∧
    ∃ s : Waking Bool Unit, (machine Bool Unit).Reaches (fun _ _ => True) s ∧ s.calls = 2 := by
  constructor
  · obtain ⟨s, reached, test⟩ := System.reaches_test (machine Bool Unit) (fun _ _ => True) (fun _ _ => true)
      (fun _ _ _ => trivial) ⟨.initial, [], 0, 0, 0⟩ rfl
      [.locked false (.getNextTimer 1), .locked false (.addTimer .spine 1 5 100 (some ()) false)]
      (fun s => (s.step (.locked true (.addTimer .spine 1 9 10 (some ()) false))).any fun next =>
        next.manager.timers = [9, 5] ∧ next.manager.deadline 9 = 11 ∧ next.manager.deadline 5 = 101 ∧
          next.calls = 0 ∧ next.calling = [(false, true)]) (by decide)
    obtain ⟨next, stepped, passed⟩ := (Option.any_eq_true _ _).mp test
    exact ⟨s, next, reached, stepped, of_decide_eq_true passed⟩
  · obtain ⟨s, reached, test⟩ := System.reaches_test (machine Bool Unit) (fun _ _ => True) (fun _ _ => true)
      (fun _ _ _ => trivial) ⟨.initial, [], 0, 0, 0⟩ rfl
      [.locked false (.addTimer .spine 1 5 100 (some ()) false), .locked true (.getNextTimer 1),
        .locked true (.addTimer .spine 1 9 10 (some ()) false), .onTimerInsertedAtFront true true,
        .onTimerInsertedAtFront false false]
      (fun s => s.calls = 2) (by decide)
    exact ⟨s, reached, of_decide_eq_true test⟩

end Waking
end HpsSf
