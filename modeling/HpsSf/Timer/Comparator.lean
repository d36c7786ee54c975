import HpsSf.Timer.Membership
import Mathlib.Order.RelClasses
import Mathlib.Order.WithBot

/-! The laws that `std::set` asks of the comparator.

Where a later timer lies at the lower address, each of the two is less than the
other. Where no two timers lie so, the comparator is the order of the addresses
with the null pointer below them, and a set that it keeps is in order.
-/

set_option autoImplicit false

namespace HpsSf.Timer
open Foundation (System add64 sub64 wrap64)
open Foundation.SearchTree (Shape)
open TimerManager

variable {C : Type} {heap : Addr → Option (Timer C)}

/-- The address of a timer that lives. -/
abbrev Place (heap : Addr → Option (Timer C)) := {a : Addr // (heap a).isSome = true}

def Place.timer (a : Place heap) : Timer C := (heap a.1).get a.2

/-- `hps_Timer::ptr`, which may be null. -/
abbrev Pointer (heap : Addr → Option (Timer C)) := Option (Place heap)

/-- `Comparator` on two pointers. -/
def Less (lhs rhs : Pointer heap) : Prop :=
  comparator (lhs.map fun a => (a.1, a.timer)) (rhs.map fun a => (a.1, a.timer)) = true

/-- What `std::set` relies on, and what the manager reads into its order. -/
structure Lawful (heap : Addr → Option (Timer C)) : Prop where
  /-- Irreflexive and transitive, with transitive incomparability. -/
  weak : IsStrictWeakOrder (Pointer heap) Less
  asymm : ∀ lhs rhs : Pointer heap, Less lhs rhs → ¬ Less rhs lhs
  distinct : ∀ a b : Place heap, a ≠ b → Less (some a) (some b) ∨ Less (some b) (some a)
  refines : ∀ a b : Place heap, b.timer.next < a.timer.next → ¬ Less (some a) (some b)

/-- A later timer lies at the higher address. -/
def Ascending (heap : Addr → Option (Timer C)) : Prop :=
  ∀ a b : Place heap, a.timer.next < b.timer.next → a.1 < b.1

theorem less_iff (a b : Place heap) :
    Less (some a) (some b) ↔ a.timer.next < b.timer.next ∨ a.1 < b.1 := by
  by_cases earlier : a.timer.next < b.timer.next <;> simp [Less, comparator, earlier]

/-- The address, with the null pointer below all. -/
def rank : Pointer heap → WithBot Nat
  | none => ⊥
  | some a => WithBot.some a.1

theorem Ascending.less_iff_rank (ascending : Ascending heap) (lhs rhs : Pointer heap) :
    Less lhs rhs ↔ rank lhs < rank rhs := by
  cases lhs with
  | none =>
    cases rhs with
    | none => simp [Less, comparator, rank]
    | some b => simp [Less, comparator, rank]
  | some a =>
    cases rhs with
    | none => simp [Less, comparator, rank]
    | some b =>
      rw [less_iff, rank, rank, WithBot.coe_lt_coe]
      exact ⟨fun less => less.elim (ascending a b) id, .inr⟩

theorem Lawful.ascending (lawful : Lawful heap) : Ascending heap := by
  intro a b earlier
  by_contra notBelow
  have distinct : b.1 ≠ a.1 := by
    intro same
    rw [Subtype.ext same] at earlier
    exact Nat.lt_irrefl _ earlier
  have below : b.1 < a.1 := Nat.lt_of_le_of_ne (Nat.le_of_not_lt notBelow) distinct
  -- The deadlines say one thing and the addresses the other.
  exact lawful.asymm (some a) (some b) ((less_iff a b).mpr (.inl earlier)) ((less_iff b a).mpr (.inr below))

theorem Ascending.lawful (ascending : Ascending heap) : Lawful heap := by
  have same : (Less : Pointer heap → Pointer heap → Prop) = Order.Preimage rank (· < ·) := by
    funext lhs rhs
    exact propext (ascending.less_iff_rank lhs rhs)
  refine ⟨?_, fun lhs rhs less more => ?_, fun a b distinct => ?_, fun a b later less => ?_⟩
  · rw [same]
    have order : IsStrictWeakOrder (WithBot Nat) (· < ·) := isStrictWeakOrder_of_isOrderConnected
    infer_instance
  · rw [ascending.less_iff_rank] at less more
    exact lt_asymm less more
  · obtain below | above := Nat.lt_or_gt_of_ne fun same => distinct (Subtype.ext same)
    · exact .inl ((less_iff a b).mpr (.inr below))
    · exact .inr ((less_iff b a).mpr (.inr above))
  · have above := ascending b a later
    obtain earlier | below := (less_iff a b).mp less
    · exact lt_asymm earlier later
    · exact lt_asymm below above

/-- The comparator keeps to its laws on exactly the heaps in which the order of
the deadlines and the order of the addresses agree. -/
theorem lawful_iff (heap : Addr → Option (Timer C)) : Lawful heap ↔ Ascending heap :=
  ⟨Lawful.ascending, Ascending.lawful⟩

/-- A timer at the lower address that is due later. -/
def laterBelow : Addr → Option (Timer Unit) := fun a =>
  if a = 5 then some ⟨false, 100, 101, some ()⟩
  else if a = 9 then some ⟨false, 10, 11, some ()⟩
  else none

/-- Each of the two timers is less than the other. -/
theorem comparator_symmetric :
    Less (some ⟨5, rfl⟩ : Pointer laterBelow) (some ⟨9, rfl⟩) ∧
      Less (some ⟨9, rfl⟩ : Pointer laterBelow) (some ⟨5, rfl⟩) ∧ ¬ Lawful laterBelow := by
  have below : Less (some ⟨5, rfl⟩ : Pointer laterBelow) (some ⟨9, rfl⟩) := by
    unfold Less
    decide
  have above : Less (some ⟨9, rfl⟩ : Pointer laterBelow) (some ⟨5, rfl⟩) := by
    unfold Less
    decide
  exact ⟨below, above, fun lawful => lawful.asymm _ _ below above⟩

/-! ## A set whose comparator is lawful -/

/-- The operation leaves timers that the comparator orders lawfully. -/
def KeepsLaws (m : TimerManager C) (label : Label C) : Prop := ∀ next, m.step label = some next → Lawful next.heap

/-- The key of a timer in the heap. -/
def Held (heap : Addr → Option (Timer C)) (k : Key) : Prop := ∃ timer, heap k.1 = some timer ∧ timer.next = k.2

theorem Ascending.bothSides (ascending : Ascending heap) {u x : Key} (first : Held heap u) (second : Held heap x) :
    BothSides u x := by
  obtain ⟨s, at_first, nextFirst⟩ := first
  obtain ⟨t, at_second, nextSecond⟩ := second
  have timerFirst : Place.timer (⟨u.1, by simp [at_first]⟩ : Place heap) = s := by simp [Place.timer, at_first]
  have timerSecond : Place.timer (⟨x.1, by simp [at_second]⟩ : Place heap) = t := by simp [Place.timer, at_second]
  constructor
  · intro earlier
    refine ascending ⟨u.1, by simp [at_first]⟩ ⟨x.1, by simp [at_second]⟩ ?_
    rw [timerFirst, timerSecond, nextFirst, nextSecond]
    exact earlier
  · intro later
    refine ascending ⟨x.1, by simp [at_second]⟩ ⟨u.1, by simp [at_first]⟩ ?_
    rw [timerFirst, timerSecond, nextFirst, nextSecond]
    exact later

theorem agree_of_forall {agrees : Key → Key → Prop} {present planned : List Key}
    (all : ∀ u ∈ present ++ planned, ∀ x ∈ planned, agrees u x) : Agree agrees present planned := by
  induction planned generalizing present with
  | nil => trivial
  | cons x rest ih =>
    refine ⟨fun u member => all u (List.mem_append_left _ member) x (List.mem_cons_self ..),
      ih fun u member y later => ?_⟩
    refine all u ?_ y (List.mem_cons_of_mem _ later)
    simp only [List.cons_append, List.mem_cons, List.mem_append] at member ⊢
    tauto

section
variable {m next : TimerManager C}

theorem held_key {u : Addr} (live : (m.heap u).isSome = true) : Held m.heap (m.key u) := by
  obtain ⟨timer, found⟩ := Option.isSome_iff_exists.mp live
  exact ⟨timer, found, by simp [key, deadline, found]⟩

/-- One timer is written and inserted among others. -/
theorem held_update {timers : List Addr} {a : Addr} (timer : Timer C)
    (live : ∀ u ∈ timers, (m.heap u).isSome = true) (out : a ∉ timers) :
    ∀ k ∈ timers.map m.key ++ [(a, timer.next)], Held (Function.update m.heap a (some timer)) k := by
  intro k member
  obtain kept | new := List.mem_append.mp member
  · obtain ⟨u, inside, rfl⟩ := List.mem_map.mp kept
    obtain ⟨other, found, same⟩ := held_key (live u inside)
    exact ⟨other, (Function.update_of_ne (ne_of_mem_of_not_mem inside out) ..).trans found, same⟩
  · obtain rfl := List.mem_singleton.mp new
    exact ⟨timer, Function.update_self .., rfl⟩

theorem held_listExpired (shaped : Shaped m) (shape : Shape Addr) (now : Nat) :
    ∀ k ∈ (m.unexpired now).map m.key ++ m.renewed now (m.expired now), Held (m.listExpiredCb shape now).2.heap k := by
  obtain ⟨front, apart⟩ := shaped.expired_apart now
  have heap (u : Addr) : (m.listExpiredCb shape now).2.heap u =
      if u ∈ m.expired now then (m.heap u).map (fired now) else m.heap u := fire_heap shape now front u
  intro k member
  obtain kept | new := List.mem_append.mp member
  · obtain ⟨u, inside, rfl⟩ := List.mem_map.mp kept
    obtain ⟨timer, found, same⟩ := held_key (shaped.live u ((List.dropWhile_sublist _).subset inside))
    exact ⟨timer, (heap u).trans ((if_neg fun due => apart u due inside).trans found), same⟩
  · obtain ⟨u, due, planned⟩ := List.mem_filterMap.mp new
    cases found : m.heap u with
    | none => simp [found] at planned
    | some timer =>
      cases recurring : timer.recurring with
      | false => simp [found, recurring] at planned
      | true =>
        simp only [found, recurring, if_true, Option.some.injEq] at planned
        subst planned
        exact ⟨fired now timer, by rw [heap, if_pos due, found, Option.map_some], by simp [fired, recurring]⟩

/-- A timer of the set is taken out, written and put back. -/
theorem held_reinsert (shaped : Shaped m) (a : Addr) (timer : Timer C) :
    ∀ k ∈ (m.timers.erase a).map m.key ++ [(a, timer.next)], Held (Function.update m.heap a (some timer)) k :=
  held_update timer (fun u member => shaped.live u (List.mem_of_mem_erase member)) shaped.nodup.not_mem_erase

/-- Counting the old interval anew from the old start changes nothing. -/
theorem resetNext_same {timer : Timer C} (small : timer.next < 2 ^ 64) (now : Nat) :
    resetNext timer now timer.ms false = timer.next := by
  unfold resetNext add64 sub64 wrap64
  simp only [Bool.false_eq_true, if_false]
  omega

theorem held_refresh {shape : Shape Addr} {now : Nat} {a : Addr} (shaped : Shaped m)
    (stepped : m.step (.refresh shape now a) = some next) : m.planned (.refresh shape now a) = [] ∨
      ∀ k ∈ (m.kept (.refresh shape now a)).map m.key ++ m.planned (.refresh shape now a), Held next.heap k := by
  rw [TimerManager.step, refresh] at stepped
  rw [planned, kept]
  cases found : m.heap a with
  | none => exact .inl rfl
  | some timer =>
    simp only [found] at stepped ⊢
    by_cases active : timer.cb.isSome
    · cases located : m.find shape a with
      | none => exact .inl (by simp)
      | some it =>
        simp only [active, located, if_true] at stepped
        obtain rfl := Option.some.inj stepped
        obtain ⟨rfl, -⟩ := shaped.find_eq (by simp [found]) located
        simp only [active, Option.isSome_some, Bool.and_self, if_true]
        exact .inr (held_reinsert shaped it { timer with next := add64 now timer.ms })
    · exact .inl (by simp [active])

theorem held_reset {shape : Shape Addr} {now : Nat} {a : Addr} {ms : Nat} {fromNow : Bool} (shaped : Shaped m)
    (stepped : m.step (.reset shape now a ms fromNow) = some next) : m.planned (.reset shape now a ms fromNow) = [] ∨
      ∀ k ∈ (m.kept (.reset shape now a ms fromNow)).map m.key ++ m.planned (.reset shape now a ms fromNow),
        Held next.heap k := by
  rw [TimerManager.step, reset] at stepped
  rw [planned, kept]
  cases found : m.heap a with
  | none => exact .inl rfl
  | some timer =>
    simp only [found] at stepped ⊢
    by_cases same : ms = timer.ms ∧ fromNow = false
    · -- Nothing is written, and the deadline would be the one that the timer has.
      rw [if_pos same] at stepped
      obtain rfl := Option.some.inj stepped
      obtain ⟨rfl, rfl⟩ := same
      split
      · have still := held_reinsert shaped a timer
        rw [← found, Function.update_eq_self] at still
        rw [resetNext_same (shaped.small a timer found)]
        exact .inr still
      · exact .inl rfl
    by_cases active : timer.cb.isSome
    · cases located : m.find shape a with
      | none => exact .inl (by simp)
      | some it =>
        simp only [same, active, located, if_true, if_false] at stepped
        obtain rfl := Option.some.inj stepped
        obtain ⟨rfl, -⟩ := shaped.find_eq (by simp [found]) located
        simp only [active, Option.isSome_some, Bool.and_self, if_true]
        exact .inr (held_reinsert shaped it { timer with ms := ms, next := resetNext timer now ms fromNow })
    · exact .inl (by simp [active])

/-- What an operation inserts, and what it inserts among, is in the heap behind it. -/
theorem held_after {label : Label C} (shaped : Shaped m) (stepped : m.step label = some next) :
    m.planned label = [] ∨ ∀ k ∈ (m.kept label).map m.key ++ m.planned label, Held next.heap k := by
  cases label with
  | addTimer shape now a ms cb recurring =>
    obtain ⟨free, rfl⟩ := addTimer_ok stepped
    exact .inr (held_update ⟨recurring, ms, add64 now ms, cb⟩ shaped.live (shaped.absent free))
  | refresh shape now a => exact held_refresh shaped stepped
  | reset shape now a ms fromNow => exact held_reset shaped stepped
  | listExpiredCb shape now =>
    obtain rfl := Option.some.inj stepped
    exact .inr (held_listExpired shaped shape now)
  | cancel | getNextTimer | release => exact .inl rfl

/-- What keeps the laws inserts nothing that disagrees with the set. -/
theorem KeepsLaws.inserts {label : Label C} (keeps : KeepsLaws m label) (shaped : Shaped m)
    (stepped : m.step label = some next) : Inserts BothSides m label := by
  obtain none | held := held_after shaped stepped
  · rw [Inserts, none]
    trivial
  have ascending := (keeps next stepped).ascending
  refine agree_of_forall fun u first x second => ascending.bothSides (held u first) (held x ?_)
  exact List.mem_append_right _ second

/-- In every run that leaves the timers lawful behind each operation, the set is in
the order of the deadlines and finds each of its timers. -/
theorem set_in_order (reached : (machine C).Reaches KeepsLaws m) :
    Ordered byBoth m ∧ ∀ shape, ∀ a ∈ m.timers, m.find shape a = some a := by
  have ordered : Ordered byBoth m := by
    refine reached.invariant (P := Ordered byBoth) (fun m begins => ?_) fun m label next ordered keeps stepped =>
      step_ordered ordered (keeps.inserts ordered.toShaped stepped) stepped
    rw [show m = initial from begins]
    exact ⟨⟨nofun, List.nodup_nil, nofun⟩, List.Pairwise.nil⟩
  exact ⟨ordered, fun shape a member => ordered.find_of_mem shape member⟩

end

end HpsSf.Timer
