import HpsSf.Timer.Manager

/-! The iteration order of the timers.

The comparator orders two timers right unless the later one lies at the lower
address. An order of the set survives as long as no insertion meets such a pair;
the order of the deadlines needs this in one direction, lookup in both.
-/

set_option autoImplicit false

namespace HpsSf.TimerManager
open Foundation (System add64 sub64 wrap64_lt)
open Foundation.SearchTree (Shape inorder perm_insert pairwise_insert)

variable {C : Type} {m : TimerManager C}

/-- An address and the deadline of the timer there. -/
abbrev Key := Nat × Nat

/-- What the comparator makes of two timers. -/
def less (l r : Key) : Bool := l.2 < r.2 || l.1 < r.1

def key (m : TimerManager C) (a : Addr) : Key := (a, m.deadline a)

theorem lt_eq_less {a b : Addr} (first : (m.heap a).isSome = true) (second : (m.heap b).isSome = true) :
    m.lt a b = less (m.key a) (m.key b) := by
  obtain ⟨l, left⟩ := Option.isSome_iff_exists.mp first
  obtain ⟨r, right⟩ := Option.isSome_iff_exists.mp second
  simp [lt, left, right, Timer.comparator, less, key, deadline]

theorem less_self (k : Key) : less k k = false := by simp [less]

/-- Two timers are equivalent for the comparator only at one address. -/
theorem less_total {l r : Key} (distinct : l.1 ≠ r.1) (notLess : less l r = false) : less r l = true := by
  simp only [less, Bool.or_eq_false_iff, decide_eq_false_iff_not, Bool.or_eq_true, decide_eq_true_eq] at *
  omega

structure Shaped (m : TimerManager C) : Prop where
  live : ∀ a ∈ m.timers, (m.heap a).isSome = true
  nodup : m.timers.Nodup
  small : ∀ a timer, m.heap a = some timer → timer.next < 2 ^ 64

/-- A timer that has just been allocated is not in the set. -/
theorem Shaped.absent (shaped : Shaped m) {a : Addr} (free : m.heap a = none) : a ∉ m.timers := by
  intro member
  have live := shaped.live a member
  rw [free] at live
  cases live

/-- An order on timers, and what an insertion has to respect to keep it. -/
structure Discipline where
  ordered : Key → Key → Prop
  agrees : Key → Key → Prop
  trans : ∀ {a b c}, ordered a b → ordered b c → ordered a c
  before : ∀ {u x : Key}, u.1 ≠ x.1 → agrees u x → less x u = false → ordered u x
  after : ∀ {u x : Key}, u.1 ≠ x.1 → agrees u x → less x u = true → ordered x u

/-- A timer of the set that is due earlier than the inserted one lies below it. -/
def EarlierBelow (u x : Key) : Prop := u.2 < x.2 → u.1 < x.1

/-- A timer of the set that is due later than the inserted one lies above it. -/
def LaterAbove (u x : Key) : Prop := x.2 < u.2 → x.1 < u.1

instance : DecidableRel EarlierBelow := fun _ _ => inferInstanceAs (Decidable (_ → _))

instance : DecidableRel LaterAbove := fun _ _ => inferInstanceAs (Decidable (_ → _))

/-- Iteration follows the deadlines. -/
def byDeadline : Discipline where
  ordered u v := u.2 ≤ v.2
  agrees := EarlierBelow
  trans := Nat.le_trans
  before {u x} _ _ notLess := by
    simp only [less, Bool.or_eq_false_iff, decide_eq_false_iff_not] at notLess
    omega
  after {u x} _ agrees less' := by
    simp only [EarlierBelow] at agrees
    simp only [less, Bool.or_eq_true, decide_eq_true_eq] at less'
    omega

def BothSides (u x : Key) : Prop := EarlierBelow u x ∧ LaterAbove u x

instance : DecidableRel BothSides := fun _ _ => inferInstanceAs (Decidable (_ ∧ _))

/-- Iteration follows the deadlines and the addresses. -/
def byBoth : Discipline where
  ordered u v := u.2 ≤ v.2 ∧ u.1 < v.1
  agrees := BothSides
  trans first second := ⟨Nat.le_trans first.1 second.1, Nat.lt_trans first.2 second.2⟩
  before {u x} distinct _ notLess := by
    simp only [less, Bool.or_eq_false_iff, decide_eq_false_iff_not] at notLess
    omega
  after {u x} distinct agrees less' := by
    simp only [BothSides, EarlierBelow, LaterAbove] at agrees
    simp only [less, Bool.or_eq_true, decide_eq_true_eq] at less'
    omega

/-! ## What a call inserts -/

/-- The timers that stay in the set before the call inserts. -/
def kept (m : TimerManager C) : Label C → List Addr
  | .refresh _ _ a | .reset _ _ a _ _ => m.timers.erase a
  | .listExpiredCb _ now => m.unexpired now
  | _ => m.timers

/-- The new deadlines of the recurring ones among expired timers. -/
def renewed (m : TimerManager C) (now : Nat) (timers : List Addr) : List Key :=
  timers.filterMap fun a =>
    match m.heap a with
    | some timer => if timer.recurring then some (a, add64 now timer.ms) else none
    | none => none

/-- The timers that the call inserts, with their deadlines, in this order. -/
def planned (m : TimerManager C) : Label C → List Key
  | .addTimer _ now a ms _ _ => [(a, add64 now ms)]
  | .refresh shape now a =>
      match m.heap a with
      | some timer => if timer.cb.isSome && (m.find shape a).isSome then [(a, add64 now timer.ms)] else []
      | none => []
  | .reset shape now a ms fromNow =>
      match m.heap a with
      | some timer =>
          if timer.cb.isSome && (m.find shape a).isSome then [(a, resetNext timer now ms fromNow)] else []
      | none => []
  | .listExpiredCb _ now => m.renewed now (m.expired now)
  | .cancel _ _ | .getNextTimer _ | .release _ => []

/-- Each timer agrees with those in the set when it is inserted. -/
def Agree (agrees : Key → Key → Prop) : List Key → List Key → Prop
  | _, [] => True
  | present, x :: rest => (∀ u ∈ present, agrees u x) ∧ Agree agrees (x :: present) rest

instance Agree.decidable (agrees : Key → Key → Prop) [DecidableRel agrees] :
    ∀ present planned, Decidable (Agree agrees present planned)
  | _, [] => isTrue trivial
  | present, x :: rest =>
      have := Agree.decidable agrees (x :: present) rest
      inferInstanceAs (Decidable ((∀ u ∈ present, agrees u x) ∧ Agree agrees (x :: present) rest))

def Inserts (agrees : Key → Key → Prop) (m : TimerManager C) (label : Label C) : Prop :=
  Agree agrees ((m.kept label).map m.key) (m.planned label)

instance {agrees : Key → Key → Prop} [DecidableRel agrees] (m : TimerManager C) (label : Label C) :
    Decidable (Inserts agrees m label) :=
  Agree.decidable _ _ _

/-! ## The set in a run -/

/-- The set is well formed and ordered. -/
structure Ordered (D : Discipline) (m : TimerManager C) : Prop extends Shaped m where
  ordered : m.timers.Pairwise fun u v => D.ordered (m.key u) (m.key v)

theorem deadline_write (a : Addr) (timer : Timer C) : (m.write a timer).deadline a = timer.next := by
  simp [deadline, write]

theorem key_write_of_ne {a u : Addr} (other : u ≠ a) (timer : Timer C) : (m.write a timer).key u = m.key u := by
  simp [key, deadline, write, other]

/-- Writing a timer is harmless when it is not in the set, or keeps its deadline. -/
theorem Ordered.write {D : Discipline} (ordered : Ordered D m) {a : Addr} {timer : Timer C}
    (small : timer.next < 2 ^ 64) (harmless : a ∉ m.timers ∨ timer.next = m.deadline a) :
    Ordered D (m.write a timer) where
  live u member := by
    rcases eq_or_ne u a with rfl | other
    · simp [TimerManager.write]
    · simpa [TimerManager.write, other] using ordered.live u member
  nodup := ordered.nodup
  small u other found := by
    rcases eq_or_ne u a with rfl | distinct
    · simp only [TimerManager.write, Function.update_self, Option.some.injEq] at found
      rwa [← found]
    · exact ordered.small u other (by simpa [TimerManager.write, distinct] using found)
  ordered := by
    have same (u : Addr) (member : u ∈ m.timers) : (m.write a timer).key u = m.key u := by
      rcases eq_or_ne u a with rfl | other
      · have next := harmless.resolve_left (not_not_intro member)
        rw [key, deadline_write, next, key]
      · exact key_write_of_ne other timer
    exact ordered.ordered.imp_of_mem fun first second holds => by rwa [same _ first, same _ second]

/-- Taking timers out of the set is harmless. -/
theorem Ordered.sublist {D : Discipline} (ordered : Ordered D m) {timers : List Addr}
    (sub : timers.Sublist m.timers) : Ordered D { m with timers := timers } where
  live a member := ordered.live a (sub.subset member)
  nodup := ordered.nodup.sublist sub
  small := ordered.small
  ordered := ordered.ordered.sublist sub

/-- An insertion that respects the discipline keeps the order. -/
theorem Ordered.insert {D : Discipline} (ordered : Ordered D m) (shape : Shape Addr) {a : Addr}
    (live : (m.heap a).isSome = true) (absent : a ∉ m.timers)
    (agrees : ∀ u ∈ m.timers, D.agrees (m.key u) (m.key a)) :
    Ordered D (m.insert shape a) ∧ (m.insert shape a).timers.Perm (a :: m.timers) ∧
      (shape.insert m.lt a m.timers).2 = a := by
  have other {u : Addr} (member : u ∈ m.timers) : u ≠ a := fun same => absent (same ▸ member)
  have fresh (u : Addr) (member : u ∈ m.timers) (notLess : m.lt a u = false) : m.lt u a = true := by
    rw [lt_eq_less live (ordered.live u member)] at notLess
    rw [lt_eq_less (ordered.live u member) live]
    exact less_total (other member).symm notLess
  have inserted := shape.insert_eq fresh
  have perm : (m.insert shape a).timers.Perm (a :: m.timers) := by
    simp only [TimerManager.insert, inserted]
    exact (perm_insert a _).trans (by rw [shape.inorder_build])
  refine ⟨⟨⟨fun u member => ?_, ?_, ordered.small⟩, ?_⟩, perm, by rw [inserted]⟩
  · rcases List.mem_cons.mp (perm.mem_iff.mp member) with rfl | old
    · exact live
    · exact ordered.live u old
  · exact perm.nodup_iff.mpr (List.nodup_cons.mpr ⟨absent, ordered.nodup⟩)
  · have whole : (m.insert shape a).timers =
        inorder (Foundation.SearchTree.insert m.lt a (shape.build m.timers)) := by
      simp only [TimerManager.insert, inserted]
    rw [whole]
    refine pairwise_insert (fun u v => D.ordered (m.key u) (m.key v)) D.trans (fun u member notLess => ?_)
      (fun u member less => ?_) (by rw [shape.inorder_build]; exact ordered.ordered)
    · rw [shape.inorder_build] at member
      rw [lt_eq_less live (ordered.live u member)] at notLess
      exact D.before (other member) (agrees u member) notLess
    · rw [shape.inorder_build] at member
      rw [lt_eq_less live (ordered.live u member)] at less
      exact D.after (other member) (agrees u member) less

/-- Lookup finds nothing but the timer itself. -/
theorem Shaped.find_eq (shaped : Shaped m) {shape : Shape Addr} {a it : Addr}
    (live : (m.heap a).isSome = true) (found : m.find shape a = some it) : it = a ∧ a ∈ m.timers := by
  obtain ⟨member, first, second⟩ := shape.find_eq_some found
  have same : it = a := by
    by_contra distinct
    rw [lt_eq_less (shaped.live it member) live] at first
    rw [lt_eq_less live (shaped.live it member), less_total distinct first] at second
    cases second
  subst same
  exact ⟨rfl, member⟩

theorem renewed_write {now : Nat} {a : Addr} {timers : List Addr} (absent : a ∉ timers) (timer : Timer C) :
    (m.write a timer).renewed now timers = m.renewed now timers := by
  refine List.filterMap_congr fun u member => ?_
  have other : u ≠ a := fun same => absent (same ▸ member)
  simp [TimerManager.write, other]

/-- The expired timers go back into the set one by one, if they recur. -/
theorem Ordered.fire {D : Discipline} (shape : Shape Addr) (now : Nat) {expired : List Addr}
    (ordered : Ordered D m) (live : ∀ a ∈ expired, (m.heap a).isSome = true) (nodup : expired.Nodup)
    (absent : ∀ a ∈ expired, a ∉ m.timers) (present : List Key)
    (covers : ∀ u ∈ m.timers, m.key u ∈ present)
    (agree : Agree D.agrees present (m.renewed now expired)) :
    Ordered D (fire shape now expired m).2 ∧ ∀ u, u ∈ (fire shape now expired m).2.timers ↔
      u ∈ m.timers ∨ u ∈ (m.renewed now expired).map Prod.fst := by
  induction expired generalizing m present with
  | nil => exact ⟨ordered, fun u => by simp [TimerManager.fire, renewed]⟩
  | cons a rest ih =>
    obtain ⟨timer, found⟩ := Option.isSome_iff_exists.mp (live a (List.mem_cons_self ..))
    obtain ⟨apart, restNodup⟩ := List.nodup_cons.mp nodup
    have out := absent a (List.mem_cons_self ..)
    have restLive (after : Timer C) (u : Addr) (member : u ∈ rest) :
        ((m.write a after).heap u).isSome = true := by
      have other : u ≠ a := fun same => apart (same ▸ member)
      simpa [TimerManager.write, other] using live u (List.mem_cons_of_mem _ member)
    have keys (after : Timer C) (u : Addr) (member : u ∈ m.timers) : (m.write a after).key u = m.key u :=
      key_write_of_ne (ne_of_mem_of_not_mem member out) after
    have small := ordered.small a timer found
    obtain ⟨recurring, ms, next, cb⟩ := timer
    cases recurring with
    | false =>
      have planned : m.renewed now (a :: rest) = m.renewed now rest := by simp [renewed, found]
      rw [planned] at agree ⊢
      simp only [TimerManager.fire, found, Bool.false_eq_true, if_false]
      have written : Ordered D (m.write a ⟨false, ms, next, none⟩) := ordered.write small (.inl out)
      have later := ih written (restLive _) restNodup
        (fun u member => absent u (List.mem_cons_of_mem _ member)) present
        (fun u member => by rw [keys _ u member]; exact covers u member)
        (by rwa [renewed_write apart])
      rwa [renewed_write apart] at later
    | true =>
      have planned : m.renewed now (a :: rest) = (a, add64 now ms) :: m.renewed now rest := by
        simp [renewed, found]
      rw [planned] at agree ⊢
      simp only [TimerManager.fire, found, if_true]
      have written : Ordered D (m.write a ⟨true, ms, add64 now ms, cb⟩) :=
        ordered.write (wrap64_lt _) (.inl out)
      have here : (m.write a ⟨true, ms, add64 now ms, cb⟩).key a = (a, add64 now ms) := by
        rw [key, deadline_write]
      obtain ⟨inserted, perm, _⟩ := written.insert shape (by simp [TimerManager.write]) out fun u member => by
        rw [here, keys _ u member]
        exact agree.1 _ (covers u member)
      have same : ((m.write a ⟨true, ms, add64 now ms, cb⟩).insert shape a).renewed now rest =
          m.renewed now rest := renewed_write apart _
      obtain ⟨last, members⟩ := ih inserted (restLive _) restNodup
        (fun u member => by
          rw [perm.mem_iff, List.mem_cons, not_or]
          exact ⟨fun same => apart (same ▸ member), absent u (List.mem_cons_of_mem _ member)⟩)
        ((a, add64 now ms) :: present)
        (fun u member => by
          rcases List.mem_cons.mp (perm.mem_iff.mp member) with rfl | old
          · exact List.mem_cons.mpr (.inl here)
          · exact List.mem_cons_of_mem _ ((keys _ u old).symm ▸ covers u old))
        (by rw [same]; exact agree.2)
      refine ⟨last, fun u => ?_⟩
      rw [members u, same, perm.mem_iff, List.mem_cons, List.map_cons, List.mem_cons, or_assoc, or_left_comm]
      rfl

theorem mem_renewed {now : Nat} {timers : List Addr} {u : Addr} :
    u ∈ (m.renewed now timers).map Prod.fst ↔
      u ∈ timers ∧ ∃ timer, m.heap u = some timer ∧ timer.recurring = true := by
  simp only [renewed, List.mem_map, List.mem_filterMap]
  constructor
  · rintro ⟨_, ⟨a, member, planned⟩, rfl⟩
    cases found : m.heap a with
    | none => simp [found] at planned
    | some timer =>
      cases recurring : timer.recurring with
      | false => simp [found, recurring] at planned
      | true =>
        simp only [found, recurring, if_true, Option.some.injEq] at planned
        exact planned ▸ ⟨member, timer, found, recurring⟩
  · rintro ⟨member, timer, found, recurring⟩
    exact ⟨(u, add64 now timer.ms), ⟨u, member, by simp [found, recurring]⟩, rfl⟩

theorem expired_append (m : TimerManager C) (now : Nat) : m.expired now ++ m.unexpired now = m.timers :=
  List.takeWhile_append_dropWhile

theorem Shaped.expired_apart (shaped : Shaped m) (now : Nat) :
    (m.expired now).Nodup ∧ ∀ a ∈ m.expired now, a ∉ m.unexpired now := by
  have nodup := shaped.nodup
  rw [← expired_append m now] at nodup
  obtain ⟨front, _, across⟩ := List.nodup_append.mp nodup
  exact ⟨front, fun a member back => across a member a back rfl⟩

/-- After expiry the set holds the timers that were not due and those that recur. -/
theorem Ordered.listExpired {D : Discipline} (ordered : Ordered D m) (shape : Shape Addr) (now : Nat)
    (inserts : Inserts D.agrees m (.listExpiredCb shape now)) :
    Ordered D (m.listExpiredCb shape now).2 ∧ ∀ u, u ∈ (m.listExpiredCb shape now).2.timers ↔
      u ∈ m.unexpired now ∨ u ∈ m.expired now ∧ ∃ timer, m.heap u = some timer ∧ timer.recurring = true := by
  obtain ⟨front, apart⟩ := ordered.expired_apart now
  obtain ⟨last, members⟩ := (ordered.sublist (List.dropWhile_sublist _)).fire shape now
    (fun a member => ordered.live a (expired_append m now ▸ List.mem_append_left _ member)) front apart _
    (fun u member => List.mem_map_of_mem member) inserts
  exact ⟨last, fun u => by rw [← mem_renewed (m := m)]; exact members u⟩

theorem Ordered.tickle {D : Discipline} (ordered : Ordered D m) (tickled : Bool) :
    Ordered D { m with tickled := tickled } :=
  ⟨⟨ordered.live, ordered.nodup, ordered.small⟩, ordered.ordered⟩

theorem Ordered.release {D : Discipline} (ordered : Ordered D m) {a : Addr} (out : a ∉ m.timers) :
    Ordered D { m with heap := Function.update m.heap a none } where
  live u member := by
    simpa [ne_of_mem_of_not_mem member out] using ordered.live u member
  nodup := ordered.nodup
  small u timer found := by
    rcases eq_or_ne u a with rfl | other
    · simp at found
    · exact ordered.small u timer (by simpa [other] using found)
  ordered := ordered.ordered.imp_of_mem fun first second holds => by
    simpa [key, deadline, ne_of_mem_of_not_mem first out, ne_of_mem_of_not_mem second out] using holds

/-- A found timer that is erased, given a new deadline and inserted again. -/
theorem Ordered.reinsert {D : Discipline} (ordered : Ordered D m) (shape : Shape Addr) {a : Addr}
    {timer : Timer C} (small : timer.next < 2 ^ 64)
    (agree : Agree D.agrees ((m.timers.erase a).map m.key) [(a, timer.next)]) :
    Ordered D (((m.erase a).write a timer).insert shape a) ∧
      (((m.erase a).write a timer).insert shape a).timers.Perm (a :: m.timers.erase a) := by
  have erased := ordered.sublist (List.erase_sublist (a := a))
  have out : a ∉ m.timers.erase a := ordered.nodup.not_mem_erase
  have written : Ordered D ((m.erase a).write a timer) := erased.write small (.inl out)
  suffices agrees : ∀ u ∈ m.timers.erase a,
      D.agrees (((m.erase a).write a timer).key u) (((m.erase a).write a timer).key a) by
    obtain ⟨inserted, perm, _⟩ := written.insert shape (by simp [TimerManager.write]) out agrees
    exact ⟨inserted, perm⟩
  intro u member
  have here : ((m.erase a).write a timer).key a = (a, timer.next) := by rw [key, deadline_write]
  rw [here, key_write_of_ne (ne_of_mem_of_not_mem member out)]
  exact agree.1 _ (List.mem_map_of_mem member)

theorem step_ordered {D : Discipline} {label : Label C} {next : TimerManager C} (ordered : Ordered D m)
    (inserts : Inserts D.agrees m label) (stepped : step m label = some next) : Ordered D next := by
  cases label with
  | addTimer shape now a ms cb recurring =>
    obtain ⟨free, rfl⟩ := addTimer_ok stepped
    have out : a ∉ m.timers := ordered.absent free
    have written : Ordered D (m.write a ⟨recurring, ms, add64 now ms, cb⟩) :=
      ordered.write (wrap64_lt _) (.inl out)
    have here : (m.write a ⟨recurring, ms, add64 now ms, cb⟩).key a = (a, add64 now ms) := by
      rw [key, deadline_write]
    refine (written.insert shape (by simp [TimerManager.write]) out fun u member => ?_).1.tickle _
    rw [here, key_write_of_ne (ne_of_mem_of_not_mem member out)]
    exact inserts.1 _ (List.mem_map_of_mem member)
  | cancel shape a =>
    obtain ⟨outcome, called, rfl⟩ := answered_of_step stepped
    obtain ⟨timer, found, rfl | ⟨it, -, rfl⟩⟩ := cancel_ok called
    · exact ordered
    · have same : timer.next = m.deadline a := by simp [deadline, found]
      have cleared : Ordered D (m.write a { timer with cb := none }) :=
        ordered.write (ordered.small a timer found) (.inr same)
      exact cleared.sublist List.erase_sublist
  | refresh shape now a =>
    obtain ⟨outcome, called, rfl⟩ := answered_of_step stepped
    obtain ⟨timer, found, rfl | ⟨active, it, located, rfl⟩⟩ := refresh_ok called
    · exact ordered
    · obtain ⟨rfl, _⟩ := ordered.find_eq (by simp [found]) located
      refine (ordered.reinsert shape (wrap64_lt _) ?_).1
      simpa [Inserts, planned, kept, found, active, located] using inserts
  | reset shape now a ms fromNow =>
    obtain ⟨outcome, called, rfl⟩ := answered_of_step stepped
    obtain ⟨timer, found, ⟨-, -, rfl⟩ | rfl | ⟨active, it, located, rfl⟩⟩ := reset_ok called
    · exact ordered
    · exact ordered
    · obtain ⟨rfl, _⟩ := ordered.find_eq (by simp [found]) located
      have again : Ordered D (((m.erase it).write it
          { timer with ms := ms, next := resetNext timer now ms fromNow }).insert shape it) := by
        refine (ordered.reinsert shape (wrap64_lt _) ?_).1
        simpa [Inserts, planned, kept, found, active, located] using inserts
      exact again.tickle _
  | getNextTimer now =>
    cases stepped
    exact ordered.tickle false
  | listExpiredCb shape now =>
    cases stepped
    exact (ordered.listExpired shape now inserts).1
  | release a =>
    obtain ⟨out, rfl⟩ := release_ok stepped
    exact ordered.release out

theorem ordered_of_reaches {D : Discipline} (reached : (machine C).Reaches (Inserts D.agrees) m) :
    Ordered D m := by
  refine reached.invariant (fun m begins => ?_) fun m label next ordered inserts stepped =>
    step_ordered ordered inserts stepped
  rw [show m = initial from begins]
  exact ⟨⟨nofun, List.nodup_nil, nofun⟩, List.Pairwise.nil⟩

/-! ## Deadlines -/

/-- Iteration visits the deadlines in order, and the next timeout is the distance
to the earliest; it is also the largest number when the clock is at 0 and every
timer is due at the end of time. -/
structure InDeadlineOrder (m : TimerManager C) : Prop where
  iteration : m.timers.Pairwise fun u v => m.deadline u ≤ m.deadline v
  delay : ∀ now, ∀ a ∈ m.timers, (∀ b ∈ m.timers, m.deadline a ≤ m.deadline b) →
    (m.getNextTimer now).1 = m.deadline a - now
  never : ∀ now, (m.getNextTimer now).1 = 2 ^ 64 - 1 ↔
    m.timers = [] ∨ now = 0 ∧ ∀ a ∈ m.timers, m.deadline a = 2 ^ 64 - 1

theorem Shaped.deadline_lt (shaped : Shaped m) (a : Addr) : m.deadline a < 2 ^ 64 := by
  unfold deadline
  split
  next timer found => exact shaped.small a timer found
  next => decide

/-- In every run in which no insertion meets an earlier timer at a higher address,
the timers are in deadline order. -/
theorem timers_in_order (reached : (machine C).Reaches (Inserts EarlierBelow) m) : InDeadlineOrder m := by
  have ordered : Ordered byDeadline m := ordered_of_reaches reached
  have sorted : m.timers.Pairwise fun u v => m.deadline u ≤ m.deadline v := ordered.ordered
  have delay (now : Nat) (first : Addr) (rest : List Addr) (whole : m.timers = first :: rest) :
      (m.getNextTimer now).1 = m.deadline first - now := by
    simp only [getNextTimer, whole, List.head?_cons]
    split <;> omega
  have least (first : Addr) (rest : List Addr) (whole : m.timers = first :: rest) (b : Addr)
      (member : b ∈ m.timers) : m.deadline first ≤ m.deadline b := by
    rw [whole] at sorted member
    rcases List.mem_cons.mp member with rfl | later
    · exact Nat.le_refl _
    · exact (List.pairwise_cons.mp sorted).1 b later
  refine ⟨sorted, fun now a member earliest => ?_, fun now => ?_⟩
  · cases whole : m.timers with
    | nil =>
      rw [whole] at member
      cases member
    | cons first rest =>
      have lower := least first rest whole a member
      have upper := earliest first (by simp [whole])
      rw [delay now first rest whole]
      omega
  · cases whole : m.timers with
    | nil => simp [getNextTimer, whole]
    | cons first rest =>
      have bound := ordered.deadline_lt
      rw [delay now first rest whole]
      constructor
      · intro never
        have small := bound first
        refine .inr ⟨by omega, fun b member => ?_⟩
        have lower := least first rest whole b (by rwa [whole])
        have upper := bound b
        omega
      · rintro (none | ⟨rfl, all⟩)
        · cases none
        · exact all first (List.mem_cons_self ..)

/-- Two timers, the later one at the higher address, and the first fires. -/
def ascending : List (Label Unit) :=
  [.addTimer .spine 1 5 10 (some ()) true, .addTimer .spine 1 9 100 (some ()) false,
   .getNextTimer 2, .cancel .spine 9, .listExpiredCb .spine 11]

theorem timers_in_order_ascending :
    ∃ m, (machine Unit).Reaches (Inserts EarlierBelow) m ∧ m.timers = [5] ∧ m.deadline 5 = 21 ∧
      InDeadlineOrder m := by
  obtain ⟨m, reached, test⟩ := System.reaches_test (machine Unit) (Inserts EarlierBelow)
    (fun m label => decide (Inserts EarlierBelow m label)) (fun _ _ => of_decide_eq_true) initial rfl ascending
    (fun m => m.timers = [5] ∧ m.deadline 5 = 21) (by decide)
  obtain ⟨timers, deadline⟩ := of_decide_eq_true test
  exact ⟨m, reached, timers, deadline, timers_in_order reached⟩

/-- Two timers, the later one at the lower address. -/
def descending : List (Label Unit) :=
  [.addTimer .spine 1 9 10 (some ()) false, .addTimer .spine 1 5 100 (some ()) false]

/-- The later timer comes first, and the timeout is its distance. -/
theorem timers_out_of_order :
    ∃ m, (machine Unit).Reaches (fun _ _ => True) m ∧ m.timers = [5, 9] ∧ m.deadline 5 = 101 ∧
      m.deadline 9 = 11 ∧ (m.getNextTimer 1).1 = 100 ∧ ¬ InDeadlineOrder m := by
  obtain ⟨m, reached, test⟩ := System.reaches_test (machine Unit) (fun _ _ => True) (fun _ _ => true)
    (fun _ _ _ => trivial) initial rfl descending
    (fun m => m.timers = [5, 9] ∧ m.deadline 5 = 101 ∧ m.deadline 9 = 11 ∧ (m.getNextTimer 1).1 = 100)
    (by decide)
  obtain ⟨timers, later, earlier, delay⟩ := of_decide_eq_true test
  refine ⟨m, reached, timers, later, earlier, delay, fun inOrder => ?_⟩
  have sorted := inOrder.iteration
  rw [timers] at sorted
  have wrong := (List.pairwise_cons.mp sorted).1 9 (List.mem_singleton_self 9)
  rw [later, earlier] at wrong
  exact absurd wrong (by decide)

end HpsSf.TimerManager
