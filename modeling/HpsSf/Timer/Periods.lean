import HpsSf.Timer.Membership
import Mathlib.Data.List.TakeWhile

/-! The periods of timers, and when their callbacks are returned.

Beside the manager run the clock, the current period of every timer as the calls
define it, and a record of what was returned and cancelled. Timers are told apart
by the order of their creation, since addresses are used again.
-/

set_option autoImplicit false

namespace HpsSf
open Foundation (System add64 sub64 wrap64 wrap64_lt)
open Foundation.SearchTree (Shape)

/-- The current period of the timer with a number. -/
structure Period where
  id : Nat
  start : Nat
  ms : Nat
  recurring : Bool
  deriving DecidableEq, Repr

inductive Event where
  | returned (period : Period) (now : Nat)
  | cancelled (id : Nat)
  deriving DecidableEq, Repr

structure Timed (C : Type) where
  manager : TimerManager C
  clock : Nat
  created : Nat
  period : Addr → Period
  /-- The latest first. -/
  events : List Event

namespace Timed
open TimerManager (Label)

variable {C : Type}

/-- The clock reading of an operation. -/
def reading : Label C → Option Nat
  | .addTimer _ now _ _ _ _ | .refresh _ now _ | .getNextTimer now | .listExpiredCb _ now => some now
  | .reset _ now _ _ fromNow => if fromNow then some now else none
  | .cancel _ _ | .release _ => none

/-- The interval that an operation is given. -/
def interval : Label C → Option Nat
  | .addTimer _ _ _ ms _ _ | .reset _ _ _ ms _ => some ms
  | _ => none

/-- The answer of an operation. -/
def answers (outcome : Except TimerManager.Fault (TimerManager.Outcome C)) : Bool :=
  outcome.toOption.any (·.returned)

/-- What becomes of the periods. -/
def periods (s : Timed C) : Label C → Addr → Period
  | .addTimer _ now a ms _ recurring => Function.update s.period a ⟨s.created, now, ms, recurring⟩
  | .refresh shape now a =>
      if answers (s.manager.refresh shape now a) then Function.update s.period a { s.period a with start := now }
      else s.period
  | .reset shape now a ms fromNow =>
      if answers (s.manager.reset shape now a ms fromNow) then
        Function.update s.period a
          { s.period a with ms := ms, start := if fromNow then now else (s.period a).start }
      else s.period
  | .listExpiredCb _ now => fun a =>
      if a ∈ s.manager.expired now ∧ (s.period a).recurring = true then { s.period a with start := now } else s.period a
  | .cancel _ _ | .getNextTimer _ | .release _ => s.period

/-- What an operation adds to the record. -/
def recorded (s : Timed C) : Label C → List Event
  | .cancel shape a => if answers (s.manager.cancel shape a) then [.cancelled (s.period a).id] else []
  | .listExpiredCb _ now => ((s.manager.expired now).map fun a => .returned (s.period a) now).reverse
  | _ => []

def step (s : Timed C) (label : Label C) : Option (Timed C) :=
  (s.manager.step label).map fun manager =>
    { manager := manager
      clock := (reading label).getD s.clock
      created := match label with
        | .addTimer .. => s.created + 1
        | _ => s.created
      period := s.periods label
      events := s.recorded label ++ s.events }

def machine (C : Type) : System (Timed C) (Label C) where
  start s := s.manager = .initial ∧ s.clock < 2 ^ 64 ∧ s.events = []
  step := step

/-- The clock does not go back, and numbers are those of the type. -/
structure Timely (s : Timed C) (label : Label C) : Prop where
  clock : ∀ now ∈ reading label, s.clock ≤ now ∧ now < 2 ^ 64
  interval : ∀ ms ∈ interval label, ms < 2 ^ 64

end Timed

/-- What may be recorded after what: a timer that is returned again recurs and
comes an interval later, and no cancelled one is returned. -/
def Event.Follows : Event → Event → Prop
  | .returned p now, .returned q before => p.id = q.id → p.recurring = true ∧ before + p.ms ≤ now
  | .returned p _, .cancelled id => p.id ≠ id
  | .cancelled _, _ => True

/-- Callbacks are returned neither early nor too often. -/
structure Punctual {C : Type} (s : Timed C) : Prop where
  due : ∀ p now, .returned p now ∈ s.events → p.start + p.ms ≤ now
  apart : s.events.Pairwise Event.Follows
  /-- What a scan returns are the callbacks of the timers that the record names. -/
  scanned : ∀ shape now, (s.manager.listExpiredCb shape now).1 =
    (s.manager.expired now).map fun a => (s.manager.heap a).bind Timer.cb

namespace TimerManager

variable {C : Type} {m : TimerManager C} {shape : Shape Addr} {a : Addr} {outcome : Outcome C}

/-! ## What the calls do to the set in any run -/

/-- No order at all, as the comparator leaves it. -/
def unordered : Discipline where
  ordered _ _ := True
  agrees _ _ := True
  trans _ _ := trivial
  before _ _ _ := trivial
  after _ _ _ := trivial

theorem agree_unordered (present planned : List Key) : Agree unordered.agrees present planned := by
  induction planned generalizing present with
  | nil => trivial
  | cons x rest ih => exact ⟨fun _ _ => trivial, ih _⟩

theorem addTimer_effect (shape : Shape Addr) (shaped : Ordered unordered m) (free : m.heap a = none) (now ms : Nat)
    (cb : Option C) (recurring : Bool) :
    (m.addTimer shape now a ms cb recurring).after.heap =
        Function.update m.heap a (some ⟨recurring, ms, add64 now ms, cb⟩) ∧
      ∀ u, u ∈ (m.addTimer shape now a ms cb recurring).after.timers ↔ u = a ∨ u ∈ m.timers := by
  have out : a ∉ m.timers := shaped.absent free
  have written : Ordered unordered (m.write a ⟨recurring, ms, add64 now ms, cb⟩) :=
    shaped.write (wrap64_lt _) (.inl out)
  have perm := (written.insert shape (by simp [write]) out fun _ _ => trivial).2.1
  exact ⟨rfl, fun u => perm.mem_iff.trans List.mem_cons⟩

theorem cancel_effect (shaped : Ordered unordered m) (called : m.cancel shape a = .ok outcome) :
    (outcome.returned = false ∧ outcome.after = m) ∨
    (outcome.returned = true ∧ a ∈ m.timers ∧ outcome.after.timers = m.timers.erase a ∧
      ∀ u, u ≠ a → outcome.after.heap u = m.heap u) := by
  obtain ⟨timer, found, refused | ⟨it, located, answered⟩⟩ := cancel_ok called
  · subst refused
    exact .inl ⟨rfl, rfl⟩
  · subst answered
    have same : timer.next = m.deadline a := by simp [deadline, found]
    have cleared : Ordered unordered (m.write a { timer with cb := none }) :=
      shaped.write (shaped.small a timer found) (.inr same)
    obtain ⟨rfl, member⟩ := cleared.find_eq (by simp [write]) located
    exact .inr ⟨rfl, member, rfl, fun u other => by simp [write, erase, other]⟩

theorem reinsert_subset (shaped : Ordered unordered m) (member : a ∈ m.timers) {timer : Timer C}
    (small : timer.next < 2 ^ 64) : ∀ u ∈ (((m.erase a).write a timer).insert shape a).timers, u ∈ m.timers := by
  intro u inside
  have perm : (((m.erase a).write a timer).insert shape a).timers.Perm (a :: m.timers.erase a) :=
    (shaped.reinsert shape small (agree_unordered _ _)).2
  obtain rfl | old := List.mem_cons.mp (perm.mem_iff.mp inside)
  · exact member
  · exact List.mem_of_mem_erase old

theorem refresh_effect (shaped : Ordered unordered m) {now : Nat} (called : m.refresh shape now a = .ok outcome) :
    (outcome.returned = false ∧ outcome.after = m) ∨
    (outcome.returned = true ∧ ∃ timer, m.heap a = some timer ∧
      outcome.after.heap = Function.update m.heap a (some { timer with next := add64 now timer.ms }) ∧
      ∀ u ∈ outcome.after.timers, u ∈ m.timers) := by
  obtain ⟨timer, found, refused | ⟨-, it, located, answered⟩⟩ := refresh_ok called
  · subst refused
    exact .inl ⟨rfl, rfl⟩
  · subst answered
    obtain ⟨rfl, member⟩ := shaped.find_eq (by simp [found]) located
    exact .inr ⟨rfl, timer, found, rfl, reinsert_subset shaped member (wrap64_lt _)⟩

theorem reset_effect (shaped : Ordered unordered m) {now ms : Nat} {fromNow : Bool}
    (called : m.reset shape now a ms fromNow = .ok outcome) :
    (outcome.returned = false ∧ outcome.after = m) ∨
    (outcome.returned = true ∧ ∃ timer, m.heap a = some timer ∧ ((timer.ms = ms ∧ fromNow = false ∧ outcome.after = m) ∨
      (outcome.after.heap =
          Function.update m.heap a (some { timer with ms := ms, next := resetNext timer now ms fromNow }) ∧
        ∀ u ∈ outcome.after.timers, u ∈ m.timers))) := by
  obtain ⟨timer, found, ⟨interval, start, unchanged⟩ | refused | ⟨-, it, located, answered⟩⟩ := reset_ok called
  · subst unchanged
    exact .inr ⟨rfl, timer, found, .inl ⟨interval.symm, start, rfl⟩⟩
  · subst refused
    exact .inl ⟨rfl, rfl⟩
  · subst answered
    obtain ⟨rfl, member⟩ := shaped.find_eq (by simp [found]) located
    exact .inr ⟨rfl, timer, found, .inr ⟨rfl, reinsert_subset shaped member (wrap64_lt _)⟩⟩

/-- A scan returns the callbacks of the timers that it takes out of the set. -/
theorem fire_callbacks (shape : Shape Addr) (now : Nat) {expired : List Addr}
    (live : ∀ a ∈ expired, (m.heap a).isSome = true) (nodup : expired.Nodup) :
    (fire shape now expired m).1 = expired.map fun a => (m.heap a).bind Timer.cb := by
  induction expired generalizing m with
  | nil => rfl
  | cons a rest ih =>
    obtain ⟨timer, found⟩ := Option.isSome_iff_exists.mp (live a (List.mem_cons_self ..))
    obtain ⟨apart, restNodup⟩ := List.nodup_cons.mp nodup
    have later (m' : TimerManager C) (same : ∀ u, u ≠ a → m'.heap u = m.heap u) :
        (fire shape now rest m').1 = rest.map fun a => (m.heap a).bind Timer.cb := by
      have kept (u : Addr) (member : u ∈ rest) : m'.heap u = m.heap u := same u (ne_of_mem_of_not_mem member apart)
      rw [ih (fun u member => kept u member ▸ live u (List.mem_cons_of_mem _ member)) restNodup]
      exact List.map_congr_left fun u member => by rw [kept u member]
    simp only [fire, found, List.map_cons, Option.bind_some]
    rw [later]
    intro u other
    split <;> simp [write, insert, other]

end TimerManager

namespace Timed
open TimerManager

variable {C : Type} {s next : Timed C}

/-! ## What is kept in every run -/

/-- A timer of the set is in its period, up to wrapping. -/
structure Matches (p : Period) (timer : Timer C) (clock : Nat) : Prop where
  started : p.start ≤ clock
  ms : p.ms = timer.ms
  small : p.ms < 2 ^ 64
  recurring : p.recurring = timer.recurring
  next : timer.next = add64 p.start p.ms

/-- What is recorded of a timer that is in a period: it may be returned at its end. -/
def Precedes (p : Period) : Event → Prop
  | .returned q before => q.id = p.id → p.recurring = true ∧ before ≤ p.start
  | .cancelled id => p.id ≠ id

def numbered : Event → Nat
  | .returned p _ => p.id
  | .cancelled id => id

structure Tracks (s : Timed C) : Prop where
  shaped : Ordered unordered s.manager
  clock : s.clock < 2 ^ 64
  period : ∀ a ∈ s.manager.timers, ∀ timer, s.manager.heap a = some timer → Matches (s.period a) timer s.clock
  numbers : ∀ a ∈ s.manager.timers, (s.period a).id < s.created
  distinct : ∀ a ∈ s.manager.timers, ∀ b ∈ s.manager.timers, (s.period a).id = (s.period b).id → a = b
  past : ∀ a ∈ s.manager.timers, ∀ event ∈ s.events, Precedes (s.period a) event
  earlier : ∀ event ∈ s.events, numbered event < s.created
  due : ∀ p now, .returned p now ∈ s.events → p.start + p.ms ≤ now
  apart : s.events.Pairwise Event.Follows

/-- The end of a period of a timer that is taken is the clock reading, without wrapping. -/
theorem Matches.due {p : Period} {timer : Timer C} {clock now : Nat} (fits : Matches p timer clock)
    (later : clock ≤ now)
    (small : now < 2 ^ 64) (taken : timer.next = now) : p.start + p.ms = now := by
  have started := fits.started
  have interval := fits.small
  have wrapped := fits.next.symm.trans taken
  unfold add64 wrap64 at wrapped
  omega

theorem follows_of_precedes {p : Period} {now : Nat} {event : Event} (due : p.start + p.ms ≤ now)
    (precedes : Precedes p event) : Event.Follows (.returned p now) event := by
  cases event with
  | returned q before =>
    intro same
    obtain ⟨recurring, started⟩ := precedes same.symm
    exact ⟨recurring, by omega⟩
  | cancelled id => exact precedes

/-- An operation that creates no timer: the timers in the set keep their numbers and
are in periods that began no earlier, and what is added to the record is in order. -/
theorem Tracks.advance (tracks : s.Tracks) (shaped : Ordered unordered next.manager)
    (created : next.created = s.created)
    (bounded : next.clock < 2 ^ 64) {added : List Event}
    (events : next.events = added ++ s.events) (subset : ∀ a ∈ next.manager.timers, a ∈ s.manager.timers)
    (same : ∀ a ∈ next.manager.timers, (next.period a).id = (s.period a).id ∧
      (next.period a).recurring = (s.period a).recurring ∧ (s.period a).start ≤ (next.period a).start)
    (period : ∀ a ∈ next.manager.timers, ∀ timer, next.manager.heap a = some timer →
      Matches (next.period a) timer next.clock)
    (numbers : ∀ event ∈ added, numbered event < s.created)
    (past : ∀ a ∈ next.manager.timers, ∀ event ∈ added, Precedes (next.period a) event)
    (due : ∀ p now, .returned p now ∈ added → p.start + p.ms ≤ now)
    (apart : added.Pairwise Event.Follows) (follows : ∀ later ∈ added, ∀ event ∈ s.events, later.Follows event) :
    next.Tracks where
  shaped := shaped
  clock := bounded
  period := period
  numbers a member := by
    rw [created, (same a member).1]
    exact tracks.numbers a (subset a member)
  distinct a first b second equal := by
    rw [(same a first).1, (same b second).1] at equal
    exact tracks.distinct a (subset a first) b (subset b second) equal
  past a member event recorded := by
    rw [events] at recorded
    obtain new | old := List.mem_append.mp recorded
    · exact past a member event new
    obtain ⟨id, recurring, started⟩ := same a member
    have before := tracks.past a (subset a member) event old
    cases event with
    | returned q time =>
      intro equal
      obtain ⟨recurs, ended⟩ := before (equal.trans id)
      exact ⟨recurring.trans recurs, Nat.le_trans ended started⟩
    | cancelled other => exact fun equal => before (id.symm.trans equal)
  earlier event recorded := by
    rw [events] at recorded
    rw [created]
    exact (List.mem_append.mp recorded).elim (numbers event) (tracks.earlier event)
  due p now recorded := by
    rw [events] at recorded
    exact (List.mem_append.mp recorded).elim (due p now) (tracks.due p now)
  apart := by
    rw [events]
    exact List.pairwise_append.mpr ⟨apart, tracks.apart, follows⟩

/-- An operation that records nothing. -/
theorem Tracks.quiet (tracks : s.Tracks) (shaped : Ordered unordered next.manager) (created : next.created = s.created)
    (bounded : next.clock < 2 ^ 64) (events : next.events = s.events)
    (subset : ∀ a ∈ next.manager.timers, a ∈ s.manager.timers)
    (same : ∀ a ∈ next.manager.timers, (next.period a).id = (s.period a).id ∧
      (next.period a).recurring = (s.period a).recurring ∧ (s.period a).start ≤ (next.period a).start)
    (period : ∀ a ∈ next.manager.timers, ∀ timer, next.manager.heap a = some timer →
      Matches (next.period a) timer next.clock) : next.Tracks :=
  tracks.advance shaped created bounded (events.trans (List.nil_append _).symm) subset same period (by simp) (by simp)
    (by simp) .nil (by simp)

theorem Matches.later {p : Period} {timer : Timer C} {clock now : Nat} (fits : Matches p timer clock)
    (later : clock ≤ now) : Matches p timer now :=
  { fits with started := Nat.le_trans fits.started later }

theorem Tracks.addTimer (tracks : s.Tracks) {shape : Shape Addr} {now : Nat} {a : Addr} {ms : Nat} {cb : Option C}
    {recurring : Bool} (timely : Timely s (.addTimer shape now a ms cb recurring))
    (stepped : s.step (.addTimer shape now a ms cb recurring) = some next) : next.Tracks := by
  obtain ⟨manager, moved, rfl⟩ := Option.map_eq_some_iff.mp stepped
  have shaped : Ordered unordered manager := step_ordered tracks.shaped (agree_unordered _ _) moved
  obtain ⟨later, bounded⟩ := timely.clock now rfl
  have small := timely.interval ms rfl
  obtain ⟨free, rfl⟩ := addTimer_ok moved
  obtain ⟨heap, members⟩ := addTimer_effect shape tracks.shaped free now ms cb recurring
  have new : s.periods (.addTimer shape now a ms cb recurring) a = ⟨s.created, now, ms, recurring⟩ :=
    Function.update_self ..
  have old {u : Addr} (other : u ≠ a) : s.periods (.addTimer shape now a ms cb recurring) u = s.period u :=
    Function.update_of_ne other ..
  have member {u : Addr} (inside : u ∈ (s.manager.addTimer shape now a ms cb recurring).after.timers)
      (other : u ≠ a) :
      u ∈ s.manager.timers := ((members u).mp inside).resolve_left other
  refine ⟨shaped, bounded, fun u inside timer found => ?_, fun u inside => ?_, fun u first v second equal => ?_,
    fun u inside event recorded => ?_, fun event recorded => Nat.lt_succ_of_lt (tracks.earlier event recorded),
    tracks.due, tracks.apart⟩
  · change Matches (s.periods (.addTimer shape now a ms cb recurring) u) timer now
    rw [heap] at found
    by_cases here : u = a
    · subst here
      rw [Function.update_self] at found
      obtain rfl := Option.some.inj found
      rw [new]
      exact ⟨Nat.le_refl _, rfl, small, rfl, rfl⟩
    · rw [Function.update_of_ne here] at found
      rw [old here]
      exact (tracks.period u (member inside here) timer found).later later
  · change (s.periods (.addTimer shape now a ms cb recurring) u).id < s.created + 1
    by_cases here : u = a
    · rw [here, new]
      exact Nat.lt_succ_self _
    · rw [old here]
      exact Nat.lt_succ_of_lt (tracks.numbers u (member inside here))
  · change (s.periods (.addTimer shape now a ms cb recurring) u).id =
      (s.periods (.addTimer shape now a ms cb recurring) v).id at equal
    by_cases left : u = a
    · by_cases right : v = a
      · rw [left, right]
      · rw [left, new, old right] at equal
        exact absurd equal (Nat.ne_of_gt (tracks.numbers v (member second right)))
    · by_cases right : v = a
      · rw [right, new, old left] at equal
        exact absurd equal (Nat.ne_of_lt (tracks.numbers u (member first left)))
      · rw [old left, old right] at equal
        exact tracks.distinct u (member first left) v (member second right) equal
  · change Precedes (s.periods (.addTimer shape now a ms cb recurring) u) event
    by_cases here : u = a
    · rw [here, new]
      have before := tracks.earlier event recorded
      cases event with
      | returned q time => exact fun equal => absurd equal (Nat.ne_of_lt before)
      | cancelled id => exact (Nat.ne_of_lt before).symm
    · rw [old here]
      exact tracks.past u (member inside here) event recorded

theorem Tracks.cancel (tracks : s.Tracks) {shape : Shape Addr} {a : Addr}
    (stepped : s.step (.cancel shape a) = some next) :
    next.Tracks := by
  obtain ⟨manager, moved, rfl⟩ := Option.map_eq_some_iff.mp stepped
  have shaped : Ordered unordered manager := step_ordered tracks.shaped (agree_unordered _ _) moved
  obtain ⟨outcome, called, rfl⟩ := answered_of_step moved
  obtain ⟨refused, same⟩ | ⟨answered, member, timers, heap⟩ := cancel_effect tracks.shaped called
  · have nothing : s.recorded (.cancel shape a) = [] := by
      simp [recorded, called, answers, Except.toOption, refused]
    exact tracks.quiet shaped rfl tracks.clock (congrArg (· ++ s.events) nothing) (fun u inside => same ▸ inside)
      (fun u _ => ⟨rfl, rfl, Nat.le_refl _⟩) fun u inside timer found => tracks.period u (same ▸ inside) timer
        (same ▸ found)
  · have one : s.recorded (.cancel shape a) = [.cancelled (s.period a).id] := by
      simp [recorded, called, answers, Except.toOption, answered]
    have apart {u : Addr} (inside : u ∈ outcome.after.timers) : u ≠ a ∧ u ∈ s.manager.timers := by
      rw [timers] at inside
      exact ⟨ne_of_mem_of_not_mem inside tracks.shaped.nodup.not_mem_erase, List.mem_of_mem_erase inside⟩
    refine tracks.advance shaped rfl tracks.clock rfl (fun u inside => (apart inside).2)
      (fun u _ => ⟨rfl, rfl, Nat.le_refl _⟩) (fun u inside timer found => ?_) ?_ ?_ ?_ ?_ ?_
    · obtain ⟨other, old⟩ := apart inside
      exact tracks.period u old timer (heap u other ▸ found)
    · simpa [one, numbered] using tracks.numbers a member
    · intro u inside event recorded
      obtain ⟨other, old⟩ := apart inside
      rw [one, List.mem_singleton] at recorded
      subst recorded
      exact fun equal => other (tracks.distinct u old a member equal)
    all_goals simp [one, Event.Follows]

theorem Tracks.idle (tracks : s.Tracks) {now : Nat} (clock : s.clock ≤ now) (bounded : now < 2 ^ 64) :
    Tracks { s with clock := now } :=
  tracks.quiet tracks.shaped rfl bounded rfl (fun _ => id) (fun _ _ => ⟨rfl, rfl, Nat.le_refl _⟩)
    fun u inside timer live => (tracks.period u inside timer live).later clock

/-- The period of one timer begins again, or is given another interval. -/
theorem Tracks.restart (tracks : s.Tracks) {a : Addr} {before after : Timer C} {p : Period} {now : Nat}
    {manager : TimerManager C} (shaped : Ordered unordered manager) (clock : s.clock ≤ now) (bounded : now < 2 ^ 64)
    (heap : manager.heap = Function.update s.manager.heap a (some after))
    (subset : ∀ u ∈ manager.timers, u ∈ s.manager.timers) (found : s.manager.heap a = some before)
    (matching : Matches (s.period a) before s.clock → Matches p after now)
    (same : p.id = (s.period a).id ∧ p.recurring = (s.period a).recurring)
    (started : Matches (s.period a) before s.clock → (s.period a).start ≤ p.start) :
    Tracks { s with manager := manager, clock := now, period := Function.update s.period a p } := by
  refine tracks.quiet shaped rfl bounded rfl subset (fun u inside => ?_) fun u inside timer live => ?_
  · change (Function.update s.period a p u).id = _ ∧ (Function.update s.period a p u).recurring = _ ∧
      _ ≤ (Function.update s.period a p u).start
    by_cases here : u = a
    · subst here
      rw [Function.update_self]
      exact ⟨same.1, same.2, started (tracks.period u (subset u inside) before found)⟩
    · rw [Function.update_of_ne here]
      exact ⟨rfl, rfl, Nat.le_refl _⟩
  · change Matches (Function.update s.period a p u) timer now
    rw [heap] at live
    by_cases here : u = a
    · subst here
      rw [Function.update_self] at live ⊢
      obtain rfl := Option.some.inj live
      exact matching (tracks.period u (subset u inside) before found)
    · rw [Function.update_of_ne here] at live ⊢
      exact (tracks.period u (subset u inside) timer live).later clock

theorem Tracks.refresh (tracks : s.Tracks) {shape : Shape Addr} {now : Nat} {a : Addr}
    (timely : Timely s (.refresh shape now a)) (stepped : s.step (.refresh shape now a) = some next) : next.Tracks := by
  obtain ⟨manager, moved, rfl⟩ := Option.map_eq_some_iff.mp stepped
  have shaped : Ordered unordered manager := step_ordered tracks.shaped (agree_unordered _ _) moved
  obtain ⟨later, bounded⟩ := timely.clock now rfl
  obtain ⟨outcome, called, rfl⟩ := answered_of_step moved
  obtain ⟨refused, same⟩ | ⟨answered, timer, found, heap, subset⟩ := refresh_effect tracks.shaped called
  · have period : s.periods (.refresh shape now a) = s.period := by
      simp [periods, called, answers, Except.toOption, refused]
    have idle := tracks.idle later bounded
    rw [← same, ← period] at idle
    exact idle
  · have period : s.periods (.refresh shape now a) = Function.update s.period a { s.period a with start := now } := by
      simp [periods, called, answers, Except.toOption, answered]
    have restarted := tracks.restart (p := { s.period a with start := now }) shaped later bounded heap subset found
      (fun fits => ⟨Nat.le_refl _, fits.ms, fits.small, fits.recurring, by rw [← fits.ms]⟩) ⟨rfl, rfl⟩
      fun fits => Nat.le_trans fits.started later
    rw [← period] at restarted
    exact restarted

theorem Tracks.reset (tracks : s.Tracks) {shape : Shape Addr} {now : Nat} {a : Addr} {ms : Nat} {fromNow : Bool}
    (timely : Timely s (.reset shape now a ms fromNow)) (stepped : s.step (.reset shape now a ms fromNow) = some next) :
    next.Tracks := by
  obtain ⟨manager, moved, rfl⟩ := Option.map_eq_some_iff.mp stepped
  have shaped : Ordered unordered manager := step_ordered tracks.shaped (agree_unordered _ _) moved
  have small := timely.interval ms rfl
  have clock : s.clock ≤ (reading (.reset shape now a ms fromNow : Label C)).getD s.clock ∧
      (reading (.reset shape now a ms fromNow : Label C)).getD s.clock < 2 ^ 64 := by
    cases fromNow with
    | false => exact ⟨Nat.le_refl _, tracks.clock⟩
    | true => exact timely.clock now rfl
  obtain ⟨later, bounded⟩ := clock
  obtain ⟨outcome, called, rfl⟩ := answered_of_step moved
  obtain ⟨refused, same⟩ | ⟨answered, timer, found, ⟨rfl, rfl, same⟩ | ⟨heap, subset⟩⟩ :=
      reset_effect tracks.shaped called
  · have period : s.periods (.reset shape now a ms fromNow) = s.period := by
      simp [periods, called, answers, Except.toOption, refused]
    have idle := tracks.idle later bounded
    rw [← same, ← period] at idle
    exact idle
  · have period : s.periods (.reset shape now a timer.ms false) =
        Function.update s.period a { s.period a with ms := timer.ms } := by
      simp [periods, called, answers, Except.toOption, answered]
    have restarted := tracks.restart (p := { s.period a with ms := timer.ms }) tracks.shaped later bounded
      (Function.update_eq_self_iff.mpr found.symm).symm (fun _ => id) found
      (fun fits => ⟨Nat.le_trans fits.started later, rfl, small, fits.recurring, by rw [fits.next, fits.ms]⟩) ⟨rfl, rfl⟩
      fun _ => Nat.le_refl _
    rw [← period, ← same] at restarted
    exact restarted
  · have period : s.periods (.reset shape now a ms fromNow) = Function.update s.period a
        { s.period a with ms := ms, start := if fromNow then now else (s.period a).start } := by
      simp [periods, called, answers, Except.toOption, answered]
    have restarted := tracks.restart
      (p := { s.period a with ms := ms, start := if fromNow then now else (s.period a).start }) shaped later bounded heap
      subset found (fun fits => ⟨?_, rfl, small, fits.recurring, ?_⟩) ⟨rfl, rfl⟩ fun fits => ?_
    · rw [← period] at restarted
      exact restarted
    · cases fromNow with
      | false => exact fits.started
      | true => exact Nat.le_refl _
    · cases fromNow with
      | false =>
        -- The old deadline less the old interval is the start, even where the deadline wrapped.
        change add64 (sub64 timer.next timer.ms) ms = add64 (s.period a).start ms
        rw [fits.next, fits.ms, Foundation.add64_sub64]
      | true => rfl
    · cases fromNow with
      | false => exact Nat.le_refl _
      | true => exact Nat.le_trans fits.started later

theorem Tracks.getNextTimer (tracks : s.Tracks) {now : Nat} (timely : Timely s (.getNextTimer now))
    (stepped : s.step (.getNextTimer now) = some next) : next.Tracks := by
  obtain ⟨manager, moved, rfl⟩ := Option.map_eq_some_iff.mp stepped
  obtain rfl := Option.some.inj moved
  obtain ⟨later, bounded⟩ := timely.clock now rfl
  exact tracks.quiet (tracks.shaped.tickle false) rfl bounded rfl (fun _ => id) (fun _ _ => ⟨rfl, rfl, Nat.le_refl _⟩)
    fun u inside timer live => (tracks.period u inside timer live).later later

theorem Tracks.release (tracks : s.Tracks) {a : Addr} (stepped : s.step (.release a) = some next) : next.Tracks := by
  obtain ⟨manager, moved, rfl⟩ := Option.map_eq_some_iff.mp stepped
  obtain ⟨out, rfl⟩ := release_ok moved
  refine tracks.quiet (tracks.shaped.release out) rfl tracks.clock rfl (fun _ => id)
    (fun _ _ => ⟨rfl, rfl, Nat.le_refl _⟩) fun u inside timer live => tracks.period u inside timer ?_
  exact (Function.update_of_ne (ne_of_mem_of_not_mem inside out) ..).symm.trans live

theorem Tracks.listExpired (tracks : s.Tracks) {shape : Shape Addr} {now : Nat}
    (timely : Timely s (.listExpiredCb shape now))
    (stepped : s.step (.listExpiredCb shape now) = some next) : next.Tracks := by
  obtain ⟨manager, moved, rfl⟩ := Option.map_eq_some_iff.mp stepped
  obtain rfl := Option.some.inj moved
  obtain ⟨later, bounded⟩ := timely.clock now rfl
  obtain ⟨front, apart⟩ := tracks.shaped.expired_apart now
  obtain ⟨shaped, members⟩ := tracks.shaped.listExpired shape now (agree_unordered _ _)
  have heap (u : Addr) : (s.manager.listExpiredCb shape now).2.heap u =
      if u ∈ s.manager.expired now then (s.manager.heap u).map (fired now) else s.manager.heap u :=
        fire_heap shape now front u
  have taken {u : Addr} (due : u ∈ s.manager.expired now) : u ∈ s.manager.timers :=
    (List.takeWhile_sublist _).subset due
  -- The timers that are taken are at the end of their period.
  have ended {u : Addr} (due : u ∈ s.manager.expired now) : (s.period u).start + (s.period u).ms = now := by
    obtain ⟨timer, live⟩ := Option.isSome_iff_exists.mp (tracks.shaped.live u (taken due))
    have reading : s.manager.deadline u = now := by simpa using List.mem_takeWhile_imp due
    refine (tracks.period u (taken due) timer live).due later bounded ?_
    rwa [deadline, live] at reading
  have subset (u : Addr) (inside : u ∈ (s.manager.listExpiredCb shape now).2.timers) : u ∈ s.manager.timers := by
    obtain waiting | ⟨due, -⟩ := (members u).mp inside
    · exact (List.dropWhile_sublist _).subset waiting
    · exact taken due
  have period (u : Addr) : s.periods (.listExpiredCb shape now) u =
      if u ∈ s.manager.expired now ∧
        (s.period u).recurring = true then { s.period u with start := now } else s.period u := rfl
  have same (u : Addr) (inside : u ∈ s.manager.timers) :
      (s.periods (.listExpiredCb shape now) u).id = (s.period u).id ∧
        (s.periods (.listExpiredCb shape now) u).recurring = (s.period u).recurring ∧
          (s.period u).start ≤ (s.periods (.listExpiredCb shape now) u).start := by
    rw [period]
    split
    next due => exact ⟨rfl, rfl, ended due.1 ▸ Nat.le_add_right ..⟩
    next => exact ⟨rfl, rfl, Nat.le_refl _⟩
  have recorded {event : Event} (added : event ∈ s.recorded (.listExpiredCb shape now)) :
      ∃ u ∈ s.manager.expired now, event = .returned (s.period u) now := by
    obtain ⟨u, due, rfl⟩ := List.mem_map.mp (List.mem_reverse.mp added)
    exact ⟨u, due, rfl⟩
  refine tracks.advance shaped rfl bounded rfl subset (fun u inside => same u (subset u inside)) ?_ ?_ ?_ ?_ ?_ ?_
  · intro u inside timer live
    change Matches (s.periods (.listExpiredCb shape now) u) timer now
    rw [heap] at live
    rw [period]
    by_cases due : u ∈ s.manager.expired now
    · rw [if_pos due] at live
      obtain ⟨before, found, rfl⟩ := Option.map_eq_some_iff.mp live
      have fits := tracks.period u (taken due) before found
      obtain waiting | ⟨-, timer, again, recurs⟩ := (members u).mp inside
      · exact absurd waiting (apart u due)
      obtain rfl := Option.some.inj (found.symm.trans again)
      have recurring : (s.period u).recurring = true := fits.recurring.trans recurs
      rw [if_pos ⟨due, recurring⟩, fired, if_pos recurs]
      exact ⟨Nat.le_refl _, fits.ms, fits.small, fits.recurring, by rw [← fits.ms]⟩
    · rw [if_neg due] at live
      rw [if_neg fun both => due both.1]
      exact (tracks.period u (subset u inside) timer live).later later
  · intro event added
    obtain ⟨u, due, rfl⟩ := recorded added
    exact tracks.numbers u (taken due)
  · intro u inside event added
    obtain ⟨v, due, rfl⟩ := recorded added
    intro equal
    obtain rfl := tracks.distinct v (taken due) u (subset u inside) (equal.trans (same u (subset u inside)).1)
    change (s.periods (.listExpiredCb shape now) v).recurring = true ∧
      now ≤ (s.periods (.listExpiredCb shape now) v).start
    obtain waiting | ⟨-, timer, found, recurs⟩ := (members v).mp inside
    · exact absurd waiting (apart v due)
    have recurring : (s.period v).recurring = true := (tracks.period v (taken due) timer found).recurring.trans recurs
    rw [period, if_pos ⟨due, recurring⟩]
    exact ⟨recurring, Nat.le_refl _⟩
  · intro p time added
    obtain ⟨u, due, same⟩ := recorded added
    cases same
    exact Nat.le_of_eq (ended due)
  · refine List.pairwise_reverse.mpr (List.pairwise_map.mpr ?_)
    refine front.imp_of_mem fun {u v} first second other equal => ?_
    exact absurd (tracks.distinct v (taken second) u (taken first) equal).symm other
  · intro event added old before
    obtain ⟨u, due, rfl⟩ := recorded added
    exact follows_of_precedes (Nat.le_of_eq (ended due)) (tracks.past u (taken due) old before)

theorem step_tracks {label : Label C} (tracks : s.Tracks) (timely : Timely s label)
    (stepped : s.step label = some next) :
    next.Tracks := by
  cases label with
  | addTimer => exact tracks.addTimer timely stepped
  | cancel => exact tracks.cancel stepped
  | refresh => exact tracks.refresh timely stepped
  | reset => exact tracks.reset timely stepped
  | getNextTimer => exact tracks.getNextTimer timely stepped
  | listExpiredCb => exact tracks.listExpired timely stepped
  | release => exact tracks.release stepped

/-- In every run under a clock that does not go back, callbacks are returned neither
early nor too often, whatever the intervals. -/
theorem callbacks_punctual (reached : (machine C).Reaches Timely s) : Punctual s := by
  have tracks : s.Tracks := by
    refine reached.invariant (fun s begins => ?_) fun s label next tracks timely stepped =>
      step_tracks tracks timely stepped
    obtain ⟨manager, clock, events⟩ := begins
    have empty : s.manager.timers = [] := by rw [manager]; rfl
    refine ⟨?_, clock, ?_, ?_, ?_, ?_, ?_, ?_, ?_⟩
    · rw [manager]
      exact ⟨⟨nofun, List.nodup_nil, nofun⟩, List.Pairwise.nil⟩
    all_goals simp [empty, events]
  refine ⟨tracks.due, tracks.apart, fun shape now => ?_⟩
  have taken := (List.takeWhile_sublist (l := s.manager.timers) fun a => s.manager.deadline a == now)
  exact fire_callbacks shape now (fun a due => tracks.shaped.live a (taken.subset due))
    (tracks.shaped.nodup.sublist taken)

/-- A test of `Timely` for replays. -/
def timelyTest (s : Timed C) (label : Label C) : Bool :=
  (reading label).all (fun now => decide (s.clock ≤ now ∧ now < 2 ^ 64)) &&
    (interval label).all fun ms => decide (ms < 2 ^ 64)

theorem timely_of_test {label : Label C} (passed : timelyTest s label = true) : Timely s label := by
  obtain ⟨clock, small⟩ := Bool.and_eq_true_iff.mp passed
  refine ⟨fun now read => ?_, fun ms given => ?_⟩
  · rw [Option.mem_def.mp read] at clock
    exact of_decide_eq_true clock
  · rw [Option.mem_def.mp given] at small
    exact of_decide_eq_true small

/-- One timer's deadline wraps and it is cancelled, another one recurs and is cancelled. -/
theorem callbacks_punctual_wrapped :
    ∃ s : Timed Unit, (machine Unit).Reaches Timely s ∧ s.manager.deadline 3 = 4 ∧
      s.events = [.cancelled 0, .returned ⟨0, 11, 10, true⟩ 21, .returned ⟨0, 1, 10, true⟩ 11, .cancelled 1] ∧
        Punctual s := by
  obtain ⟨s, reached, test⟩ := System.reaches_test (machine Unit) Timely timelyTest (fun _ _ => timely_of_test)
    ⟨.initial, 1, 0, fun _ => ⟨0, 0, 0, false⟩, []⟩ ⟨rfl, by decide, rfl⟩
    [.addTimer .spine 1 5 10 (some ()) true, .addTimer .spine 5 3 (2 ^ 64 - 1) (some ()) false,
      .cancel .spine 3, .listExpiredCb .spine 11, .listExpiredCb .spine 21, .cancel .spine 5]
    (fun s => s.manager.deadline 3 = 4 ∧
      s.events = [.cancelled 0, .returned ⟨0, 11, 10, true⟩ 21, .returned ⟨0, 1, 10, true⟩ 11, .cancelled 1])
        (by decide)
  obtain ⟨deadline, events⟩ := of_decide_eq_true test
  exact ⟨s, reached, deadline, events, callbacks_punctual reached⟩

end Timed
end HpsSf
