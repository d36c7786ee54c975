import HpsSf.Foundation.SearchTree
import HpsSf.Foundation.System
import HpsSf.Foundation.Word
import Mathlib.Data.List.TakeWhile
import Mathlib.Logic.Function.Basic

/-! Timers and their manager.

A timer is an object at an address, and `m_timers` is an ordered set of such
addresses whose tree is driven by `Comparator` alone. Each operation is one
critical section of the manager's lock; its clock reading is an input. Addresses
are those the allocator hands out: any address that no live timer has.
-/

set_option autoImplicit false

namespace HpsSf
open Foundation (System add64 sub64)
open Foundation.SearchTree (Shape)

abbrev Addr := Nat

structure Timer (C : Type) where
  recurring : Bool
  ms : Nat
  next : Nat
  cb : Option C
  deriving DecidableEq, Repr

variable {C : Type}

/-- `hps_Timer::Comparator`, as written: the second test compares `rhs` with itself. -/
def Timer.comparator : Option (Addr × Timer C) → Option (Addr × Timer C) → Bool
  | none, none => false
  | none, some _ => true
  | some _, none => false
  | some (l, lhs), some (r, rhs) =>
      if lhs.next < rhs.next then true
      -- Never so: it should compare the two timers.
      else if rhs.next < rhs.next then false
      else l < r

structure TimerManager (C : Type) where
  heap : Addr → Option (Timer C)
  /-- In iteration order. -/
  timers : List Addr
  tickled : Bool

/-- What a call returns, and whether it called `onTimerInsertedAtFront`. -/
structure TimerManager.Outcome (C : Type) where
  returned : Bool
  atFront : Bool := false
  after : TimerManager C

inductive TimerManager.Fault where
  /-- A call on an object that no longer lives. -/
  | dangling
  /-- `erase` of the end iterator. -/
  | eraseEnd
  deriving DecidableEq, Repr

namespace TimerManager

def initial : TimerManager C := ⟨fun _ => none, [], false⟩

def lt (m : TimerManager C) (a b : Addr) : Bool :=
  Timer.comparator ((m.heap a).map fun timer => (a, timer)) ((m.heap b).map fun timer => (b, timer))

/-- `m_next` of the timer at an address. -/
def deadline (m : TimerManager C) (a : Addr) : Nat :=
  match m.heap a with
  | some timer => timer.next
  | none => 0

def write (m : TimerManager C) (a : Addr) (timer : Timer C) : TimerManager C :=
  { m with heap := Function.update m.heap a (some timer) }

def find (m : TimerManager C) (shape : Shape Addr) (a : Addr) : Option Addr :=
  shape.find m.lt a m.timers

def insert (m : TimerManager C) (shape : Shape Addr) (a : Addr) : TimerManager C :=
  { m with timers := (shape.insert m.lt a m.timers).1 }

def erase (m : TimerManager C) (it : Addr) : TimerManager C :=
  { m with timers := m.timers.erase it }

/-- `addTimer(val, lock)`. -/
def addTimerLocked (m : TimerManager C) (shape : Shape Addr) (val : Addr) : Outcome C :=
  let it := (shape.insert m.lt val m.timers).2
  let inserted := m.insert shape val
  let atFront := inserted.timers.head? == some it && !m.tickled
  { returned := true, atFront := atFront, after := { inserted with tickled := m.tickled || atFront } }

/-- `addTimer(ms, cb, recurring)`, for the address that `new` returns. -/
def addTimer (m : TimerManager C) (shape : Shape Addr) (now : Nat) (a : Addr) (ms : Nat) (cb : Option C)
    (recurring : Bool) : Outcome C :=
  (m.write a ⟨recurring, ms, add64 now ms, cb⟩).addTimerLocked shape a

def cancel (m : TimerManager C) (shape : Shape Addr) (a : Addr) : Except Fault (Outcome C) :=
  match m.heap a with
  | none => .error .dangling
  | some timer =>
      if timer.cb.isSome then
        -- The callback goes before the search; `erase` takes the result unchecked.
        match (m.write a { timer with cb := none }).find shape a with
        | some it => .ok { returned := true, after := (m.write a { timer with cb := none }).erase it }
        | none => .error .eraseEnd
      else .ok { returned := false, after := m }

def refresh (m : TimerManager C) (shape : Shape Addr) (now : Nat) (a : Addr) : Except Fault (Outcome C) :=
  match m.heap a with
  | none => .error .dangling
  | some timer =>
      if timer.cb.isSome then
        match m.find shape a with
        | some it =>
            .ok { returned := true
                  after := ((m.erase it).write a { timer with next := add64 now timer.ms }).insert shape a }
        -- Here the result of the search is checked.
        | none => .ok { returned := false, after := m }
      else .ok { returned := false, after := m }

/-- The new `m_next` of `reset`. -/
def resetNext (timer : Timer C) (now ms : Nat) (fromNow : Bool) : Nat :=
  add64 (if fromNow then now else sub64 timer.next timer.ms) ms

def reset (m : TimerManager C) (shape : Shape Addr) (now : Nat) (a : Addr) (ms : Nat) (fromNow : Bool) :
    Except Fault (Outcome C) :=
  match m.heap a with
  | none => .error .dangling
  | some timer =>
      if ms = timer.ms ∧ fromNow = false then .ok { returned := true, after := m }
      else if timer.cb.isSome then
        match m.find shape a with
        | some it =>
            .ok (((m.erase it).write a
              { timer with ms := ms, next := resetNext timer now ms fromNow }).addTimerLocked shape a)
        | none => .ok { returned := false, after := m }
      else .ok { returned := false, after := m }

/-- The result, and the manager with `m_tickled` cleared. -/
def getNextTimer (m : TimerManager C) (now : Nat) : Nat × TimerManager C :=
  (match m.timers.head? with
    | none => 2 ^ 64 - 1
    | some next => if m.deadline next ≤ now then 0 else m.deadline next - now,
    { m with tickled := false })

/-- The loop of `listExpiredCb` over the timers it has taken out of the set. -/
def fire (shape : Shape Addr) (now : Nat) : List Addr → TimerManager C → List (Option C) × TimerManager C
  | [], m => ([], m)
  | a :: rest, m =>
      match m.heap a with
      | none => fire shape now rest m
      | some timer =>
          let m :=
            if timer.recurring then
              (m.write a { timer with next := add64 now timer.ms }).insert shape a
            else m.write a { timer with cb := none }
          let (cbs, m) := fire shape now rest m
          (timer.cb :: cbs, m)

/-- The timers that `listExpiredCb` takes: those at the front whose `m_next` is the clock. -/
def expired (m : TimerManager C) (now : Nat) : List Addr := m.timers.takeWhile fun a => m.deadline a == now

def unexpired (m : TimerManager C) (now : Nat) : List Addr :=
  m.timers.dropWhile fun a => m.deadline a == now

def listExpiredCb (m : TimerManager C) (shape : Shape Addr) (now : Nat) :
    List (Option C) × TimerManager C :=
  fire shape now (m.expired now) { m with timers := m.unexpired now }

def hasTimer (m : TimerManager C) : Bool := !m.timers.isEmpty

inductive Label (C : Type) where
  | addTimer (shape : Shape Addr) (now : Nat) (a : Addr) (ms : Nat) (cb : Option C) (recurring : Bool)
  | cancel (shape : Shape Addr) (a : Addr)
  | refresh (shape : Shape Addr) (now : Nat) (a : Addr)
  | reset (shape : Shape Addr) (now : Nat) (a : Addr) (ms : Nat) (fromNow : Bool)
  | getNextTimer (now : Nat)
  | listExpiredCb (shape : Shape Addr) (now : Nat)
  /-- The last pointer to a timer outside the set goes away. -/
  | release (a : Addr)

def step (m : TimerManager C) : Label C → Option (TimerManager C)
  | .addTimer shape now a ms cb recurring =>
      if (m.heap a).isNone then some (m.addTimer shape now a ms cb recurring).after else none
  | .cancel shape a => (m.cancel shape a).toOption.map Outcome.after
  | .refresh shape now a => (m.refresh shape now a).toOption.map Outcome.after
  | .reset shape now a ms fromNow => (m.reset shape now a ms fromNow).toOption.map Outcome.after
  | .getNextTimer now => some (m.getNextTimer now).2
  | .listExpiredCb shape now => some (m.listExpiredCb shape now).2
  | .release a => if a ∈ m.timers then none else some { m with heap := Function.update m.heap a none }

def machine (C : Type) : System (TimerManager C) (Label C) where
  start m := m = initial
  step := step

/-! What each operation can do. -/

section Calls

variable {m next : TimerManager C} {shape : Shape Addr} {now : Nat} {a : Addr} {outcome : Outcome C}

theorem answered_of_step {result : Except Fault (Outcome C)} (stepped : result.toOption.map Outcome.after = some next) :
    ∃ outcome, result = .ok outcome ∧ outcome.after = next := by
  obtain ⟨outcome, answered, after⟩ := Option.map_eq_some_iff.mp stepped
  cases result with
  | error fault => cases answered
  | ok result =>
    cases answered
    exact ⟨outcome, rfl, after⟩

theorem addTimer_ok {ms : Nat} {cb : Option C} {recurring : Bool}
    (stepped : m.step (.addTimer shape now a ms cb recurring) = some next) :
    m.heap a = none ∧ next = (m.addTimer shape now a ms cb recurring).after := by
  rw [step] at stepped
  split at stepped
  next free => exact ⟨Option.isNone_iff_eq_none.mp free, (Option.some.inj stepped).symm⟩
  next => cases stepped

theorem cancel_ok (called : m.cancel shape a = .ok outcome) : ∃ timer, m.heap a = some timer ∧
    (outcome = { returned := false, after := m } ∨
      ∃ it, (m.write a { timer with cb := none }).find shape a = some it ∧
        outcome = { returned := true, after := (m.write a { timer with cb := none }).erase it }) := by
  unfold cancel at called
  split at called
  next => cases called
  next timer found =>
    split at called
    · split at called
      next it located => exact ⟨timer, found, .inr ⟨it, located, (Except.ok.inj called).symm⟩⟩
      next => cases called
    · exact ⟨timer, found, .inl (Except.ok.inj called).symm⟩

theorem refresh_ok (called : m.refresh shape now a = .ok outcome) : ∃ timer, m.heap a = some timer ∧
    (outcome = { returned := false, after := m } ∨ timer.cb.isSome = true ∧ ∃ it, m.find shape a = some it ∧
      outcome = { returned := true
                  after := ((m.erase it).write a { timer with next := add64 now timer.ms }).insert shape a }) := by
  unfold refresh at called
  split at called
  next => cases called
  next timer found =>
    split at called
    next active =>
      split at called
      next it located => exact ⟨timer, found, .inr ⟨active, it, located, (Except.ok.inj called).symm⟩⟩
      next => exact ⟨timer, found, .inl (Except.ok.inj called).symm⟩
    next => exact ⟨timer, found, .inl (Except.ok.inj called).symm⟩

theorem reset_ok {ms : Nat} {fromNow : Bool} (called : m.reset shape now a ms fromNow = .ok outcome) :
    ∃ timer, m.heap a = some timer ∧
      (ms = timer.ms ∧ fromNow = false ∧ outcome = { returned := true, after := m } ∨
        outcome = { returned := false, after := m } ∨ timer.cb.isSome = true ∧ ∃ it, m.find shape a = some it ∧
          outcome = ((m.erase it).write a
            { timer with ms := ms, next := resetNext timer now ms fromNow }).addTimerLocked shape a) := by
  unfold reset at called
  split at called
  next => cases called
  next timer found =>
    split at called
    next same => exact ⟨timer, found, .inl ⟨same.1, same.2, (Except.ok.inj called).symm⟩⟩
    next =>
      split at called
      next active =>
        split at called
        next it located => exact ⟨timer, found, .inr (.inr ⟨active, it, located, (Except.ok.inj called).symm⟩)⟩
        next => exact ⟨timer, found, .inr (.inl (Except.ok.inj called).symm)⟩
      next => exact ⟨timer, found, .inr (.inl (Except.ok.inj called).symm)⟩

theorem release_ok (stepped : m.step (.release a) = some next) :
    a ∉ m.timers ∧ next = { m with heap := Function.update m.heap a none } := by
  rw [step] at stepped
  split at stepped
  next => cases stepped
  next out => exact ⟨out, (Option.some.inj stepped).symm⟩

end Calls

/-! What every operation keeps, whatever the order of the set. -/

/-- Deadlines are 64-bit numbers. -/
def Bounded (m : TimerManager C) : Prop := ∀ a timer, m.heap a = some timer → timer.next < 2 ^ 64

theorem Bounded.write {m : TimerManager C} (bounded : m.Bounded) {a : Addr} {timer : Timer C}
    (small : timer.next < 2 ^ 64) : (m.write a timer).Bounded := by
  intro u other found
  by_cases same : u = a
  · subst same
    simp only [TimerManager.write, Function.update_self, Option.some.injEq] at found
    exact found ▸ small
  · exact bounded u other (by simpa [TimerManager.write, same] using found)

/-- A scan takes no timer before its deadline and none behind it. -/
theorem mem_expired {m : TimerManager C} {now : Nat} {a : Addr} (member : a ∈ m.expired now) : m.deadline a = now := by
  have taken := List.mem_takeWhile_imp (show a ∈ m.timers.takeWhile fun a => m.deadline a == now from member)
  exact eq_of_beq taken

theorem add64_lt (a b : Nat) : add64 a b < 2 ^ 64 := Foundation.wrap64_lt _

theorem Bounded.fire {m : TimerManager C} (bounded : m.Bounded) (shape : Shape Addr) (now : Nat)
    (expired : List Addr) : (fire shape now expired m).2.Bounded := by
  induction expired generalizing m with
  | nil => exact bounded
  | cons a rest ih =>
    simp only [TimerManager.fire]
    split
    next => exact ih bounded
    next timer found =>
      refine ih ?_
      split
      next => exact bounded.write (add64_lt _ _)
      next => exact bounded.write (bounded a timer found)

/-- Nothing but `addTimer` puts a timer into an empty set, and deadlines stay bounded. -/
theorem step_keeps {m next : TimerManager C} {label : Label C} (bounded : m.Bounded)
    (stepped : m.step label = some next) :
    next.Bounded ∧ (m.timers = [] →
      (∀ shape now a ms cb recurring, label ≠ .addTimer shape now a ms cb recurring) → next.timers = []) := by
  have absent {m : TimerManager C} {shape : Shape Addr} {a it : Addr} (located : m.find shape a = some it)
      (empty : m.timers = []) : False := by
    have member := (Foundation.SearchTree.Shape.find_eq_some located).1
    rw [empty] at member
    cases member
  cases label with
  | addTimer shape now a ms cb recurring =>
    obtain ⟨-, rfl⟩ := addTimer_ok stepped
    have written : (m.write a ⟨recurring, ms, add64 now ms, cb⟩).Bounded := bounded.write (add64_lt _ _)
    exact ⟨written, fun _ other => absurd rfl (other shape now a ms cb recurring)⟩
  | cancel shape a =>
    obtain ⟨outcome, called, rfl⟩ := answered_of_step stepped
    obtain ⟨timer, found, rfl | ⟨it, located, rfl⟩⟩ := cancel_ok called
    · exact ⟨bounded, fun empty _ => empty⟩
    · exact ⟨bounded.write (bounded a timer found), fun empty _ => (absent located empty).elim⟩
  | refresh shape now a =>
    obtain ⟨outcome, called, rfl⟩ := answered_of_step stepped
    obtain ⟨timer, found, rfl | ⟨-, it, located, rfl⟩⟩ := refresh_ok called
    · exact ⟨bounded, fun empty _ => empty⟩
    · exact ⟨bounded.write (add64_lt _ _), fun empty _ => (absent located empty).elim⟩
  | reset shape now a ms fromNow =>
    obtain ⟨outcome, called, rfl⟩ := answered_of_step stepped
    obtain ⟨timer, found, ⟨-, -, rfl⟩ | rfl | ⟨-, it, located, rfl⟩⟩ := reset_ok called
    · exact ⟨bounded, fun empty _ => empty⟩
    · exact ⟨bounded, fun empty _ => empty⟩
    · exact ⟨bounded.write (add64_lt _ _), fun empty _ => (absent located empty).elim⟩
  | getNextTimer now =>
    cases stepped
    exact ⟨bounded, fun empty _ => empty⟩
  | listExpiredCb shape now =>
    cases stepped
    have taken : Bounded { m with timers := m.unexpired now } := bounded
    refine ⟨taken.fire shape now _, fun empty _ => ?_⟩
    simp [listExpiredCb, expired, unexpired, empty, fire]
  | release a =>
    obtain ⟨-, rfl⟩ := release_ok stepped
    refine ⟨fun u timer found => ?_, fun empty _ => empty⟩
    by_cases same : u = a
    · subst same
      simp at found
    · exact bounded u timer (by simpa [same] using found)

/-- A wait of `2^64 - 1` means an empty set, as long as the clock does not read zero. -/
theorem Bounded.getNextTimer_never {m : TimerManager C} (bounded : m.Bounded) {now : Nat} (positive : 0 < now)
    (never : (m.getNextTimer now).1 = 2 ^ 64 - 1) : m.timers = [] := by
  unfold getNextTimer at never
  cases timers : m.timers with
  | nil => rfl
  | cons first rest =>
    have small : m.deadline first < 2 ^ 64 := by
      unfold deadline
      split
      next timer found => exact bounded first timer found
      next => exact Nat.two_pow_pos 64
    simp only [timers, List.head?_cons] at never
    split at never <;> omega

end TimerManager
end HpsSf
