import HpsSf.Foundation.System
import HpsSf.Foundation.Tally
import Mathlib.Logic.Function.Basic

/-! Guards on one lock: any number of them, in any threads, with any calls of `lock` and `unlock`.

A guard for reading takes the lock with others, a guard for writing alone. Where all
guards are for writing, this is a mutex, a spinlock, or the lock on an atomic flag.
-/

set_option autoImplicit false

namespace HpsSf.Thread
open Foundation

inductive GuardMode where
  | read
  | write
  deriving DecidableEq, Repr

/-- `pthread_rwlock_t`; the flag of `hps_CASLock` is `writing`. -/
structure RWLock where
  readers : Nat := 0
  writing : Bool := false
  deriving DecidableEq, Repr

/-- `rdlock` or `wrlock`, once it does not block; `atomic_flag_test_and_set` of a clear flag. -/
def RWLock.take (lock : RWLock) : GuardMode → Option RWLock
  | .read => if lock.writing then none else some { lock with readers := lock.readers + 1 }
  | .write => if lock.writing ∨ 0 < lock.readers then none else some { lock with writing := true }

/-- `unlock`; `none` where the lock is not taken. -/
def RWLock.release (lock : RWLock) : Option RWLock :=
  if lock.writing then some { lock with writing := false }
  else if 0 < lock.readers then some { lock with readers := lock.readers - 1 }
  else none

/-- How far a guard is. -/
inductive GuardPlace where
  | absent
  /-- In the constructor or in `lock`, where the lock is not taken yet. -/
  | waiting
  | idle
  deriving DecidableEq, Repr

/-- `hps_ScopedLockImpl`, `hps_ReadScopedLockImpl` or `hps_WriteScopedLockImpl`. -/
structure Guard where
  place : GuardPlace := .absent
  m_locked : Bool := false
  deriving DecidableEq, Repr

/-- A lock with the guards on it. -/
structure Guarding (ι : Type) where
  lock : RWLock
  guards : ι → Guard
  /-- A lock was released that was not taken. -/
  misused : Bool

inductive GuardStep (ι : Type) where
  | construct (i : ι)
  | lock (i : ι)
  /-- The wait for the lock ends. -/
  | take (i : ι)
  | unlock (i : ι)
  | destroy (i : ι)
  deriving DecidableEq, Repr

namespace Guarding
variable {ι : Type} [DecidableEq ι] (mode : ι → GuardMode)

def setGuard (s : Guarding ι) (i : ι) (guard : Guard) : Guarding ι :=
  { s with guards := Function.update s.guards i guard }

/-- `if (m_locked) { m_mutex.unlock(); m_locked = false; }` -/
def unlock (s : Guarding ι) (i : ι) (place : GuardPlace) : Guarding ι :=
  if (s.guards i).m_locked then
    match s.lock.release with
    | some lock => { s with lock := lock }.setGuard i ⟨place, false⟩
    | none => { s with misused := true }.setGuard i ⟨place, false⟩
  else s.setGuard i { s.guards i with place := place }

def step (s : Guarding ι) : GuardStep ι → Option (Guarding ι)
  | .construct i => if (s.guards i).place = .absent then some (s.setGuard i ⟨.waiting, false⟩) else none
  | .lock i =>
    if (s.guards i).place = .idle then
      some (if (s.guards i).m_locked then s else s.setGuard i { s.guards i with place := .waiting })
    else none
  | .take i =>
    if (s.guards i).place = .waiting then
      (s.lock.take (mode i)).map fun lock => { s with lock := lock }.setGuard i ⟨.idle, true⟩
    else none
  | .unlock i => if (s.guards i).place = .idle then some (s.unlock i .idle) else none
  | .destroy i => if (s.guards i).place = .idle then some (s.unlock i .absent) else none

def machine : System (Guarding ι) (GuardStep ι) where
  start s := s = ⟨{}, fun _ => {}, false⟩
  step := step mode

/-- A guard of this mode that has the lock. -/
def holding (s : Guarding ι) (wanted : GuardMode) (i : ι) : Nat :=
  if mode i = wanted ∧ (s.guards i).m_locked then 1 else 0

variable [Fintype ι]

/-- The lock is taken as often as guards have it, and a guard that waits or is gone has none. -/
structure Sound (s : Guarding ι) : Prop where
  readers : tally (s.holding mode .read) = s.lock.readers
  writers : tally (s.holding mode .write) = if s.lock.writing then 1 else 0
  apart : s.lock.writing = true → s.lock.readers = 0
  idle : ∀ i, (s.guards i).m_locked = true → (s.guards i).place = .idle
  proper : s.misused = false

variable {mode} {s next : Guarding ι}

/-- One guard changes, and with it the count of its mode. -/
theorem holding_setGuard (mode : ι → GuardMode) (s : Guarding ι) (lock : RWLock) (misused : Bool)
    (i : ι) (guard : Guard) (wanted : GuardMode) :
    tally (({ s with lock := lock, misused := misused }.setGuard i guard).holding mode wanted) + s.holding mode wanted i =
      tally (s.holding mode wanted) + if mode i = wanted ∧ guard.m_locked then 1 else 0 := by
  have change := tally_change (s.holding mode wanted)
    (({ s with lock := lock, misused := misused }.setGuard i guard).holding mode wanted) i fun j other => by
      simp [holding, setGuard, other]
  simpa [holding, setGuard] using change

/-- A guard goes from one place to another without the lock. -/
theorem Sound.move (sound : Sound mode s) {i : ι} {guard : Guard} (before : (s.guards i).m_locked = false)
    (after : guard.m_locked = false) : Sound mode (s.setGuard i guard) := by
  have same (wanted : GuardMode) : tally ((s.setGuard i guard).holding mode wanted) = tally (s.holding mode wanted) := by
    have change := holding_setGuard mode s s.lock s.misused i guard wanted
    have none : s.holding mode wanted i = 0 := by simp [holding, before]
    rwa [none, after, if_neg (by simp)] at change
  refine ⟨(same _).trans sound.readers, (same _).trans sound.writers, sound.apart, fun j locked => ?_, sound.proper⟩
  obtain rfl | other := eq_or_ne j i
  · simp [setGuard, after] at locked
  · simp only [setGuard, Function.update_of_ne other] at locked ⊢
    exact sound.idle j locked

theorem Sound.take (sound : Sound mode s) {i : ι} (waiting : (s.guards i).place = .waiting)
    {lock : RWLock} (taken : s.lock.take (mode i) = some lock) :
    Sound mode ({ s with lock := lock }.setGuard i ⟨.idle, true⟩) := by
  have none : (s.guards i).m_locked = false := by
    cases locked : (s.guards i).m_locked with
    | false => rfl
    | true => cases (sound.idle i locked).symm.trans waiting
  have change (wanted : GuardMode) : tally (({ s with lock := lock }.setGuard i ⟨.idle, true⟩).holding mode wanted) =
      tally (s.holding mode wanted) + if mode i = wanted then 1 else 0 := by
    have changed := holding_setGuard mode s lock s.misused i ⟨.idle, true⟩ wanted
    have zero : s.holding mode wanted i = 0 := by simp [holding, none]
    rw [zero] at changed
    simpa using changed
  have idle (j : ι) (locked : (({ s with lock := lock }.setGuard i ⟨.idle, true⟩).guards j).m_locked = true) :
      (({ s with lock := lock }.setGuard i ⟨.idle, true⟩).guards j).place = .idle := by
    obtain rfl | other := eq_or_ne j i
    · simp [setGuard]
    · simp only [setGuard, Function.update_of_ne other] at locked ⊢
      exact sound.idle j locked
  have readers := sound.readers
  have writers := sound.writers
  cases kind : mode i with
  | read =>
    rw [kind, RWLock.take] at taken
    split at taken
    next => cases taken
    next free =>
      obtain rfl := Option.some.inj taken
      have reading := change .read
      have writing := change .write
      rw [kind, if_pos rfl] at reading
      rw [kind, if_neg (by simp)] at writing
      exact ⟨reading.trans (congrArg (· + 1) readers), writing.trans writers, fun taken => absurd taken free, idle,
        sound.proper⟩
  | write =>
    rw [kind, RWLock.take] at taken
    split at taken
    next => cases taken
    next free =>
      obtain rfl := Option.some.inj taken
      obtain ⟨unwritten, unread⟩ := not_or.mp free
      have reading := change .read
      have writing := change .write
      rw [kind, if_neg (by simp)] at reading
      rw [kind, if_pos rfl, writers, if_neg unwritten] at writing
      exact ⟨reading.trans readers, writing, fun _ => Nat.eq_zero_of_not_pos unread, idle, sound.proper⟩

theorem Sound.unlock (sound : Sound mode s) (i : ι) (place : GuardPlace) :
    Sound mode (s.unlock i place) := by
  unfold Guarding.unlock
  cases locked : (s.guards i).m_locked with
  | false => exact sound.move locked locked
  | true =>
    have change (lock : RWLock) (wanted : GuardMode) :
        tally (({ s with lock := lock }.setGuard i ⟨place, false⟩).holding mode wanted) +
            (if mode i = wanted then 1 else 0) =
          tally (s.holding mode wanted) := by
      have changed := holding_setGuard mode s lock s.misused i ⟨place, false⟩ wanted
      have one : s.holding mode wanted i = if mode i = wanted then 1 else 0 := by simp [holding, locked]
      rw [one] at changed
      simpa using changed
    have idle (lock : RWLock) (j : ι)
        (has : (({ s with lock := lock }.setGuard i ⟨place, false⟩).guards j).m_locked = true) :
        (({ s with lock := lock }.setGuard i ⟨place, false⟩).guards j).place = .idle := by
      obtain rfl | other := eq_or_ne j i
      · simp [setGuard] at has
      · simp only [setGuard, Function.update_of_ne other] at has ⊢
        exact sound.idle j has
    have readers := sound.readers
    have writers := sound.writers
    rw [if_pos rfl, RWLock.release]
    cases kind : mode i with
    | read =>
      have reading := change { s.lock with readers := s.lock.readers - 1 } .read
      have writing := change { s.lock with readers := s.lock.readers - 1 } .write
      rw [kind, if_pos rfl, readers] at reading
      rw [kind, if_neg (by simp)] at writing
      -- one call gives back either kind: it is a read lock that goes, as no writer has the lock beside a reader
      have unwritten : ¬ s.lock.writing = true := fun taken => by
        have none := sound.apart taken
        omega
      have some : 0 < s.lock.readers := by omega
      rw [if_neg unwritten, if_pos some]
      exact ⟨Nat.eq_sub_of_add_eq reading, writing.trans writers, fun taken => absurd taken unwritten, idle _,
        sound.proper⟩
    | write =>
      have reading := change { s.lock with writing := false } .read
      have writing := change { s.lock with writing := false } .write
      rw [kind, if_neg (by simp)] at reading
      rw [kind, if_pos rfl, writers] at writing
      have taken : s.lock.writing = true := by
        by_contra free
        rw [if_neg free] at writing
        omega
      rw [if_pos taken] at writing ⊢
      refine ⟨reading.trans readers, ?_, fun impossible => (by cases impossible), idle _, sound.proper⟩
      exact Nat.succ_inj.mp writing

theorem Sound.step (sound : Sound mode s) {label : GuardStep ι} (stepped : s.step mode label = some next) :
    Sound mode next := by
  cases label with
  | construct i =>
    simp only [Guarding.step] at stepped
    split at stepped
    next gone =>
      obtain rfl := Option.some.inj stepped
      refine sound.move ?_ rfl
      cases locked : (s.guards i).m_locked with
      | false => rfl
      | true => cases (sound.idle i locked).symm.trans gone
    next => cases stepped
  | lock i =>
    simp only [Guarding.step] at stepped
    split at stepped
    next =>
      obtain rfl := Option.some.inj stepped
      split
      -- a guard that has the lock leaves it as it is: `lock` looks at `m_locked`
      next => exact sound
      next free => exact sound.move (by simpa using free) (by simpa using free)
    next => cases stepped
  | take i =>
    simp only [Guarding.step] at stepped
    split at stepped
    next waiting =>
      obtain ⟨lock, taken, rfl⟩ := Option.map_eq_some_iff.mp stepped
      exact sound.take waiting taken
    next => cases stepped
  | unlock i | destroy i =>
    simp only [Guarding.step] at stepped
    split at stepped
    next =>
      obtain rfl := Option.some.inj stepped
      exact sound.unlock i _
    next => cases stepped

/-- Who has the lock, and who has not. -/
structure Excludes (mode : ι → GuardMode) (s : Guarding ι) : Prop where
  alone : ∀ i j, mode i = .write → (s.guards i).m_locked = true → (s.guards j).m_locked = true → j = i
  free : s.lock = {} ↔ ∀ i, (s.guards i).m_locked = false
  proper : s.misused = false

end Guarding
end HpsSf.Thread
