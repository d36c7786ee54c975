import HpsSf.Config.ConfigVar
import HpsSf.Foundation.System
import Mathlib.Logic.Function.Basic

/-! What listeners are told while several threads set a variable.

A call of `setValue` compares and notifies under the read lock and assigns under
the write lock. Between the two another call may notify from the same old value.
-/

set_option autoImplicit false

namespace HpsSf.Config
open Foundation

variable {V C T : Type}

/-- Each old value is the new value of the notification before it. -/
def Chain : V → List (Notification V C) → Prop
  | _, [] => True
  | value, told :: rest => told.old = value ∧ Chain told.new rest

/-- The value that somebody who believes every notification ends up with. -/
def latest : V → List (Notification V C) → V
  | value, [] => value
  | _, told :: rest => latest told.new rest

theorem chain_append_singleton (value : V) (received : List (Notification V C)) (told : Notification V C) :
    Chain value (received ++ [told]) ↔ Chain value received ∧ told.old = latest value received := by
  induction received generalizing value with
  | nil => simp [Chain, latest]
  | cons first rest ih => simp only [List.cons_append, Chain, latest, ih, and_assoc]

theorem latest_append_singleton (value : V) (received : List (Notification V C)) (told : Notification V C) :
    latest value (received ++ [told]) = told.new := by
  induction received generalizing value with
  | nil => rfl
  | cons first rest ih => exact ih first.new

structure Updating (V C T : Type) where
  var : ConfigVar V C
  /-- What a call of `setValue` has notified and not yet assigned. -/
  pending : T → Option V
  told : List (Notification V C)

inductive Phase (V T : Type) where
  /-- The comparison and the notifications under the read lock. -/
  | notify (t : T) (v : V)
  /-- The assignment under the write lock. -/
  | assign (t : T)

namespace Updating
variable [DecidableEq V] [DecidableEq T]

def step (s : Updating V C T) : Phase V T → Option (Updating V C T)
  | .notify t v =>
      match s.pending t with
      | some _ => none
      | none =>
          match s.var.notify v with
          | none => some s
          -- The lock is given back with the old value still in place.
          | some told => some { s with pending := Function.update s.pending t (some v), told := s.told ++ told }
  | .assign t =>
      match s.pending t with
      | some v => some { s with var := s.var.assign v, pending := Function.update s.pending t none }
      | none => none

/-- What the listener with this key has been told, in order. -/
def received (s : Updating V C T) (key : Nat) : List (Notification V C) :=
  s.told.filter fun told => told.listener.1 = key

/-- Every listener is told the truth, and all of it once no call is under way. -/
def Truthful (initial : V) (s : Updating V C T) : Prop :=
  ∀ listener ∈ s.var.cbs, Chain initial (s.received listener.1) ∧
    ((∀ t, s.pending t = none) → s.var.val = latest initial (s.received listener.1))

end Updating

/-- Any number of threads in `setValue`, from a variable with its listeners. -/
def updating (T : Type) [DecidableEq V] [DecidableEq T] (var : ConfigVar V C) :
    System (Updating V C T) (Phase V T) where
  start s := s = ⟨var, fun _ => none, []⟩
  step := Updating.step

/-- A call that changes the value begins while no other call has yet to assign. -/
def Alone (s : Updating V C T) : Phase V T → Prop
  | .notify _ v => v = s.var.val ∨ ∀ t, s.pending t = none
  | .assign _ => True

namespace Updating

/-- A key belongs to one listener. -/
theorem filter_key {cbs : List (Nat × C)} (ordered : (cbs.map Prod.fst).Pairwise (· < ·)) {listener : Nat × C}
    (member : listener ∈ cbs) : (cbs.filter fun other => other.1 = listener.1) = [listener] := by
  induction cbs with
  | nil => cases member
  | cons first rest ih =>
    obtain ⟨below, ordered⟩ := List.pairwise_cons.mp ordered
    obtain rfl | later := List.mem_cons.mp member
    · have none : (rest.filter fun other => other.1 = listener.1) = [] := by
        rw [List.filter_eq_nil_iff]
        intro other present same
        have less := below other.1 (List.mem_map_of_mem present)
        simp only [decide_eq_true_eq] at same
        omega
      rw [List.filter_cons_of_pos (by simp), none]
    · have less := below listener.1 (List.mem_map_of_mem later)
      rw [List.filter_cons_of_neg (by simpa using by omega), ih ordered later]

/-- The invariant of calls that do not overlap: the last notification is the
value to be assigned, or has been assigned. -/
structure Orderly (initial : V) (s : Updating V C T) : Prop where
  single : ∀ t u v w, s.pending t = some v → s.pending u = some w → t = u
  changes : ∀ t v, s.pending t = some v → v ≠ s.var.val
  chain : ∀ listener ∈ s.var.cbs, Chain initial (s.received listener.1)
  busy : ∀ t v, s.pending t = some v → ∀ listener ∈ s.var.cbs, latest initial (s.received listener.1) = v
  idle : (∀ t, s.pending t = none) → ∀ listener ∈ s.var.cbs, latest initial (s.received listener.1) = s.var.val

theorem Orderly.truthful {initial : V} {s : Updating V C T} (orderly : s.Orderly initial) : s.Truthful initial :=
  fun listener member => ⟨orderly.chain listener member, fun none => (orderly.idle none listener member).symm⟩

theorem Orderly.assign [DecidableEq T] {initial : V} {s : Updating V C T} {t : T} {v : V} (orderly : s.Orderly initial)
    (busy : s.pending t = some v) :
    ({ s with var := s.var.assign v, pending := Function.update s.pending t none } :
      Updating V C T).Orderly initial := by
  have nobody (u : T) : Function.update s.pending t none u = none := by
    by_cases same : u = t
    · rw [same, Function.update_self]
    · rw [Function.update_of_ne same]
      cases other : s.pending u with
      | none => rfl
      | some w => exact absurd (orderly.single u t w v other busy) same
  constructor
  · intro u w x y first
    exact nomatch (nobody u).symm.trans first
  · intro u w first
    exact nomatch (nobody u).symm.trans first
  · exact orderly.chain
  · intro u w first
    exact nomatch (nobody u).symm.trans first
  · intro _ listener member
    exact orderly.busy t v busy listener member

section
variable [DecidableEq V]

/-- One round of notifications tells each listener once. -/
theorem notify_received {var : ConfigVar V C} {v : V} {told : List (Notification V C)}
    (notified : var.notify v = some told) : v ≠ var.val ∧
      ∀ listener ∈ var.cbs, (told.filter fun one => one.listener.1 = listener.1) = [⟨listener, var.val, v⟩] := by
  unfold ConfigVar.notify at notified
  split at notified
  next => cases notified
  next different =>
    cases notified
    refine ⟨different, fun listener member => ?_⟩
    rw [List.filter_map]
    calc (var.cbs.filter _).map (fun one => (⟨one, var.val, v⟩ : Notification V C))
        = [listener].map fun one => ⟨one, var.val, v⟩ := by
          rw [← filter_key var.ordered member]
          rfl
      _ = [⟨listener, var.val, v⟩] := rfl

variable [DecidableEq T]

/-- What a phase can do. -/
theorem step_phase {s next : Updating V C T} {phase : Phase V T} (stepped : s.step phase = some next) :
    (∃ t, phase = .notify t s.var.val ∧ next = s) ∨
      (∃ t v told, phase = .notify t v ∧ s.pending t = none ∧ s.var.notify v = some told ∧
        next = { s with pending := Function.update s.pending t (some v), told := s.told ++ told }) ∨
      ∃ t v, phase = .assign t ∧ s.pending t = some v ∧
        next = { s with var := s.var.assign v, pending := Function.update s.pending t none } := by
  cases phase with
  | notify t v =>
    simp only [step] at stepped
    split at stepped
    next => cases stepped
    next idle =>
      split at stepped
      next equal =>
        cases stepped
        unfold ConfigVar.notify at equal
        split at equal
        next same => exact .inl ⟨t, by rw [same], rfl⟩
        next => cases equal
      next told notified =>
        cases stepped
        exact .inr (.inl ⟨t, v, told, rfl, idle, notified, rfl⟩)
  | assign t =>
    simp only [step] at stepped
    split at stepped
    next v busy =>
      cases stepped
      exact .inr (.inr ⟨t, v, rfl, busy, rfl⟩)
    next => cases stepped

theorem Orderly.notify {initial : V} {s : Updating V C T} {t : T} {v : V} {told : List (Notification V C)}
    (orderly : s.Orderly initial) (idle : ∀ u, s.pending u = none) (notified : s.var.notify v = some told) :
    ({ s with pending := Function.update s.pending t (some v), told := s.told ++ told } :
      Updating V C T).Orderly initial := by
  obtain ⟨different, once⟩ := notify_received notified
  have received (listener : Nat × C) (member : listener ∈ s.var.cbs) :
      ({ s with pending := Function.update s.pending t (some v), told := s.told ++ told } :
        Updating V C T).received listener.1 = s.received listener.1 ++ [⟨listener, s.var.val, v⟩] := by
    rw [Updating.received, List.filter_append, once listener member, ← Updating.received]
  have only (u : T) (w : V) (busy : Function.update s.pending t (some v) u = some w) : u = t ∧ w = v := by
    by_cases same : u = t
    · subst same
      rw [Function.update_self] at busy
      exact ⟨rfl, (Option.some.inj busy).symm⟩
    · rw [Function.update_of_ne same, idle u] at busy
      cases busy
  constructor
  · intro u w x y first second
    rw [(only u x first).1, (only w y second).1]
  · intro u w busy
    rw [(only u w busy).2]
    exact different
  · intro listener member
    rw [received listener member, chain_append_singleton]
    exact ⟨orderly.chain listener member, (orderly.idle idle listener member).symm⟩
  · intro u w busy listener member
    rw [received listener member, latest_append_singleton, (only u w busy).2]
  · intro none
    have busy := none t
    simp only [Function.update_self] at busy
    cases busy

theorem Orderly.step {initial : V} {s next : Updating V C T} {phase : Phase V T} (orderly : s.Orderly initial)
    (alone : Alone s phase) (stepped : s.step phase = some next) : next.Orderly initial := by
  obtain ⟨t, rfl, rfl⟩ | ⟨t, v, told, rfl, -, notified, rfl⟩ | ⟨t, v, rfl, busy, rfl⟩ := step_phase stepped
  · exact orderly
  · exact orderly.notify (alone.resolve_left (notify_received notified).1) notified
  · exact orderly.assign busy

/-- As long as no call that changes the value begins between the two phases of
another, every listener is told the truth. -/
theorem updates_truthful {var : ConfigVar V C} {s : Updating V C T}
    (reached : (updating T var).Reaches Alone s) : s.Truthful var.val := by
  refine Orderly.truthful (reached.invariant (fun s begins => ?_) fun s phase next before alone stepped => ?_)
  · rw [show s = ⟨var, fun _ => none, []⟩ from begins]
    exact ⟨nofun, nofun, fun _ _ => trivial, nofun, fun _ _ _ => rfl⟩
  · exact before.step alone stepped

/-- The condition is exact: a change that begins between the two phases of
another is told from a value that is already history. -/
theorem Orderly.alone_iff {initial : V} {s next : Updating V C T} {phase : Phase V T} (orderly : s.Orderly initial)
    (stepped : s.step phase = some next) (listened : s.var.cbs ≠ []) :
    next.Truthful initial ↔ Alone s phase := by
  constructor
  · intro truthful
    obtain ⟨t, rfl, rfl⟩ | ⟨t, v, told, rfl, -, notified, rfl⟩ | ⟨t, v, rfl, busy, rfl⟩ := step_phase stepped
    · exact .inl rfl
    -- A call under way has told a value that this one does not start from.
    · refine .inr fun u => ?_
      cases pending : s.pending u with
      | none => rfl
      | some w =>
        obtain ⟨listener, member⟩ := List.exists_mem_of_ne_nil _ listened
        have chain := (truthful listener member).1
        rw [Updating.received, List.filter_append, (notify_received notified).2 listener member, ← Updating.received,
          chain_append_singleton, orderly.busy u w pending listener member] at chain
        exact absurd chain.2.symm (orderly.changes u w pending)
    · trivial
  · intro alone
    exact (orderly.step alone stepped).truthful

end

def aloneTest (s : Updating Nat String (Fin 2)) : Phase Nat (Fin 2) → Bool
  | .notify _ v => v = s.var.val || (s.pending 0 = none && s.pending 1 = none)
  | .assign _ => true

/-- One listener on a number. -/
def listened : ConfigVar Nat String := ⟨0, [(1, "cb")], by decide⟩

theorem updates_truthful_inTurn :
    ∃ s, (updating (Fin 2) listened).Reaches Alone s ∧ s.var.val = 2 ∧
      s.received 1 = [⟨(1, "cb"), 0, 1⟩, ⟨(1, "cb"), 1, 2⟩] ∧ s.Truthful 0 := by
  obtain ⟨s, reached, test⟩ := System.reaches_test (updating (Fin 2) listened) Alone aloneTest
    (fun s phase passed => by
      cases phase with
      | assign t => trivial
      | notify t v =>
        simp only [aloneTest, Bool.or_eq_true, decide_eq_true_eq, Bool.and_eq_true] at passed
        refine passed.imp_right fun none t => ?_
        match t with
        | 0 => exact none.1
        | 1 => exact none.2)
    ⟨listened, fun _ => none, []⟩ rfl [.notify 0 1, .notify 1 0, .assign 0, .notify 1 2, .assign 1]
    (fun s => s.var.val = 2 ∧ s.received 1 = [⟨(1, "cb"), 0, 1⟩, ⟨(1, "cb"), 1, 2⟩]) (by decide)
  obtain ⟨value, received⟩ := of_decide_eq_true test
  exact ⟨s, reached, value, received, updates_truthful reached⟩

/-- Two overlapping calls notify from the same old value and assign in the other
order: the listener ends with 2, the variable with 1. -/
theorem overlapping_updates_diverge :
    ∃ s, (updating (Fin 2) listened).Reaches (fun _ _ => True) s ∧
      s.received 1 = [⟨(1, "cb"), 0, 1⟩, ⟨(1, "cb"), 0, 2⟩] ∧ s.pending 0 = none ∧ s.pending 1 = none ∧
      s.var.val = 1 ∧ latest 0 (s.received 1) = 2 ∧ ¬ s.Truthful 0 := by
  obtain ⟨s, reached, test⟩ := System.reaches_test (updating (Fin 2) listened) (fun _ _ => True)
    (fun _ _ => true) (fun _ _ _ => trivial) ⟨listened, fun _ => none, []⟩ rfl
    [.notify 0 1, .notify 1 2, .assign 1, .assign 0]
    (fun s => s.received 1 = [⟨(1, "cb"), 0, 1⟩, ⟨(1, "cb"), 0, 2⟩] ∧ s.pending 0 = none ∧ s.pending 1 = none ∧
      s.var.val = 1 ∧ latest 0 (s.received 1) = 2 ∧ s.var.cbs = [(1, "cb")]) (by decide)
  obtain ⟨received, first, second, value, last, listeners⟩ := of_decide_eq_true test
  refine ⟨s, reached, received, first, second, value, last, fun truthful => ?_⟩
  have chain := (truthful (1, "cb") (by rw [listeners]; exact List.mem_singleton_self _)).1
  rw [received] at chain
  exact nomatch (chain.2.1 : (0 : Nat) = 1)

end Updating
end HpsSf.Config
