import Mathlib.Logic.Function.Basic

/-! Objects behind shared pointers, each with the number of pointers to it.

The last pointer that goes destroys the object. A use of it behind that, and a
destructor that does not accept the object as it is, are faults.
-/

set_option autoImplicit false

namespace HpsSf.Foundation.Shared

variable {O : Type}

inductive Fault (O : Type) where
  | dangling (o : O)
  | destructor (o : O)
  deriving DecidableEq, Repr

/-- An access through a pointer. -/
def deref (uses : O → Nat) (o : O) : Except (Fault O) Unit :=
  if uses o = 0 then .error (.dangling o) else .ok ()

theorem deref_ok {uses : O → Nat} {o : O} (alive : 0 < uses o) : deref uses o = .ok () :=
  if_neg (Nat.ne_of_gt alive)

/-- Accesses one after the other. -/
def derefAll (uses : O → Nat) : List O → Except (Fault O) Unit
  | [] => .ok ()
  | o :: rest => do
      deref uses o
      derefAll uses rest

theorem derefAll_ok {uses : O → Nat} {os : List O} (alive : ∀ o ∈ os, 0 < uses o) :
    derefAll uses os = .ok () := by
  induction os with
  | nil => rfl
  | cons o rest ih =>
    obtain ⟨first, others⟩ := List.forall_mem_cons.mp alive
    rw [derefAll, deref_ok first]
    exact ih others

variable [DecidableEq O]

/-- A pointer is copied. -/
def retain (uses : O → Nat) (o : O) : O → Nat := Function.update uses o (uses o + 1)

/-- A pointer goes. -/
def release (accepts : O → Bool) (uses : O → Nat) (o : O) : Except (Fault O) (O → Nat) :=
  if uses o = 0 then .error (.dangling o)
  else if uses o = 1 && !accepts o then .error (.destructor o)
  else .ok (Function.update uses o (uses o - 1))

/-- A pointer from a weak one, if the object is still there. -/
def lock (uses : O → Nat) (o : O) : Option (O → Nat) :=
  if uses o = 0 then none else some (retain uses o)

variable {accepts : O → Bool} {uses next : O → Nat} {o other : O}

@[simp] theorem retain_self (uses : O → Nat) (o : O) :
    retain uses o o = uses o + 1 := Function.update_self ..

theorem retain_of_ne (distinct : other ≠ o) :
    retain uses o other = uses other := Function.update_of_ne distinct ..

theorem release_ok (accepts : O → Bool) (alive : 0 < uses o) (last : uses o = 1 → accepts o = true) :
    release accepts uses o = .ok (Function.update uses o (uses o - 1)) := by
  rw [release, if_neg (Nat.ne_of_gt alive), if_neg]
  rw [Bool.and_eq_true, Bool.not_eq_true', decide_eq_true_iff]
  rintro ⟨one, rejected⟩
  cases (last one).symm.trans rejected

theorem release_eq_ok (released : release accepts uses o = .ok next) :
    0 < uses o ∧ next = Function.update uses o (uses o - 1) := by
  unfold release at released
  split at released
  next => cases released
  next alive =>
    split at released
    next => cases released
    next => exact ⟨Nat.pos_of_ne_zero alive, (Except.ok.inj released).symm⟩

theorem lock_eq_some (locked : lock uses o = some next) : 0 < uses o ∧ next = retain uses o := by
  unfold lock at locked
  split at locked
  next => cases locked
  next alive => exact ⟨Nat.pos_of_ne_zero alive, (Option.some.inj locked).symm⟩

end HpsSf.Foundation.Shared
