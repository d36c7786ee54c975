import Mathlib.Algebra.GroupWithZero.Nat
import Mathlib.Logic.Basic

/-! Guarded transition systems.

A step is a partial function of a state and a label: `none` means that the
label is not enabled. A run may be restricted by a condition on each of its
steps, stated on the state before the step and its label. The same function
serves replay on concrete labels and proofs by induction over runs.
-/

set_option autoImplicit false

namespace HpsSf.Foundation

/-- The parties of a small system are numbered from 0. -/
instance (priority := 2000) oneParty : NeZero 1 := ⟨Nat.succ_ne_zero 0⟩

instance (priority := 2000) twoParties : NeZero 2 := ⟨Nat.succ_ne_zero 1⟩

structure System (S L : Type) where
  start : S → Prop
  step : S → L → Option S

namespace System
variable {S L : Type} (sys : System S L)

/-- States reached from a start state by steps that each meet `allowed`. -/
inductive Reaches (allowed : S → L → Prop) : S → Prop where
  | start {s : S} : sys.start s → Reaches allowed s
  | step {s next : S} {label : L} : Reaches allowed s → allowed s label →
      sys.step s label = some next → Reaches allowed next

/-- States reached from `origin` by steps that each meet `allowed`. -/
inductive Path (allowed : S → L → Prop) (origin : S) : S → Prop where
  | here : Path allowed origin origin
  | step {s next : S} {label : L} : Path allowed origin s → allowed s label →
      sys.step s label = some next → Path allowed origin next

variable {sys} {allowed : S → L → Prop}

/-- What holds at the start and is kept by every allowed step holds throughout. -/
theorem Reaches.invariant {P : S → Prop} (initially : ∀ s, sys.start s → P s)
    (preserved : ∀ s label next, P s → allowed s label → sys.step s label = some next → P next)
    {s : S} (reached : sys.Reaches allowed s) : P s := by
  induction reached with
  | start begins => exact initially _ begins
  | step _ permitted stepped ih => exact preserved _ _ _ ih permitted stepped

/-- An invariant whose preservation needs another invariant established before. -/
theorem Reaches.invariant_of {Q P : S → Prop} (known : ∀ s, sys.Reaches allowed s → Q s)
    (initially : ∀ s, sys.start s → P s)
    (preserved : ∀ s label next, Q s → P s → allowed s label →
      sys.step s label = some next → P next)
    {s : S} (reached : sys.Reaches allowed s) : P s := by
  induction reached with
  | start begins => exact initially _ begins
  | step before permitted stepped ih => exact preserved _ _ _ (known _ before) ih permitted stepped

theorem Reaches.weaken {other : S → L → Prop} (sub : ∀ s label, allowed s label → other s label)
    {s : S} (reached : sys.Reaches allowed s) : sys.Reaches other s := by
  induction reached with
  | start begins => exact .start begins
  | step _ permitted stepped ih => exact .step ih (sub _ _ permitted) stepped

theorem Path.invariant {P : S → Prop}
    (preserved : ∀ s label next, P s → allowed s label → sys.step s label = some next → P next)
    {origin s : S} (path : sys.Path allowed origin s) (holds : P origin) : P s := by
  induction path with
  | here => exact holds
  | step _ permitted stepped ih => exact preserved _ _ _ ih permitted stepped

theorem Reaches.along {origin s : S} (reached : sys.Reaches allowed origin)
    (path : sys.Path allowed origin s) : sys.Reaches allowed s := by
  induction path with
  | here => exact reached
  | step _ permitted stepped ih => exact .step ih permitted stepped

/-- Replay labels, checking before each step that it meets `check`. -/
def replay (sys : System S L) (check : S → L → Bool) : S → List L → Option S
  | s, [] => some s
  | s, label :: rest =>
      if check s label then
        match sys.step s label with
        | some next => sys.replay check next rest
        | none => none
      else none

theorem replay_append (check : S → L → Bool) (s : S) (front rest : List L) :
    sys.replay check s (front ++ rest) = (sys.replay check s front).bind fun t => sys.replay check t rest := by
  induction front generalizing s with
  | nil => rfl
  | cons label front ih =>
    simp only [List.cons_append, replay]
    split
    next => cases sys.step s label <;> simp [ih]
    next => rfl

theorem replay_one {check : S → L → Bool} {s next : S} {label : L} (replayed : sys.replay check s [label] = some next) :
    check s label = true ∧ sys.step s label = some next := by
  simp only [replay] at replayed
  split at replayed
  next checked =>
    cases moved : sys.step s label with
    | none => simp [moved] at replayed
    | some t =>
      rw [moved] at replayed
      exact ⟨checked, replayed⟩
  next => cases replayed

theorem path_of_replay {check : S → L → Bool} (sound : ∀ s label, check s label = true → allowed s label)
    {labels : List L} {origin s final : S} (before : sys.Path allowed origin s)
    (replayed : sys.replay check s labels = some final) : sys.Path allowed origin final := by
  induction labels generalizing s with
  | nil =>
    cases replayed
    exact before
  | cons label rest ih =>
    simp only [replay] at replayed
    split at replayed
    next checked =>
      split at replayed
      next next stepped => exact ih (.step before (sound _ _ checked) stepped) replayed
      next => cases replayed
    next => cases replayed

theorem reaches_of_replay {check : S → L → Bool} (sound : ∀ s label, check s label = true → allowed s label)
    {labels : List L} {s final : S} (begins : sys.start s)
    (replayed : sys.replay check s labels = some final) : sys.Reaches allowed final :=
  (Reaches.start begins).along (path_of_replay sound .here replayed)

/-- A replay whose last state passes a test reaches a state that passes it. -/
theorem reaches_test (sys : System S L) (allowed : S → L → Prop) (check : S → L → Bool)
    (sound : ∀ s label, check s label = true → allowed s label) (s : S) (begins : sys.start s)
    (labels : List L) (test : S → Bool) (replayed : (sys.replay check s labels).any test = true) :
    ∃ final, sys.Reaches allowed final ∧ test final = true := by
  obtain ⟨final, last, passed⟩ := (Option.any_eq_true _ _).mp replayed
  exact ⟨final, reaches_of_replay sound begins last, passed⟩

end System
end HpsSf.Foundation
