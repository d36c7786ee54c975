/-! Postconditions of computations that may fail.

`Ensures allowed good` says of a computation that it gives a good result or
fails in an allowed way. The rules follow the shape of the program, so a proof
about a `do` block reads like the block.
-/

set_option autoImplicit false

namespace HpsSf.Foundation

variable {E A B : Type} {allowed : E → Prop} {good : A → Prop}

def Ensures (allowed : E → Prop) (good : A → Prop) : Except E A → Prop
  | .ok value => good value
  | .error fault => allowed fault

theorem Ensures.ok {value : A} (holds : good value) : Ensures allowed good (.ok value) := holds

theorem Ensures.pure {value : A} (holds : good value) : Ensures allowed good (Pure.pure value) := holds

theorem Ensures.error {fault : E} (permitted : allowed fault) :
    Ensures allowed good (.error fault : Except E A) := permitted

theorem Ensures.bind {first : Except E A} {rest : A → Except E B} {later : B → Prop}
    (begins : Ensures allowed good first) (continues : ∀ value, good value → Ensures allowed later (rest value)) :
    Ensures allowed later (first >>= rest) := by
  cases first with
  | error fault => exact begins
  | ok value => exact continues value begins

theorem Ensures.map {first : Except E A} {f : A → B} {later : B → Prop}
    (begins : Ensures allowed good first) (after : ∀ value, good value → later (f value)) :
    Ensures allowed later (first.map f) := by
  cases first with
  | error fault => exact begins
  | ok value => exact after value begins

theorem Ensures.weaken {computation : Except E A} {weaker : A → Prop} (ensured : Ensures allowed good computation)
    (implied : ∀ value, good value → weaker value) : Ensures allowed weaker computation := by
  cases computation with
  | error fault => exact ensured
  | ok value => exact implied value ensured

/-- A branch of the program is a case of the proof. -/
theorem Ensures.ite {condition : Prop} [Decidable condition] {first second : Except E A}
    (holds : condition → Ensures allowed good first) (fails : ¬ condition → Ensures allowed good second) :
    Ensures allowed good (if condition then first else second) := by
  split
  next yes => exact holds yes
  next no => exact fails no

theorem Ensures.of_ok {computation : Except E A} (ensured : Ensures allowed good computation) {value : A}
    (gave : computation = .ok value) : good value := by
  subst gave
  exact ensured

theorem Ensures.of_error {computation : Except E A} (ensured : Ensures allowed good computation) {fault : E}
    (failed : computation = .error fault) : allowed fault := by
  subst failed
  exact ensured

/-- A computation that gives a result has got through its first part. -/
theorem eq_ok_of_bind {first : Except E A} {rest : A → Except E B} {result : B} (gave : first >>= rest = .ok result) :
    ∃ value, first = .ok value ∧ rest value = .ok result := by
  cases first with
  | error fault => cases gave
  | ok value => exact ⟨value, rfl, gave⟩

end HpsSf.Foundation
