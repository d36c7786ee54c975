import Mathlib.Data.List.Basic

/-! Byte strings. A byte is a `Char`; the character classes are those of the C locale. -/

set_option autoImplicit false

namespace HpsSf.Foundation

/-- `std::string`. -/
abbrev Text := List Char

/-- `tolower` on every byte. -/
def lowered (text : Text) : Text := text.map Char.toLower

/-- `find_first_not_of(allowed) == npos` -/
def madeOf (allowed text : Text) : Bool := text.all fun c => allowed.contains c

theorem madeOf_iff {allowed text : Text} : madeOf allowed text = true ↔ ∀ c ∈ text, c ∈ allowed := by
  simp [madeOf]

/-- Lowering changes nothing in a text of letters that it does not change. -/
theorem lowered_of_madeOf {allowed text : Text} (lower : ∀ c ∈ allowed, c.toLower = c)
    (made : madeOf allowed text = true) : lowered text = text := by
  unfold lowered
  calc text.map Char.toLower
      = text.map id := List.map_congr_left fun c member => lower c (madeOf_iff.mp made c member)
    _ = text := List.map_id text

end HpsSf.Foundation
