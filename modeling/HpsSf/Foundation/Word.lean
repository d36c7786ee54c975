import Mathlib.Algebra.Group.Nat.Defs
import Mathlib.Data.Nat.Init
import Mathlib.Logic.Function.Iterate

/-! Unsigned 64-bit arithmetic on natural numbers, with explicit wrapping. -/

set_option autoImplicit false

namespace HpsSf.Foundation

def wrap64 (value : Nat) : Nat := value % 2 ^ 64

def add64 (a b : Nat) : Nat := wrap64 (a + b)

def sub64 (a b : Nat) : Nat := wrap64 (a + (2 ^ 64 - wrap64 b))

/-- `++` on a `size_t`. -/
def incr64 (value : Nat) : Nat := add64 value 1

/-- `--` on a `size_t`; zero wraps to the largest value. -/
def decr64 (value : Nat) : Nat := sub64 value 1

/-- The conversion of a `size_t` to `int`. -/
def int32 (value : Nat) : Int := (BitVec.ofNat 32 value).toInt

theorem int32_of_lt {value : Nat} (small : value < 2 ^ 31) : int32 value = value := by
  simp only [int32, BitVec.toInt_eq_toNat_cond, BitVec.toNat_ofNat]
  omega

theorem wrap64_lt (value : Nat) : wrap64 value < 2 ^ 64 := Nat.mod_lt _ (by decide)

theorem wrap64_of_lt {value : Nat} (small : value < 2 ^ 64) : wrap64 value = value :=
  Nat.mod_eq_of_lt small

/-- The start of an interval is found from its end, up to wrapping. -/
theorem add64_sub64 (start interval other : Nat) :
    add64 (sub64 (add64 start interval) interval) other = add64 start other := by
  unfold add64 sub64 wrap64
  omega

/-- A counter that follows a total keeps following it when both go up. -/
theorem incr64_wrap64 (total : Nat) : incr64 (wrap64 total) = wrap64 (total + 1) := by
  unfold incr64 add64 wrap64
  omega

/-- A counter that follows a positive total keeps following it when both go down. -/
theorem decr64_wrap64 (total : Nat) : decr64 (wrap64 (total + 1)) = wrap64 total := by
  unfold decr64 sub64 wrap64
  omega

/-- A counter that follows a total keeps following it when both go down several times. -/
theorem decr64_iterate (total times : Nat) : decr64^[times] (wrap64 (total + times)) = wrap64 total := by
  induction times with
  | zero => rfl
  | succ times ih => rw [Function.iterate_succ_apply, ← Nat.add_assoc, decr64_wrap64, ih]

end HpsSf.Foundation
