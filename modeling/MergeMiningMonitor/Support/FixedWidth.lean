import Mathlib.Data.Int.Basic

/-!
# Support — Fixed width

Integers of a fixed width, as integers with a range.
-/

namespace FixedWidth

/-- What an `i32` can hold. -/
def InI32 (n : Int) : Prop := -2147483648 ≤ n ∧ n ≤ 2147483647

instance (n : Int) : Decidable (InI32 n) := inferInstanceAs (Decidable (_ ∧ _))

/-- What an `i64` can hold. -/
def InI64 (n : Int) : Prop := -9223372036854775808 ≤ n ∧ n ≤ 9223372036854775807

instance (n : Int) : Decidable (InI64 n) := inferInstanceAs (Decidable (_ ∧ _))

theorem InI32.inI64 {n : Int} (h : InI32 n) : InI64 n := by
  rw [InI32] at h
  rw [InI64]
  omega

/-- `i32::saturating_sub` -/
def saturatingSub (a b : Int) : Int := max (-2147483648) (min 2147483647 (a - b))

/-- `i32::saturating_add` -/
def saturatingAdd (a b : Int) : Int := max (-2147483648) (min 2147483647 (a + b))

/-- The `i32` that an arithmetic operation without overflow checks returns. -/
def wrapI32 (n : Int) : Int := Int.bmod n 4294967296

theorem inI32_wrapI32 (n : Int) : InI32 (wrapI32 n) := by
  have hlower := Int.le_bmod (x := n) (m := 4294967296) (by decide)
  have hupper := Int.bmod_lt (x := n) (m := 4294967296) (by decide)
  rw [InI32, wrapI32]
  omega

theorem wrapI32_eq_self {n : Int} (h : InI32 n) : wrapI32 n = n := by
  rw [InI32] at h
  rw [wrapI32]
  exact Int.bmod_eq_of_le (by omega) (by omega)

end FixedWidth
