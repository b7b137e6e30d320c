import Mathlib.Algebra.Group.Nat.Defs
import Mathlib.Algebra.Group.Int.Defs
import Mathlib.Tactic.Common
import Mathlib.Data.Int.Notation

/-! Fixed-width integers as C computes with them, on `ℕ` and `ℤ`.

    An unsigned 32-bit value is a natural number below `2 ^ 32`, a signed one an integer in
    `[-2 ^ 31, 2 ^ 31)`. `toU32` and `toI32` are the two conversions; both forget everything but
    the value modulo `2 ^ 32`, and each undoes the other on its own range. -/

namespace Lib

/-- Conversion to `uint32_t`. -/
def toU32 (x : ℤ) : ℕ := (x % 2 ^ 32).toNat

/-- Conversion to `int32_t` (two's complement). -/
def toI32 (x : ℤ) : ℤ :=
  if x % 2 ^ 32 < 2 ^ 31 then x % 2 ^ 32 else x % 2 ^ 32 - 2 ^ 32

/-- Conversion to `uint16_t`. -/
def toU16 (x : ℤ) : ℕ := (x % 2 ^ 16).toNat

theorem toU32_lt (x : ℤ) : toU32 x < 2 ^ 32 := by
  unfold toU32; omega

theorem toU32_of_lt {n : ℕ} (h : n < 2 ^ 32) : toU32 n = n := by
  unfold toU32; omega

theorem toI32_lt (x : ℤ) : toI32 x < 2 ^ 31 := by
  unfold toI32; split <;> omega

theorem toI32_of_lt {n : ℕ} (h : n < 2 ^ 31) : toI32 n = n := by
  unfold toI32; split <;> omega

/-- A signed value survives the round trip through `uint32_t`. -/
theorem toI32_toU32_of_range {x : ℤ} (h0 : -2 ^ 31 ≤ x) (h : x < 2 ^ 31) :
    toI32 (toU32 x) = x := by
  unfold toI32 toU32; split <;> omega

/-- Two signed values with the same unsigned reading are equal. -/
theorem toU32_inj {x y : ℤ} (hx0 : -2 ^ 31 ≤ x) (hx : x < 2 ^ 31) (hy0 : -2 ^ 31 ≤ y)
    (hy : y < 2 ^ 31) (h : toU32 x = toU32 y) : x = y := by
  unfold toU32 at h; omega

theorem toU16_lt (x : ℤ) : toU16 x < 2 ^ 16 := by
  unfold toU16; omega

end Lib
