import Mathlib.Algebra.Group.Nat.Defs
import Mathlib.Tactic.Common
import Mathlib.Data.Nat.Notation

/-! Natural numbers as bytes, the least significant first. -/

namespace Lib

/-- The lowest `k` bytes of a number. -/
def digits : ℕ → ℕ → List UInt8
  | 0, _ => []
  | k + 1, n => UInt8.ofNat n :: digits k (n / 2 ^ 8)

/-- The number whose bytes these are. -/
def byteValue : List UInt8 → ℕ
  | [] => 0
  | b :: bs => b.toNat + 2 ^ 8 * byteValue bs

theorem digits_byteValue : ∀ bs : List UInt8, digits bs.length (byteValue bs) = bs
  | [] => rfl
  | b :: bs => by
    have hb := b.toNat_lt
    have hrest : (b.toNat + 2 ^ 8 * byteValue bs) / 2 ^ 8 = byteValue bs := by omega
    have hlow : UInt8.ofNat (b.toNat + 2 ^ 8 * byteValue bs) = b := by
      apply UInt8.toNat_inj.mp
      rw [UInt8.toNat_ofNat']
      omega
    rw [List.length_cons, byteValue, digits, hrest, hlow, digits_byteValue bs]

theorem byteValue_digits : ∀ k n : ℕ, byteValue (digits k n) = n % 2 ^ (8 * k)
  | 0, n => by simp [digits, byteValue, Nat.mod_one]
  | k + 1, n => by
    rw [digits, byteValue, byteValue_digits k, UInt8.toNat_ofNat', show 8 * (k + 1) = 8 + 8 * k by omega,
      Nat.pow_add, Nat.mod_mul]

end Lib
