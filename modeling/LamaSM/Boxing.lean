import LamaSM.Memory

/-! Boxed integers: `box_int` keeps 63 bits, `unbox` gives them back. -/

namespace LamaSM
open Lib

/-- The two's complement value of the low 63 bits. -/
def reduce63 (v : ℤ) : ℤ := Int.bmod v (2 ^ 63)

/-- The integers a boxed word can hold. -/
def Fits63 (v : ℤ) : Prop := -2 ^ 62 ≤ v ∧ v < 2 ^ 62

theorem fits63_reduce63 (v : ℤ) : Fits63 (reduce63 v) := by
  unfold reduce63 Fits63
  rw [Int.bmod_def]
  split <;> omega

theorem reduce63_of_fits {v : ℤ} (h : Fits63 v) : reduce63 v = v := by
  obtain ⟨h0, h1⟩ := h
  unfold reduce63
  rw [Int.bmod_def]
  split <;> omega

theorem isBoxedInt_boxInt (v : ℤ) : isBoxedInt (boxInt v) = true := by
  unfold isBoxedInt boxInt
  rw [BitVec.toNat_ofInt]
  simp only [beq_iff_eq]
  omega

theorem boxInt_ne_zero (v : ℤ) : boxInt v ≠ 0 := by
  intro hzero
  have hboxed := isBoxedInt_boxInt v
  rw [hzero] at hboxed
  exact absurd hboxed (by decide)

/-- Unboxing gives back 63 bits. -/
theorem unbox_boxInt_reduce (v : ℤ) : unbox (boxInt v) = reduce63 v := by
  unfold unbox boxInt reduce63
  rw [BitVec.toInt_ofInt, Int.bmod_def, Int.bmod_def]
  split <;> split <;> omega

theorem unbox_boxInt_of_fits {v : ℤ} (h : Fits63 v) : unbox (boxInt v) = v := by
  rw [unbox_boxInt_reduce, reduce63_of_fits h]

theorem unbox_boxInt {v : ℤ} (h0 : 0 ≤ v) (h : v < 2 ^ 62) : unbox (boxInt v) = v :=
  unbox_boxInt_of_fits ⟨by omega, h⟩

/-- Only 63 bits are boxed. -/
theorem boxInt_reduce63 (v : ℤ) : boxInt (reduce63 v) = boxInt v := by
  apply BitVec.eq_of_toInt_eq
  unfold boxInt reduce63
  rw [BitVec.toInt_ofInt, BitVec.toInt_ofInt, Int.bmod_def, Int.bmod_def, Int.bmod_def]
  split <;> split <;> split <;> omega

/-- Two integers have the same box when they agree on 63 bits. -/
theorem boxInt_eq_iff {v w : ℤ} : boxInt v = boxInt w ↔ reduce63 v = reduce63 w := by
  constructor
  · intro h
    rw [← unbox_boxInt_reduce, h, unbox_boxInt_reduce]
  · intro h
    rw [← boxInt_reduce63 v, h, boxInt_reduce63]

theorem fits63_unbox (w : Word) : Fits63 (unbox w) := by
  unfold Fits63 unbox
  have h0 := w.le_toInt
  have h1 := w.toInt_lt
  omega

end LamaSM
