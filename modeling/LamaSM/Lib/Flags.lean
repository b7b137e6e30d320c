import Mathlib.Algebra.Group.Nat.Defs
import Mathlib.Data.List.Count
import Mathlib.Data.Set.Defs

/-! Tables of numbers whose bits are flags.

    Setting bits of an entry adds flags and removes none (`flag_set`); how many entries still lack a
    flag is what a loop that sets flags counts down (`unflagged_set`, `unflagged_set_le`). -/

namespace Lib

/-- Entry `x` of the table has a bit of `mask` set. -/
def Flag (table : List ℕ) (mask x : ℕ) : Prop := ∃ v, table[x]? = some v ∧ v &&& mask ≠ 0

/-- The number of entries without a bit of `mask`. -/
def unflagged (mask : ℕ) (table : List ℕ) : ℕ := table.countP fun v => v &&& mask == 0

theorem lor_land_eq_zero {v bits mask : ℕ} :
    (v ||| bits) &&& mask = 0 ↔ v &&& mask = 0 ∧ bits &&& mask = 0 := by
  rw [Nat.and_or_distrib_right, Nat.or_eq_zero_iff]

variable {table : List ℕ} {mask x v : ℕ}

theorem flag_of_getElem? (hx : table[x]? = some v) : Flag table mask x ↔ v &&& mask ≠ 0 := by
  constructor
  · rintro ⟨w, hw, hbits⟩
    obtain rfl : v = w := Option.some.inj (hx.symm.trans hw)
    exact hbits
  · intro hbits
    exact ⟨v, hx, hbits⟩

/-- An entry that lacks a flag, read through `Flag`. -/
theorem not_flag_of_getElem? (hx : table[x]? = some v) : ¬ Flag table mask x ↔ v &&& mask = 0 := by
  rw [flag_of_getElem? hx, not_not]

theorem not_flag_replicate {n : ℕ} : ¬ Flag (List.replicate n 0) mask x := by
  rintro ⟨v, hv, hbits⟩
  rw [List.getElem?_replicate] at hv
  split at hv
  · cases hv
    exact hbits (Nat.zero_and mask)
  · cases hv

/-- Setting `bits` of entry `x` sets their flags there and leaves all others. -/
theorem flag_set {bits y : ℕ} (hx : table[x]? = some v) :
    Flag (table.set x (v ||| bits)) mask y ↔ Flag table mask y ∨ (y = x ∧ bits &&& mask ≠ 0) := by
  obtain ⟨hlt, -⟩ := List.getElem?_eq_some_iff.mp hx
  by_cases hxy : y = x
  · subst hxy
    rw [flag_of_getElem? (List.getElem?_set_self hlt), flag_of_getElem? hx, Ne, lor_land_eq_zero,
      not_and_or]
    simp only [true_and, ne_eq]
  · have hne : x ≠ y := fun h => hxy h.symm
    rw [Flag, List.getElem?_set_ne hne]
    simp only [hxy, false_and, or_false]
    exact Iff.rfl

/-- No flag is lost from one table to the other. -/
def FlagsLE (table table' : List ℕ) : Prop := ∀ mask x, Flag table mask x → Flag table' mask x

theorem FlagsLE.refl (table : List ℕ) : FlagsLE table table := fun _ _ h => h

theorem FlagsLE.trans {t₁ t₂ t₃ : List ℕ} (h : FlagsLE t₁ t₂) (h' : FlagsLE t₂ t₃) :
    FlagsLE t₁ t₃ := fun mask x hx => h' mask x (h mask x hx)

theorem flagsLE_set {bits : ℕ} (hx : table[x]? = some v) :
    FlagsLE table (table.set x (v ||| bits)) := fun _ _ hy => (flag_set hx).mpr (.inl hy)

theorem unflagged_le_length (mask : ℕ) (table : List ℕ) : unflagged mask table ≤ table.length := List.countP_le_length

/-- Setting bits never takes a flag away. -/
theorem unflagged_set_le (mask bits : ℕ) (hx : table[x]? = some v) :
    unflagged mask (table.set x (v ||| bits)) ≤ unflagged mask table := by
  obtain ⟨hlt, hv⟩ := List.getElem?_eq_some_iff.mp hx
  rw [unflagged, unflagged, List.countP_set hlt, hv]
  have hpos : v &&& mask = 0 → 0 < table.countP fun w => w &&& mask == 0 := fun h =>
    List.countP_pos_iff.mpr ⟨v, List.mem_of_getElem? hx, by simp [h]⟩
  by_cases hbefore : v &&& mask = 0
  · have := hpos hbefore
    simp only [hbefore, beq_self_eq_true, if_true]
    split <;> omega
  · have hafter : ¬ (v ||| bits) &&& mask = 0 := fun h => hbefore (lor_land_eq_zero.mp h).1
    simp [hbefore, hafter]

/-- Setting a new flag leaves one entry less without it. -/
theorem unflagged_set (bits : ℕ) (hx : table[x]? = some v) (hv : v &&& mask = 0)
    (hbits : bits &&& mask ≠ 0) :
    unflagged mask (table.set x (v ||| bits)) + 1 = unflagged mask table := by
  obtain ⟨hlt, hget⟩ := List.getElem?_eq_some_iff.mp hx
  have hpos : 0 < table.countP fun w => w &&& mask == 0 :=
    List.countP_pos_iff.mpr ⟨v, List.mem_of_getElem? hx, by simp [hv]⟩
  have hafter : ¬ (v ||| bits) &&& mask = 0 := fun h => hbits (lor_land_eq_zero.mp h).2
  rw [unflagged, unflagged, List.countP_set hlt, hget]
  simp only [hv, beq_self_eq_true, if_true, beq_iff_eq, hafter, if_false]
  omega

end Lib
