import LamaSM.Frames

/-! The chain of activations in the flat stack.

    `Linked` says that the frame headers of a list of activations hold what `pop_stack_frame` will
    need, and that each activation lies below the operands of its caller. An instruction that stays
    inside its own activation (`Inside`) keeps this chain, and the words above it change by
    collections only (`turn_chain`). The outermost activation of the list is described by a `Base`:
    the same argument serves for the callee of one call and for the main activation of a run. -/

namespace LamaSM
open Lib

/-! ### Operands, locals and arguments of the running activation -/

namespace State

/-- The locals reserved so far. -/
def reserved (s : State) : ℕ :=
  match s.activations with
  | [] => 0
  | a :: _ => a.reserved

/-- The arguments passed. -/
def passed (s : State) : ℕ :=
  match s.activations with
  | [] => 0
  | a :: _ => a.nargs

/-- The highest slot below the reserved locals: the operands end here. -/
def floor (s : State) : ℤ := s.fp - s.reserved

/-- The number of operand words. -/
def operands (s : State) : ℤ := s.floor - s.top

end State

/-- The instruction stays inside the running activation: it uses no more operands than there are,
    and of the stack it stores only to a reserved local, a passed argument, or above `bound`, where
    the globals are. -/
structure Inside (M : Machine) (bound : ℤ) (s : State) (type : InstructionType) : Prop where
  operands : need M.bf s.codePtr type (integerIndex s) ≤ s.operands
  store : ∀ i, storeSlot M s type = some i → 0 ≤ i → i < M.maxStack →
    (s.floor < i ∧ i ≤ s.fp) ∨ (s.fp + 4 ≤ i ∧ i < s.fp + 4 + s.passed) ∨ bound < i

instance (M : Machine) (bound : ℤ) (s : State) (type : InstructionType) :
    Decidable (Inside M bound s type) :=
  match h : storeSlot M s type with
  | none => decidable_of_iff (need M.bf s.codePtr type (integerIndex s) ≤ s.operands)
    ⟨fun hop => ⟨hop, fun i hi => by rw [h] at hi; cases hi⟩, Inside.operands⟩
  | some i => decidable_of_iff (need M.bf s.codePtr type (integerIndex s) ≤ s.operands ∧
      (0 ≤ i → i < M.maxStack →
        (s.floor < i ∧ i ≤ s.fp) ∨ (s.fp + 4 ≤ i ∧ i < s.fp + 4 + s.passed) ∨ bound < i))
    ⟨fun hin => ⟨hin.1, fun j hj => by rw [h] at hj; cases hj; exact hin.2⟩,
      fun hin => ⟨hin.operands, hin.store i h⟩⟩

/-! ### Addresses of slots -/

namespace Machine

variable {M : Machine}

theorem slotAddr_toNat {i : ℤ} (h0 : M.nullSlot ≤ i) (h1 : i ≤ M.maxStack) :
    ((M.slotAddr i).toNat : ℤ) = 8 * (M.stackWord + i) := by
  have hlt := M.stack_lt
  unfold nullSlot at h0
  rw [slotAddr, BitVec.toNat_ofInt, Int.toNat_of_nonneg (by omega)]
  omega

theorem slotOf_slotAddr {i : ℤ} (h0 : M.nullSlot ≤ i) (h1 : i ≤ M.maxStack) :
    M.slotOf (M.slotAddr i) = some i := by
  have h := slotAddr_toNat h0 h1
  unfold nullSlot at h0
  rw [slotOf, if_pos (by omega)]
  congr 1
  omega

theorem heapZone_slotAddr {i : ℤ} (h0 : 0 ≤ i) (h1 : i ≤ M.maxStack) :
    M.heapZone (M.slotAddr i) = false := by
  by_contra hz
  have hs := M.zone_stack _ (by simpa using hz)
  have h := slotAddr_toNat (M := M) (i := i) (by unfold nullSlot; omega) h1
  omega

theorem slotAddr_nullSlot : M.slotAddr M.nullSlot = 0 := by
  have hz : 8 * ((M.stackWord : ℤ) + M.nullSlot) = 0 := by unfold nullSlot; omega
  rw [slotAddr, hz]
  rfl

theorem codeAddr_toNat {o : ℤ} (h0 : 0 ≤ M.bf.codePtr + o)
    (h1 : M.bf.codePtr + o ≤ M.bf.bytes.length) :
    ((M.codeAddr o).toNat : ℤ) = M.buffer + M.bf.codePtr + o := by
  have hlt := M.buffer_lt
  rw [codeAddr, BitVec.toNat_ofInt, Int.toNat_of_nonneg (by omega)]
  omega

theorem codeOffset_codeAddr {o : ℤ} (h0 : 0 ≤ M.bf.codePtr + o)
    (h1 : M.bf.codePtr + o ≤ M.bf.bytes.length) : M.codeOffset (M.codeAddr o) = o := by
  rw [codeOffset, codeAddr_toNat h0 h1]
  omega

theorem codeAddr_ne_zero {o : ℤ} (h0 : 0 ≤ M.bf.codePtr + o)
    (h1 : M.bf.codePtr + o ≤ M.bf.bytes.length) : M.codeAddr o ≠ 0 := by
  intro h
  have hn := codeAddr_toNat h0 h1
  have hp := M.buffer_pos
  rw [h] at hn
  have h0 : (0 : Word).toNat = 0 := rfl
  omega

theorem heapZone_codeAddr {o : ℤ} (h0 : 0 ≤ M.bf.codePtr + o)
    (h1 : M.bf.codePtr + o ≤ M.bf.bytes.length) : M.heapZone (M.codeAddr o) = false := by
  by_contra hz
  have hs := M.zone_buffer _ (by simpa using hz)
  have h := codeAddr_toNat h0 h1
  omega

end Machine

/-! ### The chain -/

namespace Activation

/-- The highest slot below the locals. -/
def floor (a : Activation) : ℤ := a.fp - a.reserved

/-- The highest slot that belongs to the activation: its header, its arguments, its closure. -/
def last (a : Activation) : ℤ := a.fp + 3 + a.nargs + a.isClosure

/-- The two differ at most in the locals reserved so far. -/
def SameCall (a b : Activation) : Prop :=
  a.fp = b.fp ∧ a.nargs = b.nargs ∧ a.isClosure = b.isClosure ∧ a.ra = b.ra

theorem floor_le_fp (a : Activation) : a.floor ≤ a.fp := by unfold floor; omega

theorem fp_lt_last (a : Activation) : a.fp + 3 ≤ a.last := by unfold last; omega

end Activation

/-- Where a list of activations begins: the `fp` its outermost activation saves, the highest slot it
    may use, and that activation as it was pushed. -/
structure Base where
  fp : ℤ
  floor : ℤ
  bottom : Activation

/-- The saved `fp` is a slot or null, and no heap address. -/
structure Base.Valid (M : Machine) (B : Base) : Prop where
  floor_lt : B.floor < M.maxStack
  slotOf : M.slotOf (M.slotAddr B.fp) = some B.fp
  zone : M.heapZone (M.slotAddr B.fp) = false

theorem Base.valid_of_slot {M : Machine} {fp floor : ℤ} (bottom : Activation) (h0 : 0 ≤ fp)
    (hfp : fp ≤ M.maxStack) (hfloor : floor < M.maxStack) : Base.Valid M ⟨fp, floor, bottom⟩ :=
  have hnull : M.nullSlot ≤ fp := by unfold Machine.nullSlot; omega
  ⟨hfloor, Machine.slotOf_slotAddr hnull hfp, Machine.heapZone_slotAddr h0 hfp⟩

/-- The `fp` and the floor of the caller of the activations `as`. -/
def Base.caller (B : Base) : List Activation → ℤ × ℤ
  | [] => (B.fp, B.floor)
  | a :: _ => (a.fp, a.floor)

/-- The activation lies below the operands of its caller, and its header holds what
    `pop_stack_frame` needs. -/
structure Framed (M : Machine) (stack : ℤ → Word) (a : Activation) (caller : ℤ × ℤ) : Prop where
  savedTop : stack (a.fp + 1) = M.slotAddr a.last
  savedFp : stack (a.fp + 2) = M.slotAddr caller.1
  ra : stack (a.fp + 3) = a.ra
  last_le : a.last ≤ caller.2
  fp_ge : -1 ≤ a.fp
  zone : M.heapZone a.ra = false

/-- The activations `as`, innermost first, are chained by their headers; only the outermost may have
    a null return address. -/
def Linked (M : Machine) (B : Base) (stack : ℤ → Word) : List Activation → Prop
  | [] => True
  | a :: as => Framed M stack a (B.caller as) ∧ (as = [] → a.SameCall B.bottom) ∧
      (as ≠ [] → a.ra ≠ 0) ∧ Linked M B stack as

section Linked

variable {M : Machine} {B : Base} {stack stack' : ℤ → Word}

theorem Linked.last_le : ∀ {as : List Activation}, Linked M B stack as → ∀ b ∈ as, b.last ≤ B.floor
  | [], _, _, hb => nomatch hb
  | [a], h, b, hb => by
    rw [List.mem_singleton.mp hb]
    exact h.1.last_le
  | a :: c :: as, ⟨hf, _, _, hrest⟩, b, hb => by
    rcases List.mem_cons.mp hb with rfl | hb
    · have hc := hrest.last_le c List.mem_cons_self
      have hlast : b.last ≤ c.floor := hf.last_le
      have hfloor := c.floor_le_fp
      have hfp := c.fp_lt_last
      omega
    · exact hrest.last_le b hb

/-- The callers of an activation have their locals above it. -/
theorem Linked.above : ∀ {as : List Activation} {a : Activation}, Linked M B stack (a :: as) →
    ∀ b ∈ as, a.last ≤ b.floor
  | [], _, _, _, hb => nomatch hb
  | c :: as, a, ⟨hf, _, _, hrest⟩, b, hb => by
    have hlast : a.last ≤ c.floor := hf.last_le
    rcases List.mem_cons.mp hb with rfl | hb
    · exact hlast
    · have hc := hrest.above b hb
      have hfloor := c.floor_le_fp
      have hfp := c.fp_lt_last
      omega

/-- The chain only depends on the header words. -/
theorem Linked.congr : ∀ {as : List Activation}, Linked M B stack as →
    (∀ b ∈ as, ∀ i, b.fp < i → i ≤ b.fp + 3 → stack' i = stack i) → Linked M B stack' as
  | [], _, _ => trivial
  | a :: as, ⟨hf, hbot, hra, hrest⟩, hw => by
    have hself := hw a List.mem_cons_self
    refine ⟨⟨?_, ?_, ?_, hf.last_le, hf.fp_ge, hf.zone⟩, hbot, hra,
      hrest.congr fun b hb => hw b (List.mem_cons_of_mem a hb)⟩
    · rw [hself _ (by omega) (by omega), hf.savedTop]
    · rw [hself _ (by omega) (by omega), hf.savedFp]
    · rw [hself _ (by omega) (by omega), hf.ra]

/-- The slots a header of the chain points to exist. -/
theorem Linked.last_slot (hB : B.Valid M) {a : Activation} {as : List Activation}
    (h : Linked M B stack (a :: as)) : 0 ≤ a.last ∧ a.last < M.maxStack := by
  have hlast := h.last_le a List.mem_cons_self
  have hlt := hB.floor_lt
  have hfp := h.1.fp_ge
  have hl := a.fp_lt_last
  omega

/-- The saved `fp` of an activation is read back, and is no heap address. -/
theorem Linked.callerFp (hB : B.Valid M) : ∀ {as : List Activation} {a : Activation},
    Linked M B stack (a :: as) → M.slotOf (M.slotAddr (B.caller as).1) = some (B.caller as).1 ∧
      M.heapZone (M.slotAddr (B.caller as).1) = false
  | [], _, _ => ⟨hB.slotOf, hB.zone⟩
  | c :: as, a, ⟨hf, _, _, hrest⟩ => by
    have hlast : a.last ≤ c.floor := hf.last_le
    have hfp := hf.fp_ge
    have hl := a.fp_lt_last
    have hfloor := c.floor_le_fp
    have hc := hrest.last_slot hB
    have hcl := c.fp_lt_last
    have hle : c.fp ≤ M.maxStack := by omega
    exact ⟨Machine.slotOf_slotAddr (by unfold Machine.nullSlot; show _ ≤ c.fp; omega) hle,
      Machine.heapZone_slotAddr (by show 0 ≤ c.fp; omega) hle⟩

/-- Header words are no heap addresses. -/
theorem Linked.zone (hB : B.Valid M) : ∀ {as : List Activation}, Linked M B stack as →
    ∀ b ∈ as, ∀ i, b.fp < i → i ≤ b.fp + 3 → M.heapZone (stack i) = false
  | [], _, _, hb => nomatch hb
  | a :: as, h, b, hb => by
    rcases List.mem_cons.mp hb with rfl | hb
    · intro i hi hi'
      have hslot := h.last_slot hB
      have hcases : i = b.fp + 1 ∨ i = b.fp + 2 ∨ i = b.fp + 3 := by omega
      rcases hcases with rfl | rfl | rfl
      · rw [h.1.savedTop]
        exact Machine.heapZone_slotAddr hslot.1 (by omega)
      · rw [h.1.savedFp]
        exact (h.callerFp hB).2
      · rw [h.1.ra]
        exact h.1.zone
    · exact h.2.2.2.zone hB b hb

end Linked

end LamaSM
