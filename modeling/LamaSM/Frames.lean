import LamaSM.HandlerEffects

/-! What BEGIN, CALL, CALLC and END do: the frame header `push_stack_frame` writes, and what
    `pop_stack_frame` reads back from it.

    The header of a frame lies in the three words above `fp`: the top the caller gets back, the
    caller's `fp` and the return address. -/

namespace LamaSM
open Lib

section Primitives

variable {M : Machine} {s s' : State}

theorem readSlot_ok {i : ℤ} {w : Word} (h : readSlot M i s = .ok w s') :
    s' = s ∧ w = s.stack i ∧ 0 ≤ i ∧ i < M.maxStack := by
  unfold readSlot at h
  split at h
  · rename_i hr
    cases h
    exact ⟨rfl, rfl, hr⟩
  · cases h

theorem writeSlot_ok {i : ℤ} {w : Word} {u : Unit} (h : writeSlot M i w s = .ok u s') :
    s' = { s with stack := Function.update s.stack i w } ∧ 0 ≤ i ∧ i < M.maxStack := by
  unfold writeSlot at h
  split at h
  · rename_i hr
    cases h
    exact ⟨rfl, hr⟩
  · cases h

theorem readOperand_ok {i : ℤ} {w : Word} (h : readOperand M i s = .ok w s') :
    s' = { s with touched := max s.touched i } ∧ w = s.stack i ∧ 0 ≤ i ∧ i < M.maxStack := by
  obtain ⟨⟨⟩, s₁, ht, h⟩ := exec_bind_ok.mp h
  cases ht
  exact readSlot_ok h

theorem peekOp_ok {w : Word} (h : peekOp M s = .ok w s') :
    s' = { s with touched := max s.touched (s.top + 1) } ∧ w = s.stack (s.top + 1) ∧
      0 ≤ s.top + 1 ∧ s.top + 1 < M.maxStack := readOperand_ok h

theorem pushOp_ok {w : Word} {u : Unit} (h : pushOp M w s = .ok u s') :
    s' = { s with stack := Function.update s.stack s.top w, top := s.top - 1 } ∧
      0 ≤ s.top ∧ s.top < M.maxStack := by
  simp only [pushOp, exec_bind_ok, exec_get_ok, exec_modify_ok] at h
  obtain ⟨_, _, ⟨rfl, rfl⟩, u, s₁, hw, rfl⟩ := h
  obtain ⟨rfl, hr⟩ := writeSlot_ok hw
  exact ⟨rfl, hr⟩

/-- `std::reverse` turns the range around, whatever its length. -/
theorem reverseSlots_ok {a : ℤ} {n : ℕ} {u : Unit} (h : reverseSlots M a n s = .ok u s') :
    ∃ st, s' = { s with stack := st } ∧ (∀ i, a ≤ i → i < a + n → st i = s.stack (2 * a + n - 1 - i)) ∧
      ∀ i, i < a ∨ a + n ≤ i → st i = s.stack i := by
  unfold reverseSlots at h
  split_ifs at h with h1 h2 h3
  · cases h
    refine ⟨s.stack, rfl, fun i hi hi' => ?_, fun _ _ => rfl⟩
    rw [show 2 * a + n - 1 - i = i by omega]
  · cases h
    exact ⟨_, rfl, fun i hi hi' => if_pos ⟨hi, hi'⟩, fun i hi => if_neg (by omega)⟩

end Primitives

/-! ### Pushing a frame -/

/-- `s'` is `s` with a frame for `n` arguments pushed and `code_ptr` at `entry`. -/
structure Pushed (M : Machine) (s : State) (n isClosure : ℕ) (ra : Word) (entry : ℤ) (s' : State) :
    Prop where
  room : 2 ≤ s.top ∧ s.top < M.maxStack
  codePtr : s'.codePtr = entry
  fp : s'.fp = s.top - 3
  top : s'.top = s.top - 3
  stringCounter : s'.stringCounter = s.stringCounter
  stringsMap : s'.stringsMap = s.stringsMap
  heap : s'.heap = s.heap
  argSizes : s'.argSizes = toI32 n :: s.argSizes
  activations : s'.activations = ⟨s.top - 3, n, isClosure, ra, 0⟩ :: s.activations
  collections : s'.collections = s.collections
  collectedAt : s'.collectedAt = s.collectedAt
  savedTop : s'.stack (s.top - 2) = M.slotAddr (s.top + toU32 (n + isClosure))
  savedFp : s'.stack (s.top - 1) = M.slotAddr s.fp
  savedRa : s'.stack s.top = ra
  args : ∀ i, s.top < i → i ≤ s.top + n → s'.stack i = s.stack (2 * s.top + n + 1 - i)
  rest : ∀ i, i < s.top - 2 ∨ s.top + n < i → s'.stack i = s.stack i

theorem pushStackFrame_ok {M : Machine} {s s' : State} {n isClosure : ℕ} {ra : Word} {u : Unit}
    (h : pushStackFrame M n ra isClosure s = .ok u s') :
    Pushed M s n isClosure ra s.codePtr s' := by
  simp only [pushStackFrame, exec_bind_ok, exec_get_ok, exec_modify_ok] at h
  obtain ⟨_, _, rfl, _, _, ⟨rfl, rfl⟩, _, _, ht, _, s₁, hrev, _, s₂, h0, _, s₃, h1, _, s₄, h2, rfl⟩ := h
  cases ht
  have hrev : ∃ st, s₁ = { s with argSizes := toI32 n :: s.argSizes
                                  touched := max s.touched (s.top + toU32 (n + isClosure))
                                  stack := st } ∧
      (∀ i, s.top < i → i ≤ s.top + n → st i = s.stack (2 * s.top + n + 1 - i)) ∧
      ∀ i, i ≤ s.top ∨ s.top + n < i → st i = s.stack i := by
    split at hrev
    · obtain ⟨st, rfl, hin, hout⟩ := reverseSlots_ok hrev
      refine ⟨st, rfl, fun i hi hi' => ?_, fun i hi => ?_⟩
      · rw [hin i (by dsimp only; omega) (by dsimp only; omega)]
        dsimp only
        congr 1
        omega
      · exact hout i (by dsimp only; omega)
    · cases hrev
      refine ⟨s.stack, rfl, fun i hi hi' => ?_, fun _ _ => rfl⟩
      congr 1
      omega
  obtain ⟨st, rfl, hargs, hrest⟩ := hrev
  obtain ⟨rfl, hr0⟩ := writeSlot_ok h0
  obtain ⟨rfl, hr1⟩ := writeSlot_ok h1
  obtain ⟨rfl, hr2⟩ := writeSlot_ok h2
  dsimp only at hr0 hr1 hr2
  refine ⟨by omega, rfl, rfl, rfl, rfl, rfl, rfl, rfl, rfl, rfl, rfl, ?_, ?_, ?_, fun i hi hi' => ?_,
    fun i hi => ?_⟩
  · exact Function.update_self ..
  · dsimp only
    rw [Function.update_of_ne (by omega), Function.update_self]
  · dsimp only
    rw [Function.update_of_ne (by omega), Function.update_of_ne (by omega), Function.update_self]
  · dsimp only
    rw [Function.update_of_ne (by omega), Function.update_of_ne (by omega),
      Function.update_of_ne (by omega)]
    exact hargs i hi hi'
  · dsimp only
    rw [Function.update_of_ne (by omega), Function.update_of_ne (by omega),
      Function.update_of_ne (by omega)]
    exact hrest i (by omega)

/-! ### The instructions -/

section Instructions

variable {M : Machine} {E : Env M} {s s' : State} {ended : Bool}

theorem readFileByte_ok {α : Type} {r : Result α} {a : α} (h : readFileByte r s = .ok a s') :
    r = .ok a ∧ s' = s := by
  cases r with
  | ok b => cases h; exact ⟨rfl, rfl⟩
  | error e => cases h

theorem operand_ok {k a : ℕ} (h : operand M k s = .ok a s') :
    M.bf.code32 (s.codePtr + 1 + 4 * k) = .ok a ∧ s' = s := by
  simp only [operand, exec_bind_ok, exec_get_ok] at h
  obtain ⟨_, _, ⟨rfl, rfl⟩, h⟩ := h
  exact readFileByte_ok h

theorem consumeArgs1_ok {a : ℕ} (h : consumeArgs1 M s = .ok a s') :
    M.bf.code32 (s.codePtr + 1) = .ok a ∧ s' = { s with codePtr := s.codePtr + 5 } := by
  simp only [consumeArgs1, exec_bind_ok, exec_pure_ok] at h
  obtain ⟨_, _, ha, _, _, hadv, rfl, rfl⟩ := h
  obtain ⟨ha, rfl⟩ := operand_ok ha
  cases hadv
  exact ⟨by simpa using ha, rfl⟩

theorem consumeArgs2_ok {a : ℕ × ℕ} (h : consumeArgs2 M s = .ok a s') :
    M.bf.code32 (s.codePtr + 1) = .ok a.1 ∧ M.bf.code32 (s.codePtr + 1 + 4) = .ok a.2 ∧
      s' = { s with codePtr := s.codePtr + 9 } := by
  simp only [consumeArgs2, exec_bind_ok, exec_pure_ok] at h
  obtain ⟨_, _, ha, _, _, hb, _, _, hadv, rfl, rfl⟩ := h
  obtain ⟨ha, rfl⟩ := operand_ok ha
  obtain ⟨hb, rfl⟩ := operand_ok hb
  cases hadv
  exact ⟨by simpa using ha, by simpa using hb, rfl⟩

theorem consumeLowerBits0_ok {low : ℕ} (h : consumeLowerBits0 M s = .ok low s') :
    M.bf.lowBitsAt s.codePtr = .ok low ∧ s' = { s with codePtr := s.codePtr + 1 } := by
  simp only [consumeLowerBits0, exec_bind_ok, exec_get_ok, exec_pure_ok] at h
  obtain ⟨_, _, ⟨rfl, rfl⟩, c, _, hc, _, _, hadv, rfl, rfl⟩ := h
  obtain ⟨hc, rfl⟩ := readFileByte_ok hc
  cases hadv
  exact ⟨lowBitsAt_of_code hc, rfl⟩

theorem consumeLowerBits1_ok {a : ℕ × ℕ} (h : consumeLowerBits1 M s = .ok a s') :
    M.bf.lowBitsAt s.codePtr = .ok a.1 ∧ M.bf.code32 (s.codePtr + 1) = .ok a.2 ∧
      s' = { s with codePtr := s.codePtr + 5 } := by
  simp only [consumeLowerBits1, exec_bind_ok, exec_get_ok, exec_pure_ok] at h
  obtain ⟨_, _, ⟨rfl, rfl⟩, c, _, hc, a, _, ha, _, _, hadv, rfl, rfl⟩ := h
  obtain ⟨hc, rfl⟩ := readFileByte_ok hc
  obtain ⟨ha, rfl⟩ := operand_ok ha
  cases hadv
  exact ⟨lowBitsAt_of_code hc, by simpa using ha, rfl⟩

theorem go_ok {handler : Exec Unit} (h : (do handler; return false : Exec Bool) s = .ok ended s') :
    ended = false ∧ handler s = .ok () s' := by
  simp only [exec_bind_ok, exec_pure_ok] at h
  obtain ⟨_, _, h, rfl, rfl⟩ := h
  exact ⟨rfl, h⟩

/-- BEGIN and CBEGIN reserve the locals when the check passes. -/
theorem begin_ok {type : InstructionType} (ht : type = .begin ∨ type = .cbegin)
    (h : dispatch E type s = .ok ended s') :
    ended = false ∧ ∃ arg nLocals : ℕ, M.bf.code32 (s.codePtr + 1) = .ok arg ∧
      M.bf.code32 (s.codePtr + 1 + 4) = .ok nLocals ∧
      ((arg / 2 ^ 16 : ℕ) : ℤ) + nLocals ≤ s.top + 1 ∧
      s' = { s with codePtr := s.codePtr + 9, top := s.top - nLocals
                    activations := Activation.reserve nLocals s.activations } := by
  have hgo : (do callStackBegin M; return false : Exec Bool) s = .ok ended s' := by
    rcases ht with rfl | rfl <;> exact h
  obtain ⟨hover, hs⟩ := go_ok hgo
  simp only [callStackBegin, exec_bind_ok, exec_get_ok] at hs
  obtain ⟨⟨arg, nLocals⟩, _, hargs, _, _, ⟨rfl, rfl⟩, hs⟩ := hs
  obtain ⟨ha, hn, rfl⟩ := consumeArgs2_ok hargs
  refine ⟨hover, arg, nLocals, ha, hn, ?_⟩
  dsimp only at hs
  split at hs
  · simp only [exec_bind_ok, exec_throw_ok] at hs
    obtain ⟨_, _, _, hs⟩ := hs
    exact hs.elim
  · rename_i hroom
    cases hs
    exact ⟨by omega, rfl⟩

/-- CALL pushes a frame for its arguments and goes to its target. -/
theorem call_ok (h : dispatch E .call s = .ok ended s') :
    ended = false ∧ ∃ target n : ℕ, M.bf.code32 (s.codePtr + 1) = .ok target ∧
      M.bf.code32 (s.codePtr + 1 + 4) = .ok n ∧
      Pushed M s n 0 (M.codeAddr (s.codePtr + 9)) target s' := by
  obtain ⟨hover, hs⟩ := go_ok h
  simp only [callStackCall, exec_bind_ok, exec_get_ok] at hs
  obtain ⟨⟨target, n⟩, _, hargs, _, _, ⟨rfl, rfl⟩, _, s₁, hpush, hjump⟩ := hs
  obtain ⟨ht, hn, rfl⟩ := consumeArgs2_ok hargs
  have hp := pushStackFrame_ok hpush
  cases hjump
  exact ⟨hover, target, n, ht, hn, hp.room, rfl, hp.fp, hp.top, hp.stringCounter, hp.stringsMap,
    hp.heap, hp.argSizes, hp.activations, hp.collections, hp.collectedAt, hp.savedTop, hp.savedFp, hp.savedRa,
    hp.args, hp.rest⟩

theorem getObj_ok {a : Word} {o : Obj} (h : getObj a s = .ok o s') : s' = s ∧ s.heap a = some o := by
  cases ho : s.heap a with
  | none => simp only [getObj, ho] at h; cases h
  | some o' => simp only [getObj, ho] at h; cases h; exact ⟨rfl, rfl⟩

theorem Belem_ok {p i w : Word} (h : Belem p i s = .ok w s') :
    s' = s ∧ ∃ o, s.heap p = some o ∧ o.elem (unbox i) = some w := by
  obtain ⟨o, s₁, hg, hw⟩ := exec_bind_ok.mp h
  obtain ⟨rfl, ho⟩ := getObj_ok hg
  cases he : o.elem (unbox i) with
  | none => rw [he] at hw; cases hw
  | some w' => rw [he] at hw; cases hw; exact ⟨rfl, o, ho, he⟩

/-- CALLC does the same with the closure below the arguments, and goes where the first word of its
    contents says. -/
theorem callc_ok (h : dispatch E .callc s = .ok ended s') :
    ended = false ∧ ∃ (n : ℕ) (elem : Word), M.bf.code32 (s.codePtr + 1) = .ok n ∧
      (∃ o, s.heap (s.stack (s.top + 1 + n)) = some o ∧ o.elem 0 = some elem) ∧
      (0 ≤ s.top + 1 + n ∧ s.top + 1 + n < M.maxStack) ∧
      Pushed M s n 1 (M.codeAddr (s.codePtr + 5)) (unbox elem) s' := by
  obtain ⟨hover, hs⟩ := go_ok h
  simp only [closuresCall, exec_bind_ok, exec_get_ok] at hs
  obtain ⟨n, _, hargs, _, _, ⟨rfl, rfl⟩, closurePtr, s₁, hread, elem, s₂, helem, _, _, ⟨rfl, rfl⟩, _,
    s₃, hpush, hjump⟩ := hs
  obtain ⟨hn, rfl⟩ := consumeArgs1_ok hargs
  obtain ⟨rfl, rfl, hr⟩ := readOperand_ok hread
  obtain ⟨rfl, o, ho, helem⟩ := Belem_ok helem
  have hp := pushStackFrame_ok hpush
  cases hjump
  exact ⟨hover, n, elem, hn, ⟨o, ho, helem⟩, hr, hp.room, rfl, hp.fp, hp.top, hp.stringCounter,
    hp.stringsMap, hp.heap, hp.argSizes, hp.activations, hp.collections, hp.collectedAt, hp.savedTop, hp.savedFp,
    hp.savedRa, hp.args, hp.rest⟩

theorem slotPtr_ok {w : Word} {i : ℤ} (h : slotPtr M w s = .ok i s') :
    s' = s ∧ M.slotOf w = some i := by
  cases hj : M.slotOf w with
  | none => rw [slotPtr, hj] at h; cases h
  | some j => rw [slotPtr, hj] at h; cases h; exact ⟨rfl, rfl⟩

/-- What END leaves: the caller's registers from the header, and unless the run is over the result on
    top of the caller's operands. -/
structure Returned (M : Machine) (s : State) (ended : Bool) (s' : State) : Prop where
  savedTop : ∃ top, M.slotOf (s.stack (s.fp + 1)) = some top ∧ (ended = true → s'.top = top) ∧
    (ended = false → s'.top = top - 1 ∧ (0 ≤ top ∧ top < M.maxStack) ∧
      s'.stack = Function.update s.stack top (s.stack (s.top + 1)))
  savedFp : M.slotOf (s.stack (s.fp + 2)) = some s'.fp
  over_iff : ended = true ↔ s.stack (s.fp + 3) = 0
  codePtr : ended = false → s'.codePtr = M.codeOffset (s.stack (s.fp + 3))
  argSizes : s'.argSizes = s.argSizes.tail
  activations : s'.activations = s.activations.tail
  stringCounter : s'.stringCounter = s.stringCounter
  stringsMap : s'.stringsMap = s.stringsMap
  heap : s'.heap = s.heap
  collections : s'.collections = s.collections
  result : 0 ≤ s.top + 1 ∧ s.top + 1 < M.maxStack

/-- `pop_stack_frame` reads the three words of the header. -/
theorem popStackFrame_ok {ra : Word} (h : popStackFrame M s = .ok ra s') : ∃ fp top,
    M.slotOf (s.stack (s.fp + 2)) = some fp ∧ M.slotOf (s.stack (s.fp + 1)) = some top ∧
      ra = s.stack (s.fp + 3) ∧
      s' = { s with argSizes := s.argSizes.tail, activations := s.activations.tail
                    fp := fp, top := top } := by
  rw [popStackFrame, exec_get_bind] at h
  cases hargs : s.argSizes with
  | nil => rw [hargs] at h; cases h
  | cons n ns =>
    rw [hargs] at h
    simp only [exec_bind_ok, exec_modify_ok] at h
    obtain ⟨_, _, rfl, savedFp, s₁, h2, fp, s₂, hfpPtr, _, _, rfl, savedTop, s₃, h1, top, s₄, htopPtr,
      _, _, rfl, h3⟩ := h
    obtain ⟨rfl, rfl, -⟩ := readSlot_ok h2
    obtain ⟨rfl, hfp⟩ := slotPtr_ok hfpPtr
    obtain ⟨rfl, rfl, -⟩ := readSlot_ok h1
    obtain ⟨rfl, htop⟩ := slotPtr_ok htopPtr
    obtain ⟨rfl, rfl, -⟩ := readSlot_ok h3
    exact ⟨fp, top, hfp, htop, rfl, rfl⟩

theorem end_ok (h : dispatch E .end s = .ok ended s') : Returned M s ended s' := by
  simp only [dispatch, callStackEnd, exec_bind_ok] at h
  obtain ⟨_, s₁, hadv, val, s₂, hpeek, ra, s₃, hpop, h⟩ := h
  cases hadv
  obtain ⟨rfl, rfl, hr⟩ := peekOp_ok hpeek
  obtain ⟨fp, top, hfp, htop, rfl, rfl⟩ := popStackFrame_ok hpop
  split at h
  · rename_i hra
    obtain ⟨rfl, rfl⟩ := exec_pure_ok.mp h
    exact ⟨⟨top, htop, fun _ => rfl, fun h => by cases h⟩, hfp, ⟨fun _ => hra, fun _ => rfl⟩,
      fun h => (by cases h), rfl, rfl, rfl, rfl, rfl, rfl, hr⟩
  · rename_i hra
    simp only [exec_bind_ok, exec_modify_ok, exec_pure_ok] at h
    obtain ⟨_, _, rfl, _, _, hpush, rfl, rfl⟩ := h
    obtain ⟨rfl, hr'⟩ := pushOp_ok hpush
    exact ⟨⟨top, htop, fun h => (by cases h), fun _ => ⟨rfl, hr', rfl⟩⟩, hfp,
      ⟨fun h => (by cases h), fun h => absurd h hra⟩, fun _ => rfl, rfl, rfl, rfl, rfl, rfl, rfl, hr⟩

end Instructions

/-! ### The start -/

section Start

variable {M : Machine} {E : Env M}

/-- A string is allocated without moving the stack. -/
theorem Bstring_keeps {id : ℕ} {bytes : List UInt8} {s s' : State} {w : Word}
    (h : Bstring E id bytes s = .ok w s') : Track M s.top none s s.top s.codePtr s' :=
  ((Bstring_tracks E id bytes (Int.le_refl s.top)).of_ok ⟨Keeps.refl M s.top none s, rfl, rfl⟩ h).2

/-- The loop of the constructor leaves the registers of a run alone. -/
theorem poolLoop_registers {fuel i : ℕ} {s s' : State} {u : Unit}
    (h : poolLoop E fuel i s = .ok u s') :
    s'.fp = s.fp ∧ s'.argSizes = s.argSizes ∧ s'.activations = s.activations ∧
      s'.codePtr = s.codePtr := by
  induction fuel generalizing i s with
  | zero => cases h
  | succ fuel ih =>
    unfold poolLoop at h
    split at h
    · cases h
      exact ⟨rfl, rfl, rfl, rfl⟩
    · obtain ⟨_, s₁, hmap, h⟩ := exec_bind_ok.mp h
      cases hmap
      cases hstr : M.bf.cString (M.bf.stringPtr + i) with
      | error e =>
        rw [hstr] at h
        cases h
      | ok string =>
        rw [hstr] at h
        simp only [exec_bind_ok, exec_get_ok, exec_modify_ok] at h
        obtain ⟨bString, s₂, hstring, _, _, rfl, _, _, ⟨rfl, rfl⟩, _, s₃, hwrite, h⟩ := h
        obtain ⟨hfp, hsizes, hact, hpc⟩ := ih h
        obtain ⟨rfl, -⟩ := writeSlot_ok hwrite
        obtain ⟨hkeeps, -, hpc'⟩ := Bstring_keeps hstring
        exact ⟨hfp.trans hkeeps.fp, hsizes.trans hkeeps.argSizes, hact.trans hkeeps.activations,
          hpc.trans hpc'⟩

theorem frameStack_registers {s : State} {u : Unit} (h : frameStack E (emptyState E) = .ok u s) :
    s.fp = M.nullSlot ∧ s.argSizes = [] ∧ s.activations = [] ∧ s.codePtr = 0 := by
  obtain ⟨_, s₁, hloop, htop⟩ := exec_bind_ok.mp h
  cases htop
  exact poolLoop_registers hloop

end Start

end LamaSM
