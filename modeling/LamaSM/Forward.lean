import LamaSM.Interpret
import LamaSM.Instructions

/-! Running the interpreter forward: what an operation does in a state in which it succeeds.

    The rules are equations, so that the turn of an instruction with known operands is computed by
    rewriting with them one after the other. -/

namespace LamaSM
open Lib

section Slots

variable {M : Machine} {s : State} {i : ℤ}

theorem readSlot_eq (h : 0 ≤ i ∧ i < M.maxStack) : readSlot M i s = .ok (s.stack i) s := if_pos h

theorem writeSlot_eq (w : Word) (h : 0 ≤ i ∧ i < M.maxStack) :
    writeSlot M i w s = .ok () { s with stack := Function.update s.stack i w } := if_pos h

theorem peekOp_eq (h : 0 ≤ s.top + 1 ∧ s.top + 1 < M.maxStack) : peekOp M s =
    .ok (s.stack (s.top + 1)) { s with touched := max s.touched (s.top + 1) } := by
  show readSlot M (s.top + 1) { s with touched := max s.touched (s.top + 1) } = _
  rw [readSlot_eq h]

theorem pushOp_eq (w : Word) (h : 0 ≤ s.top ∧ s.top < M.maxStack) : pushOp M w s =
    .ok () { s with stack := Function.update s.stack s.top w, top := s.top - 1 } := by
  rw [pushOp, exec_get_bind, exec_bind_of_ok (writeSlot_eq w h)]
  rfl

theorem popOp_eq : popOp s =
    .ok () { s with top := s.top + 1, touched := max s.touched (s.top + 1) } := rfl

/-- An operand taken off the stack. -/
theorem peekOp_popOp {α : Type} {f : Word → Exec α} (h : 0 ≤ s.top + 1 ∧ s.top + 1 < M.maxStack) :
    (do
      let w ← peekOp M
      popOp
      f w) s =
      f (s.stack (s.top + 1))
        { s with top := s.top + 1, touched := max s.touched (s.top + 1) } := by
  rw [exec_bind_of_ok (peekOp_eq h), exec_bind_of_ok popOp_eq]
  congr 2
  exact max_eq_left (Int.le_max_right _ _)

/-- Two operands are popped, the upper one first. -/
theorem pop_two {f : Word → Word → Exec Unit} (htop : 0 ≤ s.top + 1 ∧ s.top + 2 < M.maxStack) :
    (do
      let b ← peekOp M
      popOp
      let a ← peekOp M
      popOp
      f b a) s =
      f (s.stack (s.top + 1)) (s.stack (s.top + 2))
        { s with top := s.top + 2, touched := max (max s.touched (s.top + 1)) (s.top + 2) } := by
  have hsum : s.top + 1 + 1 = s.top + 2 := by omega
  rw [peekOp_popOp (by omega), peekOp_popOp (by dsimp only; omega)]
  dsimp only
  rw [hsum]

theorem getObj_eq {a : Word} {o : Obj} (h : s.heap a = some o) : getObj a s = .ok o s := by
  rw [getObj, h]

end Slots

section Decoder

variable {M : Machine} {s : State}

theorem operand_eq {k w : ℕ} (h : M.bf.code32 (s.codePtr + 1 + 4 * k) = .ok w) :
    operand M k s = .ok w s := by
  rw [operand, exec_get_bind, h]
  rfl

theorem consumeArgs1_eq {w : ℕ} (h : M.bf.code32 (s.codePtr + 1) = .ok w) :
    consumeArgs1 M s = .ok w { s with codePtr := s.codePtr + 5 } := by
  rw [consumeArgs1, exec_bind_of_ok (operand_eq (k := 0) (by simpa using h))]
  rfl

theorem consumeArgs2_eq {v w : ℕ} (hv : M.bf.code32 (s.codePtr + 1) = .ok v)
    (hw : M.bf.code32 (s.codePtr + 1 + 4) = .ok w) :
    consumeArgs2 M s = .ok (v, w) { s with codePtr := s.codePtr + 9 } := by
  rw [consumeArgs2, exec_bind_of_ok (operand_eq (k := 0) (by simpa using hv)),
    exec_bind_of_ok (operand_eq (k := 1) (by simpa using hw))]
  rfl

theorem consumeLowerBits0_eq {b : ℕ} (h : M.bf.code s.codePtr = .ok b) :
    consumeLowerBits0 M s = .ok (lowBits b) { s with codePtr := s.codePtr + 1 } := by
  rw [consumeLowerBits0, exec_get_bind, h]
  rfl

theorem consumeLowerBits1_eq {b w : ℕ} (h : M.bf.code s.codePtr = .ok b)
    (hw : M.bf.code32 (s.codePtr + 1) = .ok w) :
    consumeLowerBits1 M s = .ok (lowBits b, w) { s with codePtr := s.codePtr + 5 } := by
  rw [consumeLowerBits1, exec_get_bind, h]
  exact exec_bind_of_ok (operand_eq (k := 0) (by simpa using hw))

/-- The captured variables as they were laid out. -/
theorem consumeDesignations_eq : ∀ {cs : List (UInt8 × UInt32)} {s : State},
    Placed M.bf s.codePtr (cs.flatMap Instruction.captureBytes) →
      consumeDesignations M cs.length s =
        .ok (cs.map fun c => ⟨MemVar.ofByte c.1.toNat, c.2.toNat⟩)
          { s with codePtr := s.codePtr + 5 * cs.length }
  | [], s, _ => by
    rw [show s.codePtr + 5 * (([] : List (UInt8 × UInt32)).length : ℤ) = s.codePtr by simp]
    rfl
  | c :: cs, s, h => by
    rw [List.flatMap_cons] at h
    have hrest := (placed_append.mp h).2
    rw [List.length_cons, consumeDesignations, exec_get_bind, h.designation]
    have hds := consumeDesignations_eq (s := { s with codePtr := s.codePtr + 5 }) hrest
    refine (exec_bind_of_ok hds).trans ?_
    rw [show s.codePtr + 5 * ((cs.length + 1 : ℕ) : ℤ) = s.codePtr + 5 + 5 * cs.length by omega]
    rfl

/-! A whole instruction at `code_ptr`. -/

variable {i : Instruction} {v w : UInt32}

theorem at_of_placed (h : Placed M.bf s.codePtr i.encode) : At M s i.type := Instruction.typeAt h

theorem code32_of_placed (hargs : i.args = [w]) (h : Placed M.bf s.codePtr i.encode) :
    M.bf.code32 (s.codePtr + 1) = .ok w.toNat := by
  have hk := Instruction.operand h (k := 0) (w := w) (by rw [hargs]; rfl)
  simpa using hk

theorem consumeArgs1_of_placed (hargs : i.args = [w]) (h : Placed M.bf s.codePtr i.encode) :
    consumeArgs1 M s = .ok w.toNat { s with codePtr := s.codePtr + 5 } :=
  consumeArgs1_eq (code32_of_placed hargs h)

theorem consumeArgs2_of_placed (hargs : i.args = [v, w]) (h : Placed M.bf s.codePtr i.encode) :
    consumeArgs2 M s = .ok (v.toNat, w.toNat) { s with codePtr := s.codePtr + 9 } := by
  have hv := Instruction.operand h (k := 0) (w := v) (by rw [hargs]; rfl)
  have hw := Instruction.operand h (k := 1) (w := w) (by rw [hargs]; rfl)
  exact consumeArgs2_eq (by simpa using hv) (by simpa using hw)

end Decoder

section Turns

variable {M : Machine} (E : Env M) {s : State} {type : InstructionType}

/-- A turn at a known instruction is its handler. -/
theorem turn_eq (h : At M s type) : turn E s = dispatch E type s :=
  exec_bind_of_ok (nextInstruction_ok.mpr ⟨h, rfl⟩)

/-- A turn of an instruction whose handler is known to return. -/
theorem turn_of_handler {handler : Exec Unit} {s' : State} (hat : At M s type)
    (hd : dispatch E type = (do handler; return false)) (h : handler s = .ok () s') :
    turn E s = .ok false s' := by
  rw [turn_eq E hat, hd, exec_bind_of_ok h]
  rfl

theorem turn_of_throw {handler : Exec Unit} {s' : State} {e : Fault}
    (hat : At M s type) (hd : dispatch E type = (do handler; return false))
    (h : handler s = .error e s') : turn E s = .error e s' := by
  rw [turn_eq E hat, hd, exec_bind_of_error h]

/-- A step of an instruction is what its handler does. -/
theorem step_iff {handler : Exec Unit} {s' : State} (hat : At M s type)
    (hd : dispatch E type = (do handler; return false)) :
    Step E s s' ↔ handler s = .ok () s' := by
  rw [Step, turn_eq E hat, hd, exec_bind_ok]
  constructor
  · rintro ⟨⟨⟩, u, hu, hs'⟩
    rw [exec_pure_ok] at hs'
    exact hs'.2 ▸ hu
  · intro h
    exact ⟨(), s', h, rfl⟩

end Turns

/-! ### Values left on the stack -/

/-- What is left of `s` when a value has been pushed: `code_ptr` and the top move, the slots above the
    top are the old ones. -/
structure Evaluated (s : State) (length : ℕ) (w : Word) (s' : State) : Prop where
  state : ∃ stack touched, s' = { s with
    codePtr := s.codePtr + length, top := s.top - 1, stack := stack, touched := touched }
  value : s'.stack s.top = w
  below : ∀ i, s.top < i → s'.stack i = s.stack i

/-- The state without its uppermost operands. -/
def State.pop (s : State) (n : ℕ) : State := { s with top := s.top + n }

end LamaSM
