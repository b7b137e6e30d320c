import LamaSM.Forward
import LamaSM.Boxing

/-! Integer expressions and the code that evaluates them.

    `Expr` is an expression tree with its value by the rules of the language, on integers of 63 bits.
    Its postfix code pushes the box of that value and leaves everything below alone, or throws where
    the value is undefined. -/

namespace LamaSM
open Lib

/-! ### Trees and their values -/

/-- A byte that is no operator. -/
def BinOp.isOther : BinOp → Bool
  | .other _ => true
  | _ => false

inductive Expr
  | lit (n : ℕ) (small : n < 2 ^ 31)
  | bin (op : BinOp) (known : op.isOther = false) (l r : Expr)

/-- An operator on 63-bit integers; none when the divisor is 0. -/
def BinOp.apply (op : BinOp) (a b : ℤ) : Option ℤ :=
  match op with
  | .plus => some (reduce63 (a + b))
  | .minus => some (reduce63 (a - b))
  | .mul => some (reduce63 (a * b))
  | .div => if b = 0 then none else some (reduce63 (a.tdiv b))
  | .mod => if b = 0 then none else some (reduce63 (a.tmod b))
  | .lt => some (if a < b then 1 else 0)
  | .le => some (if a ≤ b then 1 else 0)
  | .gt => some (if a > b then 1 else 0)
  | .ge => some (if a ≥ b then 1 else 0)
  | .eq => some (if a = b then 1 else 0)
  | .neq => some (if a ≠ b then 1 else 0)
  | .and => some (if a ≠ 0 ∧ b ≠ 0 then 1 else 0)
  | .or => some (if a ≠ 0 ∨ b ≠ 0 then 1 else 0)
  | .other _ => none

namespace Expr

/-- The value of a tree, evaluated from left to right, or the operator that has no value. -/
def eval : Expr → Except BinOp ℤ
  | lit n _ => .ok n
  | bin op _ l r => do
    let a ← l.eval
    let b ← r.eval
    match op.apply a b with
    | some v => .ok v
    | none => .error op

/-- The operand words the code of a tree needs. -/
def depth : Expr → ℕ
  | lit _ _ => 1
  | bin _ _ l r => max l.depth (r.depth + 1)

end Expr

/-! ### Code -/

/-- The low bits of an operator. -/
def BinOp.toByte : BinOp → UInt8
  | .plus => 1 | .minus => 2 | .mul => 3 | .div => 4 | .mod => 5 | .lt => 6 | .le => 7 | .gt => 8
  | .ge => 9 | .eq => 10 | .neq => 11 | .and => 12 | .or => 13 | .other _ => 15

/-- CONST n -/
def constInstruction (n : UInt32) : Instruction := ⟨0x10, [n], [], opcode_known, one_operand, no_capture⟩

theorem getInstructionType_toByte (op : BinOp) : getInstructionType op.toByte.toNat = .binop := by
  cases op
  case other => exact (show getInstructionType (15 : UInt8).toNat = .binop from rfl)
  all_goals rfl

/-- BINOP op -/
def binopInstruction (op : BinOp) : Instruction where
  opcode := op.toByte
  args := []
  captures := []
  known := by rw [getInstructionType_toByte]; rfl
  args_length := by rw [getInstructionType_toByte]; rfl
  captures_length := by rw [getInstructionType_toByte]; rfl

theorem type_constInstruction (n : UInt32) : (constInstruction n).type = .const :=
  (show getInstructionType (0x10 : UInt8).toNat = .const from rfl)

theorem type_binopInstruction (op : BinOp) : (binopInstruction op).type = .binop :=
  getInstructionType_toByte op

/-- The postfix code of a tree. -/
def Expr.code : Expr → List Instruction
  | lit n _ => [constInstruction (UInt32.ofNat n)]
  | bin op _ l r => l.code ++ r.code ++ [binopInstruction op]

/-- Its bytes. -/
def Expr.bytes (e : Expr) : List UInt8 := e.code.flatMap Instruction.encode

theorem Expr.bytes_bin (op : BinOp) (known : op.isOther = false) (l r : Expr) :
    (Expr.bin op known l r).bytes = l.bytes ++ (r.bytes ++ (binopInstruction op).encode) := by
  simp [Expr.bytes, Expr.code]

theorem Expr.bytes_lit (n : ℕ) (small : n < 2 ^ 31) :
    (Expr.lit n small).bytes = (constInstruction (UInt32.ofNat n)).encode := by
  simp [Expr.bytes, Expr.code]

theorem Expr.length_bytes_bin (op : BinOp) (known : op.isOther = false) (l r : Expr) :
    (Expr.bin op known l r).bytes.length = l.bytes.length + r.bytes.length + 1 := by
  rw [bytes_bin, List.length_append, List.length_append, Instruction.length_encode, Nat.add_assoc]
  rfl

theorem Expr.length_bytes_lit (n : ℕ) (small : n < 2 ^ 31) : (Expr.lit n small).bytes.length = 5 := by
  rw [bytes_lit, Instruction.length_encode]
  rfl

section Eval

variable {op op' : BinOp} {known : op.isOther = false} {l r : Expr}

/-- A node without a value below it has none; the left operand is evaluated first. -/
theorem Expr.eval_left (hl : l.eval = .error op') : (Expr.bin op known l r).eval = .error op' := by
  rw [eval, hl]
  rfl

theorem Expr.eval_right {a : ℤ} (hl : l.eval = .ok a) (hr : r.eval = .error op') :
    (Expr.bin op known l r).eval = .error op' := by
  rw [eval, hl, hr]
  rfl

theorem Expr.eval_bin {a b : ℤ} (hl : l.eval = .ok a) (hr : r.eval = .ok b) :
    (Expr.bin op known l r).eval = match op.apply a b with
      | some v => .ok v
      | none => .error op := by
  rw [eval, hl, hr]
  rfl

end Eval

theorem Expr.one_le_depth (e : Expr) : 1 ≤ e.depth := by
  induction e with
  | lit => exact Nat.le_refl 1
  | bin op known l r ihl _ => exact Nat.le_trans ihl (Nat.le_max_left _ _)

theorem ofByte_toByte {op : BinOp} (h : op.isOther = false) :
    BinOp.ofByte (lowBits op.toByte.toNat) = op := by
  cases op
  case other => cases h
  all_goals rfl

/-! ### Values -/

theorem fits63_ite (p : Prop) [Decidable p] : Fits63 (if p then 1 else 0) := by
  unfold Fits63
  split <;> decide

theorem BinOp.apply_fits {op : BinOp} {a b v : ℤ} (h : op.apply a b = some v) : Fits63 v := by
  cases op
  case div | mod =>
    simp only [BinOp.apply] at h
    split at h
    · cases h
    · cases h
      exact fits63_reduce63 _
  case other => cases h
  case plus | minus | mul => cases h; exact fits63_reduce63 _
  all_goals
    cases h
    exact fits63_ite _

theorem Expr.eval_fits : ∀ {e : Expr} {v : ℤ}, e.eval = .ok v → Fits63 v
  | lit n small, v, h => by
    cases h
    unfold Fits63
    omega
  | bin op known l r, v, h => by
    simp only [eval, except_bind_ok] at h
    obtain ⟨a, -, b, -, h⟩ := h
    split at h
    · rename_i w hw
      cases h
      exact BinOp.apply_fits hw
    · cases h

/-- The machine computes the same value, up to the bits a box forgets. -/
theorem boxInt_binOpMap {op : BinOp} {a b v : ℤ} (h : op.apply a b = some v) :
    boxInt (binOpMap op a b) = boxInt v := by
  have htruth : ∀ (p : Prop) [Decidable p], ofBool p = if p then 1 else 0 := fun p _ => by
    unfold ofBool
    by_cases hp : p <;> simp [hp]
  cases op
  case other => cases h
  case plus | minus | mul =>
    cases h
    exact (boxInt_reduce63 _).symm
  case div | mod =>
    simp only [BinOp.apply] at h
    split at h
    · cases h
    · cases h
      exact (boxInt_reduce63 _).symm
  all_goals
    cases h
    exact congrArg boxInt (htruth _)

/-- On boxed words `==` and `!=` compare as on the integers. -/
theorem toInt_boxInt_inj {a b : ℤ} (ha : Fits63 a) (hb : Fits63 b) :
    (boxInt a).toInt = (boxInt b).toInt ↔ a = b := by
  constructor
  · intro h
    have hbox : boxInt a = boxInt b := BitVec.eq_of_toInt_eq h
    rw [← unbox_boxInt_of_fits ha, hbox, unbox_boxInt_of_fits hb]
  · intro h
    rw [h]

/-! ### Turns -/

/-- The exception of a division by 0. -/
def divisionFault (op : BinOp) : Fault :=
  .runtimeError (if op = .div then "Second argument of DIV is zero" else "Second argument of MOD is zero")

section Turns

variable {M : Machine} (E : Env M) {s : State}

/-- CONST pushes the box of its operand. -/
theorem const_turn {n : UInt32} (h : Placed M.bf s.codePtr (constInstruction n).encode)
    (htop : 0 ≤ s.top ∧ s.top < M.maxStack) :
    turn E s = .ok false { s with
      codePtr := s.codePtr + 5, top := s.top - 1
      stack := Function.update s.stack s.top (boxInt n.toNat) } := by
  have hn : M.bf.code32 (s.codePtr + 1) = .ok n.toNat := by
    have hk := Instruction.operand h (k := 0) (w := n) rfl
    simpa using hk
  have hat : At M s .const := by
    have ht := Instruction.typeAt h
    rwa [type_constInstruction] at ht
  refine turn_of_handler E hat rfl ?_
  rw [stackConst, exec_bind_of_ok (consumeArgs1_eq hn)]
  exact pushOp_eq _ htop

/-- The result replaces the two operands. -/
theorem push_replaced {w : Word} (htop : 0 ≤ s.top + 1 ∧ s.top + 2 < M.maxStack) (touched : ℤ) :
    pushOp M w { s with top := s.top + 2, touched := touched } = .ok () { s with
      top := s.top + 1, touched := touched, stack := Function.update s.stack (s.top + 2) w } := by
  rw [pushOp_eq w (by dsimp only; omega)]
  dsimp only
  rw [show s.top + 2 - 1 = s.top + 1 by omega]

theorem boxedUnboxed_eq {op : BinOp} {a b : ℤ} (ha : Fits63 a) (hb : Fits63 b)
    (hl : s.stack (s.top + 2) = boxInt a) (hr : s.stack (s.top + 1) = boxInt b)
    (htop : 0 ≤ s.top + 1 ∧ s.top + 2 < M.maxStack) :
    boxedUnboxed M op s = if (op = .div ∨ op = .mod) ∧ b = 0 then
      .error (divisionFault op)
        { s with top := s.top + 2, touched := max (max s.touched (s.top + 1)) (s.top + 2) }
      else .ok () { s with
        top := s.top + 1, stack := Function.update s.stack (s.top + 2) (boxInt (binOpMap op a b))
        touched := max (max s.touched (s.top + 1)) (s.top + 2) } := by
  rw [boxedUnboxed, pop_two htop, hl, hr, unbox_boxInt_of_fits ha, unbox_boxInt_of_fits hb]
  split
  · rfl
  · exact push_replaced htop _

/-- `==` and `!=` compare the words as they are. -/
theorem boxed_eq {op : BinOp} (htop : 0 ≤ s.top + 1 ∧ s.top + 2 < M.maxStack) :
    boxed M op s = .ok () { s with
      top := s.top + 1
      stack := Function.update s.stack (s.top + 2) (boxInt
        (binOpMap op (s.stack (s.top + 2)).toInt (s.stack (s.top + 1)).toInt))
      touched := max (max s.touched (s.top + 1)) (s.top + 2) } := by
  rw [boxed, pop_two htop]
  exact push_replaced htop _

theorem boxed_eq_ints {op : BinOp} {a b : ℤ} (hop : op = .eq ∨ op = .neq) (ha : Fits63 a)
    (hb : Fits63 b) (hl : s.stack (s.top + 2) = boxInt a) (hr : s.stack (s.top + 1) = boxInt b)
    (htop : 0 ≤ s.top + 1 ∧ s.top + 2 < M.maxStack) :
    boxed M op s = .ok () { s with
        top := s.top + 1, stack := Function.update s.stack (s.top + 2) (boxInt (binOpMap op a b))
        touched := max (max s.touched (s.top + 1)) (s.top + 2) } := by
  have hvalue : binOpMap op (boxInt a).toInt (boxInt b).toInt = binOpMap op a b := by
    have hinj := toInt_boxInt_inj ha hb
    rcases hop with rfl | rfl <;> simp only [binOpMap, ne_eq, hinj]
  rw [boxed_eq htop, hl, hr, hvalue]

theorem at_binop {op : BinOp} (h : Placed M.bf s.codePtr (binopInstruction op).encode) :
    At M s .binop := by
  have ht := Instruction.typeAt h
  rwa [type_binopInstruction] at ht

/-- `binop_interpeter` takes the byte of the operator and goes on with the operands. -/
theorem binopInterpreter_eq {op : BinOp} (known : op.isOther = false)
    (h : Placed M.bf s.codePtr (binopInstruction op).encode) :
    binopInterpreter M s =
      (if op = .eq ∨ op = .neq then boxed M op else boxedUnboxed M op)
        { s with codePtr := s.codePtr + 1 } := by
  have hcode : M.bf.code s.codePtr = .ok op.toByte.toNat := h.1
  rw [binopInterpreter, exec_bind_of_ok (consumeLowerBits0_eq hcode), ofByte_toByte known]
  cases op
  case other => cases known
  all_goals rfl

/-- BINOP replaces two integers by the box of their value, or throws where there is none. -/
theorem binop_turn {op : BinOp} {a b : ℤ} (known : op.isOther = false)
    (h : Placed M.bf s.codePtr (binopInstruction op).encode)
    (ha : Fits63 a) (hb : Fits63 b) (hl : s.stack (s.top + 2) = boxInt a)
    (hr : s.stack (s.top + 1) = boxInt b) (htop : 0 ≤ s.top + 1 ∧ s.top + 2 < M.maxStack) :
    (∀ v, op.apply a b = some v → turn E s = .ok false { s with
      codePtr := s.codePtr + 1, top := s.top + 1
      stack := Function.update s.stack (s.top + 2) (boxInt v)
      touched := max (max s.touched (s.top + 1)) (s.top + 2) }) ∧
    (op.apply a b = none → ∃ u, turn E s = .error (divisionFault op) u) := by
  have hat := at_binop h
  have hconsumed := binopInterpreter_eq known h
  have hunboxed : boxedUnboxed M op { s with codePtr := s.codePtr + 1 } = _ :=
    boxedUnboxed_eq ha hb hl hr htop
  have hdiv : (op = .div ∨ op = .mod) ∧ b = 0 ↔ op.apply a b = none := by
    cases op
    case other => cases known
    case div | mod =>
      rw [BinOp.apply]
      split_ifs with hb0 <;> simp [hb0]
    all_goals simp [BinOp.apply]
  constructor
  · intro v hv
    refine turn_of_handler E hat rfl (hconsumed.trans ?_)
    rw [if_neg (fun hc => by rw [hdiv.mp hc] at hv; cases hv), boxInt_binOpMap hv] at hunboxed
    cases op
    case other => cases known
    case eq =>
      have hboxed := boxed_eq_ints (M := M) (s := { s with codePtr := s.codePtr + 1 }) (Or.inl rfl) ha hb hl
        hr htop
      rwa [boxInt_binOpMap hv] at hboxed
    case neq =>
      have hboxed := boxed_eq_ints (M := M) (s := { s with codePtr := s.codePtr + 1 }) (Or.inr rfl) ha hb hl
        hr htop
      rwa [boxInt_binOpMap hv] at hboxed
    all_goals exact hunboxed
  · intro hnone
    have hop := hdiv.mpr hnone
    rw [if_pos hop] at hunboxed
    rcases hop.1 with rfl | rfl
    · exact ⟨_, turn_of_throw E hat rfl (hconsumed.trans hunboxed)⟩
    · exact ⟨_, turn_of_throw E hat rfl (hconsumed.trans hunboxed)⟩

end Turns

/-! ### Runs -/

section Runs

variable {M : Machine} (E : Env M)

/-- The instruction lies in the code of `length` bytes at `start`. -/
def InCode (start : ℤ) (length : ℕ) (s : State) : Prop :=
  start ≤ s.codePtr ∧ s.codePtr < start + length

/-- What running code of `length` bytes from `s` comes to: the value is pushed and the code left, or
    a turn throws. -/
def Outcome (s : State) (length : ℕ) : Except BinOp ℤ → Prop
  | .ok v => ∃ s', Run (Step E) (InCode s.codePtr length) s s' ∧ Evaluated s length (boxInt v) s'
  | .error op => ∃ s' u, Run (Step E) (InCode s.codePtr length) s s' ∧
      InCode s.codePtr length s' ∧ turn E s' = .error (divisionFault op) u

theorem InCode.mono {start start' : ℤ} {length length' : ℕ} {s : State} (hstart : start ≤ start')
    (hend : start' + length' ≤ start + length) (h : InCode start' length' s) :
    InCode start length s :=
  ⟨le_trans hstart h.1, lt_of_lt_of_le h.2 hend⟩

theorem Evaluated.codePtr {s s' : State} {length : ℕ} {w : Word} (h : Evaluated s length w s') :
    s'.codePtr = s.codePtr + length := by
  obtain ⟨stack, touched, rfl⟩ := h.state
  rfl

theorem Evaluated.top {s s' : State} {length : ℕ} {w : Word} (h : Evaluated s length w s') :
    s'.top = s.top - 1 := by
  obtain ⟨stack, touched, rfl⟩ := h.state
  rfl

/-- Code that comes after evaluated code fails as it would alone. -/
theorem Outcome.throws_after {s s₁ : State} {start : ℤ} {length n : ℕ} {op : BinOp}
    (hrun : Run (Step E) (InCode start length) s s₁) (hstart : start ≤ s₁.codePtr)
    (hend : s₁.codePtr + n ≤ start + length) (h : Outcome E s₁ n (.error op)) :
    ∃ s' u, Run (Step E) (InCode start length) s s' ∧ InCode start length s' ∧
      turn E s' = .error (divisionFault op) u := by
  obtain ⟨s', u, hrun', hinside, hthrow⟩ := h
  have hmono : ∀ t, InCode s₁.codePtr n t → InCode start length t :=
    fun t ht => ht.mono hstart hend
  exact ⟨s', u, hrun.trans (hrun'.mono hmono), hmono _ hinside, hthrow⟩

/-- The operator of a node finds the values of its operands and replaces them by its own. -/
theorem binop_outcome {s s₁ s₂ : State} {op : BinOp} {a b : ℤ} {n m : ℕ}
    (known : op.isOther = false) (ha : Fits63 a) (hb : Fits63 b)
    (h₁ : Evaluated s n (boxInt a) s₁) (h₂ : Evaluated s₁ m (boxInt b) s₂)
    (h : Placed M.bf s₂.codePtr (binopInstruction op).encode)
    (htop : 1 ≤ s.top ∧ s.top < M.maxStack) :
    (∀ v, op.apply a b = some v →
      ∃ s', Step E s₂ s' ∧ Evaluated s (n + m + 1) (boxInt v) s') ∧
    (op.apply a b = none → ∃ u, turn E s₂ = .error (divisionFault op) u) := by
  have hone : s₂.top + 1 = s.top - 1 := by rw [h₂.top, h₁.top]; omega
  have htwo : s₂.top + 2 = s.top := by rw [h₂.top, h₁.top]; omega
  have hr : s₂.stack (s₂.top + 1) = boxInt b := by
    rw [hone, ← h₁.top]
    exact h₂.value
  have hl : s₂.stack (s₂.top + 2) = boxInt a := by
    rw [htwo, h₂.below _ (by rw [h₁.top]; omega)]
    exact h₁.value
  obtain ⟨hvalue, hthrow⟩ := binop_turn E known h ha hb hl hr (by omega)
  refine ⟨fun v hv => ⟨_, hvalue v hv, ?_⟩, hthrow⟩
  have hcode : s₂.codePtr + 1 = s.codePtr + (n + m + 1 : ℕ) := by
    rw [h₂.codePtr, h₁.codePtr]
    omega
  constructor
  · rw [hcode, hone]
    obtain ⟨stack₁, touched₁, rfl⟩ := h₁.state
    obtain ⟨stack₂, touched₂, rfl⟩ := h₂.state
    exact ⟨_, _, rfl⟩
  · rw [htwo]
    exact Function.update_self ..
  · intro i hi
    rw [htwo]
    dsimp only
    rw [Function.update_of_ne (by omega), h₂.below i (by rw [h₁.top]; omega), h₁.below i hi]

/-- The postfix code of an expression, run from any state with enough stack, leaves the stack above
    `__gc_stack_top` and all else as they are and pushes the box of the value of the expression. Where
    a division by 0 comes first in left-to-right evaluation, it throws there. -/
theorem expression_evaluated (e : Expr) (s : State) (h : Placed M.bf s.codePtr e.bytes)
    (hdepth : e.depth ≤ s.top + 1) (htop : s.top < M.maxStack) :
    Outcome E s e.bytes.length e.eval := by
  induction e generalizing s with
  | lit n small =>
    rw [Expr.bytes_lit] at h
    simp only [Expr.depth] at hdepth
    have hturn := const_turn E h ⟨by omega, htop⟩
    rw [UInt32.toNat_ofNat_of_lt' (show n < 2 ^ 32 by omega)] at hturn
    rw [Expr.length_bytes_lit, Expr.eval]
    refine ⟨_, Run.single ⟨le_refl _, by omega⟩ hturn, ⟨_, _, rfl⟩, Function.update_self .., ?_⟩
    intro i hi
    exact Function.update_of_ne (by omega) ..
  | bin op known l r ihl ihr =>
    rw [Expr.bytes_bin, placed_append, placed_append] at h
    obtain ⟨hleft, hright, hop⟩ := h
    simp only [Expr.depth] at hdepth
    have hpos := r.one_le_depth
    have hrest := ihl s hleft (by omega) htop
    rw [Expr.length_bytes_bin]
    cases hl : l.eval with
    | error op' =>
      rw [hl] at hrest
      rw [Expr.eval_left hl]
      exact hrest.throws_after E (Run.refl s) (le_refl _) (by omega)
    | ok a =>
      rw [hl] at hrest
      obtain ⟨s₁, hrun₁, h₁⟩ := hrest
      rw [← h₁.codePtr] at hright hop
      have hrest := ihr s₁ hright (by rw [h₁.top]; omega) (by rw [h₁.top]; omega)
      have hin₁ : ∀ t, InCode s.codePtr l.bytes.length t →
          InCode s.codePtr (l.bytes.length + r.bytes.length + 1) t :=
        fun t ht => ht.mono (le_refl _) (by omega)
      have hpast := h₁.codePtr
      cases hr : r.eval with
      | error op' =>
        rw [hr] at hrest
        rw [Expr.eval_right hl hr]
        exact hrest.throws_after E (hrun₁.mono hin₁) (by omega) (by omega)
      | ok b =>
        rw [hr] at hrest
        obtain ⟨s₂, hrun₂, h₂⟩ := hrest
        have hin₂ : ∀ t, InCode s₁.codePtr r.bytes.length t →
            InCode s.codePtr (l.bytes.length + r.bytes.length + 1) t :=
          fun t ht => ht.mono (by omega) (by omega)
        have hrun := (hrun₁.mono hin₁).trans (hrun₂.mono hin₂)
        rw [← h₂.codePtr] at hop
        have hlast : InCode s.codePtr (l.bytes.length + r.bytes.length + 1) s₂ := by
          have hpast₂ := h₂.codePtr
          exact ⟨by omega, by omega⟩
        obtain ⟨hvalue, hthrow⟩ := binop_outcome E known (Expr.eval_fits hl) (Expr.eval_fits hr) h₁ h₂
          hop (by omega)
        rw [Expr.eval_bin hl hr]
        cases happly : op.apply a b with
        | some v =>
          obtain ⟨s', hstep, h'⟩ := hvalue v happly
          exact ⟨s', hrun.tail hlast hstep, h'⟩
        | none =>
          obtain ⟨u, hu⟩ := hthrow happly
          exact ⟨s₂, u, hrun, hlast, hu⟩

end Runs

/-- `2 - 5` -/
def differenceExpr : Expr := .bin .minus rfl (.lit 2 (by decide)) (.lit 5 (by decide))

/-- Its code alone. -/
def differenceFile : Bytefile := .ofCode [0x10, 2, 0, 0, 0, 0x10, 5, 0, 0, 0, 2]

def differenceMachine : Machine := Machine.layout differenceFile 16 (by decide) (by decide)

def differenceEnv : Env differenceMachine := Env.bump differenceMachine fun _ => 0

/-- Two free slots are enough. -/
theorem expression_evaluated_differenceExpr :
    Outcome differenceEnv { emptyState differenceEnv with top := 1 } 11 (.ok (-3)) :=
  expression_evaluated differenceEnv differenceExpr _
    (by simp [differenceExpr, Expr.bytes, Expr.code, Instruction.encode, operandBytes,
      constInstruction, binopInstruction, BinOp.toByte, Placed]; decide) (by decide) (by decide)

end LamaSM
