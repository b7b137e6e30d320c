import LamaSM.Reading

/-! Instructions as a compiler lays them out, and what the verifier's decoder makes of them.

    An `Instruction` is an opcode byte with its operand words and, for a CLOSURE, the captured
    variables; its fields say that the numbers of both are right, so that only whole instructions can
    be built. `Placed` says that given bytes lie in the code from an offset on. -/

namespace LamaSM
open Lib

/-- A byte that is no opcode. -/
def InstructionType.isOther : InstructionType → Bool
  | .other _ => true
  | _ => false

/-- The bytes of a 32-bit word, little endian. -/
def operandBytes (w : UInt32) : List UInt8 :=
  [UInt8.ofNat w.toNat, UInt8.ofNat (w.toNat / 2 ^ 8), UInt8.ofNat (w.toNat / 2 ^ 16),
    UInt8.ofNat (w.toNat / 2 ^ 24)]

/-- A whole instruction. -/
structure Instruction where
  opcode : UInt8
  args : List UInt32
  captures : List (UInt8 × UInt32)
  known : (getInstructionType opcode.toNat).isOther = false
  args_length : 1 + 4 * args.length = fixedLength (getInstructionType opcode.toNat)
  captures_length : captures.length =
    if getInstructionType opcode.toNat = .closure then (args.getD 1 0).toNat else 0
  deriving DecidableEq

/-- The conditions on an instruction without captured variables, as they evaluate for a known opcode
    with none, one or two operands. -/
theorem opcode_known : false = false := rfl
theorem no_operand : 1 + 4 * 0 = 1 := rfl
theorem one_operand : 1 + 4 * 1 = 5 := rfl
theorem two_operands : 1 + 4 * 2 = 9 := rfl
theorem no_capture : 0 = 0 := rfl

namespace Instruction

def type (i : Instruction) : InstructionType := getInstructionType i.opcode.toNat

/-- The number of its bytes. -/
def length (i : Instruction) : ℕ := 1 + 4 * i.args.length + 5 * i.captures.length

/-- The bytes of a captured variable. -/
def captureBytes (c : UInt8 × UInt32) : List UInt8 := c.1 :: operandBytes c.2

/-- The instruction as it lies in the code. -/
def encode (i : Instruction) : List UInt8 :=
  i.opcode :: (i.args.flatMap operandBytes ++ i.captures.flatMap captureBytes)

theorem length_operands (args : List UInt32) : (args.flatMap operandBytes).length = 4 * args.length := by
  induction args with
  | nil => rfl
  | cons a args ih =>
    rw [List.flatMap_cons, List.length_append, ih, List.length_cons]
    simp only [operandBytes, List.length_cons, List.length_nil]
    omega

theorem length_captures (captures : List (UInt8 × UInt32)) :
    (captures.flatMap captureBytes).length = 5 * captures.length := by
  induction captures with
  | nil => rfl
  | cons c captures ih =>
    rw [List.flatMap_cons, List.length_append, ih, List.length_cons]
    simp only [captureBytes, operandBytes, List.length_cons, List.length_nil]
    omega

@[simp] theorem length_encode (i : Instruction) : i.encode.length = i.length := by
  rw [encode, List.length_cons, List.length_append, length_operands, length_captures, length]
  omega

theorem length_pos (i : Instruction) : 0 < i.length := by
  rw [length]
  omega

theorem type_ne_other (i : Instruction) (b : ℕ) : i.type ≠ .other b := by
  intro h
  have hknown := i.known
  rw [show getInstructionType i.opcode.toNat = .other b from h] at hknown
  cases hknown

theorem fixedLength_type (i : Instruction) : fixedLength i.type = 1 + 4 * i.args.length :=
  i.args_length.symm

/-- Only a CLOSURE captures variables. -/
theorem length_of_type (i : Instruction) (h : i.type ≠ .closure) : i.length = fixedLength i.type := by
  have hc : i.captures.length = 0 := i.captures_length.trans (if_neg h)
  rw [length, i.fixedLength_type, hc]
  rfl

/-- A CLOSURE has an entry and a number of captured variables, and as many of these. -/
theorem closure_args (i : Instruction) (h : i.type = .closure) :
    ∃ entry count, i.args = [entry, count] ∧ i.captures.length = count.toNat := by
  have hlen : i.args.length = 2 := by
    have hfixed := i.fixedLength_type
    rw [h] at hfixed
    simp only [fixedLength] at hfixed
    omega
  obtain ⟨entry, count, hargs⟩ : ∃ entry count, i.args = [entry, count] := by
    match i.args, hlen with
    | [entry, count], _ => exact ⟨entry, count, rfl⟩
  refine ⟨entry, count, hargs, i.captures_length.trans ?_⟩
  rw [if_pos (show getInstructionType i.opcode.toNat = .closure from h), hargs]
  rfl

end Instruction

/-! ### Bytes in the code -/

/-- The bytes lie in the code from offset `o` on. -/
def Placed (bf : Bytefile) : ℤ → List UInt8 → Prop
  | _, [] => True
  | o, b :: bs => bf.code o = .ok b.toNat ∧ Placed bf (o + 1) bs

instance decidablePlaced (bf : Bytefile) : ∀ (o : ℤ) (bs : List UInt8), Decidable (Placed bf o bs)
  | _, [] => .isTrue trivial
  | o, b :: bs =>
    have := decidablePlaced bf (o + 1) bs
    inferInstanceAs (Decidable (bf.code o = .ok b.toNat ∧ Placed bf (o + 1) bs))

section Placed

variable {bf : Bytefile}

theorem placed_append : ∀ {bs cs : List UInt8} {o : ℤ},
    Placed bf o (bs ++ cs) ↔ Placed bf o bs ∧ Placed bf (o + bs.length) cs
  | [], cs, o => by simp [Placed]
  | b :: bs, cs, o => by
    have hoff : o + 1 + (bs.length : ℤ) = o + ((b :: bs).length : ℕ) := by
      rw [List.length_cons]
      omega
    rw [List.cons_append, Placed, Placed, placed_append, hoff, and_assoc]

/-- An operand word reads as the word that was laid out. -/
theorem Placed.code32 {o : ℤ} {w : UInt32} {bs : List UInt8}
    (h : Placed bf o (operandBytes w ++ bs)) : bf.code32 o = .ok w.toNat := by
  obtain ⟨h0, h1, h2, h3, -⟩ := h
  have hlow : bf.uint16 (bf.codePtr + o) = .ok (w.toNat % 2 ^ 16) := by
    rw [Bytefile.uint16, show bf.byte (bf.codePtr + o) = _ from h0,
      show bf.codePtr + o + 1 = bf.codePtr + (o + 1) by omega,
      show bf.byte (bf.codePtr + (o + 1)) = _ from h1]
    simp only [except_ok_bind, except_pure_ok, UInt8.toNat_ofNat']
    omega
  have hhigh : bf.uint16 (bf.codePtr + o + 2) = .ok (w.toNat / 2 ^ 16) := by
    have hw : w.toNat < 2 ^ 32 := w.toNat_lt
    rw [Bytefile.uint16, show bf.codePtr + o + 2 = bf.codePtr + (o + 1 + 1) by omega,
      show bf.byte (bf.codePtr + (o + 1 + 1)) = _ from h2,
      show bf.codePtr + (o + 1 + 1) + 1 = bf.codePtr + (o + 1 + 1 + 1) by omega,
      show bf.byte (bf.codePtr + (o + 1 + 1 + 1)) = _ from h3]
    simp only [except_ok_bind, except_pure_ok, UInt8.toNat_ofNat']
    omega
  rw [Bytefile.code32, Bytefile.uint32, hlow, hhigh]
  simp only [except_ok_bind, except_pure_ok]
  omega

/-- The operand words of an instruction, one after the other. -/
theorem Placed.operands : ∀ {args : List UInt32} {bs : List UInt8} {o : ℤ},
    Placed bf o (args.flatMap operandBytes ++ bs) → ∀ {k : ℕ} {w : UInt32}, args[k]? = some w →
      bf.code32 (o + 4 * k) = .ok w.toNat
  | [], _, _, _, _, _, hk => nomatch hk
  | a :: args, bs, o, h, k, w, hk => by
    rw [List.flatMap_cons, List.append_assoc] at h
    cases k with
    | zero =>
      cases hk
      rw [show o + 4 * ((0 : ℕ) : ℤ) = o by omega]
      exact h.code32
    | succ k =>
      have hrest := (placed_append.mp h).2
      have hoff : o + 4 * ((k + 1 : ℕ) : ℤ) = o + ((operandBytes a).length : ℕ) + 4 * k := by
        simp only [operandBytes, List.length_cons, List.length_nil]
        omega
      rw [hoff]
      exact hrest.operands hk

/-- A captured variable reads as the one that was laid out. -/
theorem Placed.designation {o : ℤ} {c : UInt8 × UInt32} {bs : List UInt8}
    (h : Placed bf o (Instruction.captureBytes c ++ bs)) :
    bf.designation o = .ok ⟨MemVar.ofByte c.1.toNat, c.2.toNat⟩ := by
  have hcode : bf.code o = .ok c.1.toNat := h.1
  have hvalue : bf.code32 (o + 1) = .ok c.2.toNat := Placed.code32 h.2
  rw [Bytefile.designation, hcode, hvalue]
  rfl

end Placed

/-! ### An instruction in the code -/

namespace Instruction

variable {bf : Bytefile} {o : ℤ} {i : Instruction}

theorem typeAt (h : Placed bf o i.encode) : bf.typeAt o = .ok i.type := by
  rw [Bytefile.typeAt, show bf.code o = _ from h.1]
  rfl

theorem lowBitsAt (h : Placed bf o i.encode) : bf.lowBitsAt o = .ok (lowBits i.opcode.toNat) := by
  rw [Bytefile.lowBitsAt, show bf.code o = _ from h.1]
  rfl

/-- The operand words follow the opcode. -/
theorem operand (h : Placed bf o i.encode) {k : ℕ} {w : UInt32} (hk : i.args[k]? = some w) :
    bf.code32 (o + 1 + 4 * k) = .ok w.toNat := Placed.operands h.2 hk

/-- The captured variables follow the operand words. -/
theorem captured (h : Placed bf o i.encode) :
    Placed bf (o + 1 + 4 * i.args.length) (i.captures.flatMap captureBytes) := by
  have hrest := (placed_append.mp h.2).2
  rw [length_operands] at hrest
  exact_mod_cast hrest

/-- `general_byterun` at a whole instruction: its end and its type. -/
theorem generalByterun_eq {o : ℕ} (h : Placed bf o i.encode) (hlt : o + i.length < 2 ^ 32) :
    generalByterun bf o = .ok (o + i.length, i.type) := by
  have hnext : ∀ n : ℕ, n = o + i.length → toU32 n = o + i.length := by
    rintro n rfl
    exact toU32_of_lt hlt
  have hfixed : i.type ≠ .closure → ∀ n : ℕ, n = o + fixedLength i.type → toU32 n = o + i.length :=
    fun hne n hn => hnext n (by rw [hn, i.length_of_type hne])
  rw [generalByterun, typeAt h]
  cases ht : i.type
  case other b => exact absurd ht (i.type_ne_other b)
  case closure =>
    obtain ⟨entry, count, hargs, hcount⟩ := i.closure_args ht
    have hn : bf.code32 (o + 1 + 4) = .ok count.toNat := by
      have hk := operand h (k := 1) (w := count) (by rw [hargs]; rfl)
      simpa using hk
    have hlen : toU32 (o + 1 + 2 * 4 + (1 + 4) * count.toNat) = o + i.length := by
      refine Eq.trans ?_ (hnext (o + i.length) rfl)
      rw [length, hargs, hcount]
      congr 1
      simp only [List.length_cons, List.length_nil]
      omega
    simp only [except_ok_bind, hn, except_pure_ok, hlen]
  all_goals
    rw [ht] at hfixed
    simp only [except_ok_bind, except_pure_ok, Prod.mk.injEq, and_true]
    exact hfixed (by decide) _ rfl

end Instruction

end LamaSM
