import LamaSM.Bytefile

/-! Instruction types and the two functions that read them off a code byte
    (`src/decoders/InstructionType.hpp`, `src/decoders/InstructionDecoder.hpp`), the other enums
    that ride in the low bits, and `general_byterun` (`src/analyzer/Analyzer.hpp`), which gives the
    offset after an instruction.

    `InstructionType` is a `char` enum: a byte without an enumerator is a legal value, here `other`.
    A `char` is read as its unsigned value; no enumerator is negative, so the sign of the others
    never decides a comparison. -/

namespace LamaSM
open Lib

inductive InstructionType
  | binop | const | string | sexp | sti | sta | jmp | «end» | ret | drop | dup | swap | elem
  | ld | lda | st | cjmpz | cjmpnz
  | callRead | callWrite | callLength | callString | callArray
  | «begin» | cbegin | closure | callc | call | tag | array | fail | line | patt
  | other (raw : ℕ)
  deriving DecidableEq, Repr

/-- `static_cast<InstructionType>` of a byte. -/
def rawInstructionType (b : ℕ) : InstructionType :=
  match b with
  | 0x00 => .binop | 0x10 => .const | 0x11 => .string | 0x12 => .sexp | 0x13 => .sti
  | 0x14 => .sta | 0x15 => .jmp | 0x16 => .end | 0x17 => .ret | 0x18 => .drop | 0x19 => .dup
  | 0x1A => .swap | 0x1B => .elem | 0x20 => .ld | 0x30 => .lda | 0x40 => .st
  | 0x50 => .cjmpz | 0x51 => .cjmpnz | 0x52 => .begin | 0x53 => .cbegin | 0x54 => .closure
  | 0x55 => .callc | 0x56 => .call | 0x57 => .tag | 0x58 => .array | 0x59 => .fail | 0x5A => .line
  | 0x60 => .patt | 0x70 => .callRead | 0x71 => .callWrite | 0x72 => .callLength
  | 0x73 => .callString | 0x74 => .callArray
  | b => .other b

/-- `high_bits` -/
def highBits (b : ℕ) : ℕ := b &&& 0xF0

/-- `low_bits` -/
def lowBits (b : ℕ) : ℕ := b &&& 0x0F

/-- `get_instruction_type` of the analyzer, on the byte it is pointed at. -/
def getInstructionType (b : ℕ) : InstructionType :=
  match highBits b with
  | 0x00 => .binop
  | 0x20 => .ld
  | 0x30 => .lda
  | 0x40 => .st
  | 0x60 => .patt
  | _ => rawInstructionType b

/-- `InstructionDecoder::next_instruction_type`, on the byte at `code_ptr`. Its cases are the
    `high_bits` of the five enumerators with meaningful lower bits. -/
def nextInstructionType (b : ℕ) : InstructionType :=
  if highBits b = highBits 0x00 then .binop
  else if highBits b = highBits 0x20 then .ld
  else if highBits b = highBits 0x30 then .lda
  else if highBits b = highBits 0x40 then .st
  else if highBits b = highBits 0x60 then .patt
  else rawInstructionType b

/-- The two decoders read the same type off every byte. -/
theorem nextInstructionType_eq (b : ℕ) : nextInstructionType b = getInstructionType b := by
  have h0 : highBits 0x00 = 0 := rfl
  have h2 : highBits 0x20 = 0x20 := rfl
  have h3 : highBits 0x30 = 0x30 := rfl
  have h4 : highBits 0x40 = 0x40 := rfl
  have h6 : highBits 0x60 = 0x60 := rfl
  unfold nextInstructionType getInstructionType
  rw [h0, h2, h3, h4, h6]
  split_ifs with h h h h h <;> split <;> simp_all

/-- `enum MemVar` -/
inductive MemVar
  | global | «local» | argument | closure | other (raw : ℕ)
  deriving DecidableEq, Repr

/-- `static_cast<MemVar>` -/
def MemVar.ofByte : ℕ → MemVar
  | 0 => .global
  | 1 => .local
  | 2 => .argument
  | 3 => .closure
  | b => .other b

/-- `enum Patt` -/
inductive Patt
  | strCmp | string | array | sexp | boxed | unBoxed | closure | other (raw : ℕ)
  deriving DecidableEq, Repr

/-- `static_cast<Patt>` -/
def Patt.ofByte : ℕ → Patt
  | 0 => .strCmp
  | 1 => .string
  | 2 => .array
  | 3 => .sexp
  | 4 => .boxed
  | 5 => .unBoxed
  | 6 => .closure
  | b => .other b

/-- `enum BinOp` -/
inductive BinOp
  | plus | minus | mul | div | mod | lt | le | gt | ge | eq | neq | and | or | other (raw : ℕ)
  deriving DecidableEq, Repr

/-- `static_cast<BinOp>` -/
def BinOp.ofByte : ℕ → BinOp
  | 1 => .plus
  | 2 => .minus
  | 3 => .mul
  | 4 => .div
  | 5 => .mod
  | 6 => .lt
  | 7 => .le
  | 8 => .gt
  | 9 => .ge
  | 10 => .eq
  | 11 => .neq
  | 12 => .and
  | 13 => .or
  | b => .other b

/-- `Designation`, one captured variable of a CLOSURE: a `MemVar` byte and its index. -/
structure Designation where
  memVar : MemVar
  value : ℕ
  deriving DecidableEq, Repr

namespace Bytefile

/-- The instruction type at offset `o`. -/
def typeAt (bf : Bytefile) (o : ℤ) : Result InstructionType := do
  let b ← bf.code o
  return getInstructionType b

/-- The low bits of the opcode at offset `o`. -/
def lowBitsAt (bf : Bytefile) (o : ℤ) : Result ℕ := do
  let b ← bf.code o
  return lowBits b

/-- `*reinterpret_cast<const Designation *>` at offset `o` of the code. -/
def designation (bf : Bytefile) (o : ℤ) : Result Designation := do
  let b ← bf.code o
  let v ← bf.code32 (o + 1)
  return ⟨MemVar.ofByte b, v⟩

end Bytefile

/-- `general_byterun`: the offset after the instruction at `i`, and its type. The length of a
    CLOSURE is computed in `size_t` and narrowed with the sum to `uint32_t`. -/
def generalByterun (bf : Bytefile) (i : ℕ) : Result (ℕ × InstructionType) := do
  let type ← bf.typeAt i
  match type with
  | .callRead | .callWrite | .callLength | .callString | .elem | .dup | .drop | .swap | .sti
  | .sta | .ret | .binop | .patt | .end => return (toU32 (i + 1), type)
  | .jmp | .cjmpz | .cjmpnz | .const | .callArray | .array | .string | .callc | .ld | .st | .lda
  | .line => return (toU32 (i + 1 + 4), type)
  | .closure => do
    let nArgs ← bf.code32 (i + 1 + 4)
    return (toU32 (i + 1 + 2 * 4 + (1 + 4) * nArgs), type)
  | .call | .sexp | .tag | .begin | .cbegin | .fail => return (toU32 (i + 1 + 2 * 4), type)
  | .other _ => throw (.logicError "unsupported instruction type")

end LamaSM
