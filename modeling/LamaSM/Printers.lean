import LamaSM.Runtime

/-! `print_instructions` (`src/printers.hpp`): the listing of the code, swept from offset 0.

    Besides the decoder's offset and the text written so far, `Printing` records at which offsets
    the sweep stopped; the program never reads that field. -/

namespace LamaSM
open Lib

/-- `magic_enum::enum_name` of an instruction type. -/
def InstructionType.name : InstructionType → String
  | .binop => "BINOP" | .const => "CONST" | .string => "STRING" | .sexp => "SEXP" | .sti => "STI"
  | .sta => "STA" | .jmp => "JMP" | .end => "END" | .ret => "RET" | .drop => "DROP" | .dup => "DUP"
  | .swap => "SWAP" | .elem => "ELEM" | .ld => "LD" | .lda => "LDA" | .st => "ST"
  | .cjmpz => "CJMPz" | .cjmpnz => "CJMPnz" | .callRead => "CALL_READ" | .callWrite => "CALL_WRITE"
  | .callLength => "CALL_LENGTH" | .callString => "CALL_STRING" | .callArray => "CALL_ARRAY"
  | .begin => "BEGIN" | .cbegin => "CBEGIN" | .closure => "CLOSURE" | .callc => "CALLC"
  | .call => "CALL" | .tag => "TAG" | .array => "ARRAY" | .fail => "FAIL" | .line => "LINE"
  | .patt => "PATT" | .other _ => ""

/-- `magic_enum::enum_name` of a `MemVar`; a value without enumerator has no name. -/
def MemVar.name : MemVar → String
  | .global => "Global" | .local => "Local" | .argument => "Argument" | .closure => "Closure"
  | .other _ => ""

/-- `magic_enum::enum_name` of a `Patt` -/
def Patt.name : Patt → String
  | .strCmp => "PattStrCmp" | .string => "PattString" | .array => "PattArray" | .sexp => "PattSexp"
  | .boxed => "PattBoxed" | .unBoxed => "PattUnBoxed" | .closure => "PattClosure" | .other _ => ""

/-- `magic_enum::enum_name` of a `BinOp` -/
def BinOp.name : BinOp → String
  | .plus => "PLUS" | .minus => "MINUS" | .mul => "MUL" | .div => "DIV" | .mod => "MOD" | .lt => "LT"
  | .le => "LE" | .gt => "GT" | .ge => "GE" | .eq => "EQ" | .neq => "NEQ" | .and => "AND"
  | .or => "OR" | .other _ => ""

/-- `"0x" << std::setw (8) << std::setfill ('0') << std::hex << n` -/
def hexText (n : ℕ) : String :=
  let digits := Nat.toDigits 16 n
  "0x" ++ String.ofList (List.replicate (8 - digits.length) '0' ++ digits)

/-- The state of the sweep: the offset of the decoder and the text on `std::cout`. -/
structure Printing where
  offset : ℤ
  text : String
  stops : List ℤ
  deriving DecidableEq, Repr

abbrev Print := EStateM Fault Printing

namespace Print

/-- A read of the file. -/
def view {α : Type} (r : Result α) : Print α :=
  match r with
  | .ok a => return a
  | .error e => throw e

/-- `std::cout << text` -/
def write (text : String) : Print Unit := fun p => .ok () { p with text := p.text ++ text }

/-- Moves `code_ptr` by the length of what was consumed. -/
def advance (length : ℕ) : Print Unit := fun p => .ok () { p with offset := p.offset + length }

/-- The 32-bit operand `args[k]` of the instruction at `code_ptr`. -/
def operand (bf : Bytefile) (k : ℕ) : Print ℕ := do
  let p ← get
  view (bf.code32 (p.offset + 1 + 4 * k))

/-- `consume_as<SimpleInstructionWithArgs<1>>` -/
def consumeArgs1 (bf : Bytefile) : Print ℕ := do
  let a ← operand bf 0
  advance 5
  return a

/-- `consume_as<SimpleInstructionWithArgs<2>>` -/
def consumeArgs2 (bf : Bytefile) : Print (ℕ × ℕ) := do
  let a ← operand bf 0
  let b ← operand bf 1
  advance 9
  return (a, b)

/-- `consume_as<InstructionWithArgsLowerBits<0>>`, with `low_bits (inst.instruction)` -/
def consumeLowerBits0 (bf : Bytefile) : Print ℕ := do
  let p ← get
  let b ← view (bf.code p.offset)
  advance 1
  return lowBits b

/-- `consume_as<InstructionWithArgsLowerBits<1>>`, with `low_bits (inst.instruction)` -/
def consumeLowerBits1 (bf : Bytefile) : Print (ℕ × ℕ) := do
  let p ← get
  let b ← view (bf.code p.offset)
  let a ← operand bf 0
  advance 5
  return (lowBits b, a)

/-- `consume_as<Designation>`, `n` times -/
def consumeDesignations (bf : Bytefile) : ℕ → Print (List Designation)
  | 0 => return []
  | n + 1 => do
    let p ← get
    let d ← view (bf.designation p.offset)
    advance 5
    let ds ← consumeDesignations bf n
    return d :: ds

end Print

open Print

/-- The lines that follow a CLOSURE. -/
def designationText (ds : List Designation) : String :=
  ds.foldr (fun d text => d.memVar.name ++ " " ++ toString d.value ++ "\n" ++ text) "\n"

/-- The body of the `switch`: whether the sweep is over. -/
def printInstruction (bf : Bytefile) (type : InstructionType) : Print Bool :=
  match type with
  | .callRead | .callWrite | .callLength | .callString | .elem | .dup | .drop | .swap | .sti | .sta
  | .ret | .end => do
    Print.advance 1
    write (type.name ++ "\n")
    return false
  | .jmp | .cjmpz | .cjmpnz => do
    let a ← Print.consumeArgs1 bf
    write (type.name ++ " " ++ hexText a ++ "\n")
    return false
  | .const | .callArray | .line | .array | .string | .callc => do
    let a ← Print.consumeArgs1 bf
    write (type.name ++ " " ++ toString a ++ "\n")
    return false
  | .call => do
    let (a, b) ← Print.consumeArgs2 bf
    write (type.name ++ " " ++ hexText a ++ " " ++ toString b ++ "\n")
    return false
  | .closure => do
    let (a, n) ← Print.consumeArgs2 bf
    let designations ← Print.consumeDesignations bf n
    write (type.name ++ " " ++ hexText a ++ " " ++ toString n ++ "\n")
    write (designationText designations)
    return false
  | .sexp | .tag => do
    let (a, b) ← Print.consumeArgs2 bf
    write (type.name ++ " ")
    -- `get_string` takes an `int`
    let string ← view (bf.cString (bf.stringPtr + toI32 a))
    write (asText string ++ "(" ++ toString a ++ ") " ++ toString b ++ "\n")
    return false
  | .begin | .cbegin | .fail => do
    let (a, b) ← Print.consumeArgs2 bf
    write (type.name ++ " " ++ toString a ++ " " ++ toString b ++ "\n")
    return false
  | .binop => do
    let low ← Print.consumeLowerBits0 bf
    write ((BinOp.ofByte low).name ++ "\n")
    return false
  | .ld | .st | .lda => do
    let (low, a) ← Print.consumeLowerBits1 bf
    write (type.name ++ " " ++ (MemVar.ofByte low).name ++ " " ++ toString a ++ "\n")
    return false
  | .patt => do
    let low ← Print.consumeLowerBits0 bf
    write (type.name ++ " " ++ (Patt.ofByte low).name ++ "\n")
    return false
  | .other _ => do
    let p ← get
    let b ← view (bf.code p.offset)
    if b = 0xFF then do
      write "<end>\n"
      return true
    else throw (.runtimeError "unknown")

/-- One turn of the loop: whether the sweep is over. -/
def printTurn (bf : Bytefile) : Print Bool := do
  let p ← get
  modify fun p => { p with stops := p.stops ++ [p.offset] }
  write (hexText p.offset.toNat ++ ":\t")
  let b ← view (bf.code p.offset)
  printInstruction bf (nextInstructionType b)

/-- The loop of `print_instructions`; it ends at a byte 0xFF only. -/
def printLoop (bf : Bytefile) : ℕ → Print Unit
  | 0 => throw .timeout
  | fuel + 1 => do
    let ended ← printTurn bf
    if ended then return () else printLoop bf fuel

/-- `print_instructions`, when it ends within `fuel` turns. -/
def printInstructions (fuel : ℕ) (bf : Bytefile) : EStateM.Result Fault Printing Unit :=
  printLoop bf fuel { offset := 0, text := "", stops := [] }

end LamaSM
