import LamaSM.FrameStack

/-! The instruction handlers (`src/single_interpreters/`) and the instruction decoder's
    `consume_as`, which hands out the operands and moves `code_ptr` behind the instruction. -/

namespace LamaSM
open Lib

/-- A read of the file during a run. -/
def readFileByte {α : Type} (r : Result α) : Exec α :=
  match r with
  | .ok a => return a
  | .error e => throw e

section Decoder

variable (M : Machine)

/-- The 32-bit operand `args[k]` of the instruction at `code_ptr`. -/
def operand (k : ℕ) : Exec ℕ := do
  let s ← get
  readFileByte (M.bf.code32 (s.codePtr + 1 + 4 * k))

/-- Moves `code_ptr` by the length of the instruction. -/
def advance (length : ℕ) : Exec Unit := fun s => .ok () { s with codePtr := s.codePtr + length }

/-- `consume_as<SimpleInstructionWithArgs<1>>` -/
def consumeArgs1 : Exec ℕ := do
  let a ← operand M 0
  advance 5
  return a

/-- `consume_as<SimpleInstructionWithArgs<2>>` -/
def consumeArgs2 : Exec (ℕ × ℕ) := do
  let a ← operand M 0
  let b ← operand M 1
  advance 9
  return (a, b)

/-- `consume_as<InstructionWithArgsLowerBits<0>>`, with `low_bits (inst.instruction)` -/
def consumeLowerBits0 : Exec ℕ := do
  let s ← get
  let b ← readFileByte (M.bf.code s.codePtr)
  advance 1
  return lowBits b

/-- `consume_as<InstructionWithArgsLowerBits<1>>`, with `get_low_bits ()` -/
def consumeLowerBits1 : Exec (ℕ × ℕ) := do
  let s ← get
  let b ← readFileByte (M.bf.code s.codePtr)
  let a ← operand M 0
  advance 5
  return (lowBits b, a)

/-- `consume_as<Designation>`, `n` times -/
def consumeDesignations : ℕ → Exec (List Designation)
  | 0 => return []
  | n + 1 => do
    let s ← get
    let d ← readFileByte (M.bf.designation s.codePtr)
    advance 5
    let ds ← consumeDesignations n
    return d :: ds

end Decoder

section Handlers

variable {M : Machine} (E : Env M)

/-! ### Binary operators (`binop_interpreter.hpp`) -/

/-- A truth value converted to `int64_t`. -/
def ofBool (b : Bool) : ℤ := if b then 1 else 0

/-- `BinOpMap`, on `int64_t`; the result is read modulo `2 ^ 64` by `box_int`. -/
def binOpMap (op : BinOp) (a b : ℤ) : ℤ :=
  match op with
  | .plus => a + b
  | .minus => a - b
  | .mul => a * b
  | .div => a.tdiv b
  | .mod => a.tmod b
  | .lt => ofBool (a < b)
  | .le => ofBool (a ≤ b)
  | .gt => ofBool (b < a)
  | .ge => ofBool (b ≤ a)
  | .eq => ofBool (a = b)
  | .neq => ofBool (a ≠ b)
  | .and => ofBool (a ≠ 0 ∧ b ≠ 0)
  | .or => ofBool (a ≠ 0 ∨ b ≠ 0)
  | .other _ => 0

/-- `boxed_unboxed` -/
def boxedUnboxed (M : Machine) (op : BinOp) : Exec Unit := do
  let b ← peekOp M
  popOp
  let a ← peekOp M
  popOp
  if (op = .div ∨ op = .mod) ∧ unbox b = 0 then
    throw (.runtimeError
      (if op = .div then "Second argument of DIV is zero" else "Second argument of MOD is zero"))
  else pushOp M (boxInt (binOpMap op (unbox a) (unbox b)))

/-- `boxed` -/
def boxed (M : Machine) (op : BinOp) : Exec Unit := do
  let b ← peekOp M
  popOp
  let a ← peekOp M
  popOp
  pushOp M (boxInt (binOpMap op a.toInt b.toInt))

/-- `binop_interpeter` -/
def binopInterpreter (M : Machine) : Exec Unit := do
  let lowBitsInst ← consumeLowerBits0 M
  match BinOp.ofByte lowBitsInst with
  | .eq => boxed M .eq
  | .neq => boxed M .neq
  | .other _ => throw (.runtimeError "Unknown binop ")
  | op => boxedUnboxed M op

/-! ### Strings and s-expressions (`boxing_interpreters.hpp`) -/

/-- `boxing_sexp`; `n_args` is a `uint32_t`, all words handed to `Bsexp` count as used. -/
def boxingSexp : Exec Unit := do
  let (tag, n) ← consumeArgs2 M
  let tagPtr ← getStringPtr M tag
  let hash ← LtagHash tagPtr
  pushOp M hash
  let nArgs := toU32 (n + 1)
  let s ← get
  touch (s.top + nArgs)
  let res ← Bsexp E (s.top + 1) nArgs
  popOps nArgs
  pushOp M res

/-- `boxing_string` -/
def boxingString (M : Machine) : Exec Unit := do
  let index ← consumeArgs1 M
  let stringPtr ← getStringPtr M index
  pushOp M stringPtr

/-! ### Builtin functions (`builtin_interpreters.hpp`) -/

/-- `call_read` -/
def callRead : Exec Unit := do
  advance 1
  let val ← Lread E
  pushOp M val

/-- `call_write` -/
def callWrite (M : Machine) : Exec Unit := do
  advance 1
  let val ← peekOp M
  Lwrite val

/-- `call_length` -/
def callLength (M : Machine) : Exec Unit := do
  advance 1
  let val ← peekOp M
  popOp
  let res ← Llength val
  pushOp M res

/-- `call_string`; a reference is copied to a new cell, an integer is passed on the stack. -/
def callString : Exec Unit := do
  advance 1
  let a ← peekOp M
  let s ← get
  let res ← Lstring E (if isBoxedInt a then .slot (s.top + 1) else .cell 0 a) a
  popOp
  pushOp M res

/-- `call_array`; all words of the range count as used. -/
def callArray : Exec Unit := do
  let nArgs ← consumeArgs1 M
  let s ← get
  touch (s.top + nArgs)
  reverseSlots M (s.top + 1) nArgs
  let res ← Barray E (s.top + 1) nArgs
  popOps nArgs
  pushOp M res

/-- `call_elem` -/
def callElem (M : Machine) : Exec Unit := do
  advance 1
  let a ← peekOp M
  popOp
  let b ← peekOp M
  popOp
  let res ← Belem b a
  pushOp M res

/-! ### Calls and returns (`call_stack_interpreters.hpp`) -/

/-- `call_stack_begin`; the message ends with the code from the instruction on, read as a C string. -/
def callStackBegin (M : Machine) : Exec Unit := do
  let (arg, nLocals) ← consumeArgs2 M
  let maxStack : ℕ := arg / 2 ^ 16
  let s ← get
  if s.top + 1 < maxStack + nLocals then do
    let text ← readFileByte (M.bf.cString (M.bf.codePtr + s.codePtr - 9))
    throw (.runtimeError s!"Stack overflow at \x7b\x7d{asText text}")
  else reserveLocals nLocals

/-- `call_stack_end`: whether the run is over. -/
def callStackEnd (M : Machine) : Exec Bool := do
  advance 1
  let val ← peekOp M
  let codePtr ← popStackFrame M
  if codePtr = 0 then return true
  else do
    modify fun s => { s with codePtr := M.codeOffset codePtr }
    pushOp M val
    return false

/-- Sets `code_ptr` to an offset. -/
def jumpTo (o : ℤ) : Exec Unit := fun s => .ok () { s with codePtr := o }

/-- `call_stack_call` -/
def callStackCall (M : Machine) : Exec Unit := do
  let (jump, nargs) ← consumeArgs2 M
  let s ← get
  pushStackFrame M nargs (M.codeAddr s.codePtr) 0
  jumpTo jump

/-! ### Closures (`closures.hpp`) -/

/-- The loop of `closures_create` that pushes the captured variables. -/
def pushDesignations (M : Machine) : List Designation → Exec Unit
  | [] => return ()
  | designation :: designations => do
    match designation.memVar with
    | .local => do
      let w ← getLocal M designation.value
      pushOp M w
    | .argument => do
      let w ← getArg M designation.value
      pushOp M w
    | .closure => do
      let w ← getClosure M designation.value
      pushOp M w
    | _ => throw (.runtimeError "Invalid designation for closure.")
    pushDesignations M designations

/-- `closures_create` -/
def closuresCreate : Exec Unit := do
  let (ip, nArgs) ← consumeArgs2 M
  let designations ← consumeDesignations M nArgs
  pushDesignations M designations.reverse
  pushOp M (boxInt ip)
  let s ← get
  let res ← Bclosure E (s.top + 1) nArgs
  popOps (toU32 (nArgs + 1))
  pushOp M res

/-- `closures_call` -/
def closuresCall (M : Machine) : Exec Unit := do
  let nargs ← consumeArgs1 M
  let s ← get
  let closurePtr ← readOperand M (s.top + 1 + nargs)
  let elem ← Belem closurePtr (boxInt 0)
  let jump := unbox elem
  let s ← get
  pushStackFrame M nargs (M.codeAddr s.codePtr) 1
  jumpTo jump

/-! ### Lines and failures (`helper_interpreters.hpp`) -/

/-- `helper_line` -/
def helperLine : Exec Unit := advance 5

/-- `helper_fail` -/
def helperFail (M : Machine) : Exec Unit := do
  let (line, _) ← consumeArgs2 M
  throw (.runtimeError s!"Matching failure at {line}")

/-! ### Jumps (`jump_interpreters.hpp`) -/

/-- `jump` -/
def jump (M : Machine) : Exec Unit := do
  let target ← consumeArgs1 M
  jumpTo target

/-- `jump_if_zero` -/
def jumpIfZero (M : Machine) : Exec Unit := do
  let target ← consumeArgs1 M
  let val ← peekOp M
  popOp
  if val = boxInt 0 then jumpTo target else return ()

/-- `jump_if_not_zero` -/
def jumpIfNotZero (M : Machine) : Exec Unit := do
  let target ← consumeArgs1 M
  let val ← peekOp M
  popOp
  if val ≠ boxInt 0 then jumpTo target else return ()

/-! ### Variables (`mem_interpreters.hpp`) -/

/-- `mem_load` -/
def memLoad (M : Machine) : Exec Unit := do
  let (lowBits, index) ← consumeLowerBits1 M
  match MemVar.ofByte lowBits with
  | .global => do
    let w ← getGlobal M index
    pushOp M w
  | .local => do
    let w ← getLocal M index
    pushOp M w
  | .argument => do
    let w ← getArg M index
    pushOp M w
  | .closure => do
    let w ← getClosure M index
    pushOp M w
  | .other _ => throw (.runtimeError "Invalid load instruction lower bits.")

/-- `mem_store` -/
def memStore (M : Machine) : Exec Unit := do
  let (lowBits, index) ← consumeLowerBits1 M
  match MemVar.ofByte lowBits with
  | .global => do
    let w ← peekOp M
    setGlobal M index w
  | .local => do
    let w ← peekOp M
    setLocal M index w
  | .argument => do
    let w ← peekOp M
    setArg M index w
  | .closure => do
    let w ← peekOp M
    setClosure M index w
  | .other _ => throw (.runtimeError "Invalid store instruction lower bits.")

/-- `stack_lda` -/
def stackLda (M : Machine) : Exec Unit := do
  let (lowBits, index) ← consumeLowerBits1 M
  match MemVar.ofByte lowBits with
  | .global => do
    let ptr ← getGlobalLink M index
    pushOpLink M ptr
  | .local => do
    let ptr ← getLocalLink M index
    pushOpLink M ptr
  | .argument => do
    let ptr ← getArgLink M index
    pushOpLink M ptr
  | .closure => do
    let ptr ← getClosureLink M index
    pushOpLink M ptr
  | .other _ => throw (.runtimeError "Invalid store instruction lower bits.")

/-! ### Patterns (`patt.hpp`, `unboxing_interpreters.hpp`) -/

/-- `patt` -/
def patt (M : Machine) : Exec Unit := do
  let lowBitsInst ← consumeLowerBits0 M
  let isPatt ← match Patt.ofByte lowBitsInst with
    | .closure => do
      let closurePtr ← peekOp M
      BclosureTagPatt closurePtr
    | .strCmp => do
      let str1Ptr ← peekOp M
      popOp
      let str2Ptr ← peekOp M
      BstringPatt str1Ptr str2Ptr
    | .boxed => do
      let boxPtr ← peekOp M
      pure (BboxedPatt boxPtr)
    | .unBoxed => do
      let unboxPtr ← peekOp M
      pure (BunboxedPatt unboxPtr)
    | .array => do
      let arrayPtr ← peekOp M
      BarrayTagPatt arrayPtr
    | .string => do
      let stringPtr ← peekOp M
      BstringTagPatt stringPtr
    | .sexp => do
      let sexpPtr ← peekOp M
      BsexpTagPatt sexpPtr
    | .other _ => throw (.runtimeError "Invalid patt instruction lower bits.")
  popOp
  pushOp M isPatt

/-- `unboxing_tag` -/
def unboxingTag (M : Machine) : Exec Unit := do
  let (tag, n) ← consumeArgs2 M
  let tagPtr ← getStringPtr M tag
  let ptr ← peekOp M
  popOp
  let hash ← LtagHash tagPtr
  let res ← Btag ptr hash (boxInt n)
  pushOp M res

/-- `unboxing_array` -/
def unboxingArray (M : Machine) : Exec Unit := do
  let n ← consumeArgs1 M
  let ptr ← peekOp M
  popOp
  let res ← BarrayPatt ptr (boxInt n)
  pushOp M res

/-! ### Operands (`stack_ops_interpreters.hpp`) -/

/-- `stack_dup` -/
def stackDup (M : Machine) : Exec Unit := do
  advance 1
  let w ← peekOp M
  pushOp M w

/-- `stack_drop` -/
def stackDrop : Exec Unit := do
  advance 1
  popOp

/-- `stack_const` -/
def stackConst (M : Machine) : Exec Unit := do
  let n ← consumeArgs1 M
  pushOp M (boxInt n)

/-- `stack_swap` -/
def stackSwap (M : Machine) : Exec Unit := do
  advance 1
  let a ← peekOp M
  popOp
  let b ← peekOp M
  popOp
  pushOp M a
  pushOp M b

/-- `stack_sta` -/
def stackSta (M : Machine) : Exec Unit := do
  advance 1
  let z ← peekOp M
  popOp
  let i ← peekOp M
  popOp
  if isBoxedInt i then do
    let x ← peekOp M
    popOp
    let _ ← Bsta M x i z
    pushOp M z
  else do
    let w ← loadWord M i
    storeWord M z w
    pushOp M z

/-- `stack_sti` -/
def stackSti (M : Machine) : Exec Unit := do
  advance 1
  let z ← peekOp M
  popOp
  let i ← peekOp M
  popOp
  if isBoxedInt i then throw (.runtimeError "For STI second argument should be a variable")
  else do
    let w ← loadWord M i
    storeWord M z w
    pushOp M z

end Handlers

end LamaSM
