import LamaSM.Runtime

/-! `FrameStack` (`src/state/FrameStack.hpp`): the string pool and the globals at the bottom of the
    stack, activations below them, operands on top. The stack grows downwards; `__gc_stack_top` is the
    first free slot. -/

namespace LamaSM
open Lib

section Construction

variable {M : Machine} (E : Env M)

/-- The members of the object before the loop of the constructor. -/
def emptyState : State where
  codePtr := 0
  stringsMap := []
  fp := M.nullSlot
  stringCounter := 0
  argSizes := []
  stack := E.initStack
  top := M.maxStack
  heap := fun _ => none
  slack := fun _ _ => 0
  extraRoots := []
  allocs := 0
  reads := 0
  output := []
  activations := []
  collections := []
  collectedAt := []
  touched := M.maxStack

/-- The loop of the constructor, with `i` an offset into the string table. A turn adds at least one
    to `i`, so the size of the table bounds their number as long as `i` does not wrap. -/
def poolLoop : ℕ → ℕ → Exec Unit
  | 0, _ => throw .timeout
  | fuel + 1, i => do
    if toU32 M.bf.stringtabSize ≤ i then return ()
    else do
      modify fun s => { s with
        stringsMap := (i, s.stringCounter) :: s.stringsMap
        stringCounter := s.stringCounter + 1 }
      match M.bf.cString (M.bf.stringPtr + i) with
      | .error e => throw e
      | .ok string => do
        let bString ← Bstring E 0 string
        modify fun s => { s with top := s.top - 1 }
        let s ← get
        writeSlot M s.top bString
        poolLoop fuel (toU32 (i + string.length + 1))

/-- The constructor -/
def frameStack : Exec Unit := do
  poolLoop E (toU32 M.bf.stringtabSize + 1) 0
  modify fun s => { s with top := M.maxStack - M.bf.stringtabSize - M.bf.globalAreaSize }

end Construction

section Members

variable (M : Machine)

/-- `get_string_ptr`; `operator[]` of the map adds a missing key with the value 0. -/
def getStringPtr (index : ℕ) : Exec Word := do
  let s ← get
  match s.stringsMap.lookup index with
  | some assocIndex => readSlot M (M.maxStack - assocIndex - 1)
  | none => do
    modify fun s => { s with stringsMap := (index, 0) :: s.stringsMap }
    readSlot M (M.maxStack - 0 - 1)

/-- The slot of a global variable. -/
def globalSlot (s : State) (index : ℕ) : ℤ := M.maxStack - index - 1 - s.stringCounter

/-- `get_global` -/
def getGlobal (index : ℕ) : Exec Word := do
  let s ← get
  readSlot M (globalSlot M s index)

/-- `get_global_link` -/
def getGlobalLink (index : ℕ) : Exec Word := do
  let s ← get
  return M.slotAddr (globalSlot M s index)

/-- `set_global` -/
def setGlobal (index : ℕ) (val : Word) : Exec Unit := do
  let s ← get
  writeSlot M (globalSlot M s index) val

/-- `push_stack_frame` -/
def pushStackFrame (nargs : ℕ) (ra : Word) (isClosure : ℕ) : Exec Unit := do
  modify fun s => { s with argSizes := toI32 nargs :: s.argSizes }
  let s ← get
  touch (s.top + toU32 (nargs + isClosure))
  (if 1 < nargs then reverseSlots M (s.top + 1) nargs else return ())
  writeSlot M s.top ra
  writeSlot M (s.top - 1) (M.slotAddr s.fp)
  writeSlot M (s.top - 2) (M.slotAddr (s.top + toU32 (nargs + isClosure)))
  modify fun s => { s with
    top := s.top - 3
    fp := s.top - 3
    activations := ⟨s.top - 3, nargs, isClosure, ra, 0⟩ :: s.activations }

/-- A slot pointer read from memory. -/
def slotPtr (w : Word) : Exec ℤ :=
  match M.slotOf w with
  | some i => return i
  | none => throw (.undefined (.object w.toNat))

/-- `pop_stack_frame` -/
def popStackFrame : Exec Word := do
  let s ← get
  match s.argSizes with
  | [] => throw (.undefined .argSizes)
  | _ :: argSizes => do
    modify fun s => { s with argSizes := argSizes, activations := s.activations.tail }
    let prevFp := s.fp
    let savedFp ← readSlot M (prevFp + 2)
    let fp ← slotPtr M savedFp
    modify fun s => { s with fp := fp }
    let savedTop ← readSlot M (prevFp + 1)
    let top ← slotPtr M savedTop
    modify fun s => { s with top := top }
    readSlot M (prevFp + 3)

/-- The locals of the running activation grow by `n`. -/
def Activation.reserve (n : ℕ) : List Activation → List Activation
  | [] => []
  | a :: as => { a with reserved := a.reserved + n } :: as

/-- `reserve_locals` -/
def reserveLocals (nLocals : ℕ) : Exec Unit := fun s =>
  .ok () { s with
    top := s.top - nLocals
    activations := Activation.reserve nLocals s.activations }

/-- `*(fp + 4 + arg_sizes.back ())`: the closure of the running activation. -/
def closurePtr : Exec Word := do
  let s ← get
  match s.argSizes with
  | [] => throw (.undefined .argSizes)
  | n :: _ => readSlot M (s.fp + 4 + n)

/-- `get_closure` -/
def getClosure (index : ℕ) : Exec Word := do
  let closurePtr ← closurePtr M
  Belem closurePtr (boxInt (toU32 (index + 1)))

/-- `get_closure_link` -/
def getClosureLink (index : ℕ) : Exec Word := do
  let closurePtr ← closurePtr M
  Belem closurePtr (boxInt (toU32 (index + 1)))

/-- `set_closure` -/
def setClosure (index : ℕ) (val : Word) : Exec Unit := do
  let closurePtr ← closurePtr M
  let _ ← Bsta M closurePtr (boxInt (toU32 (index + 1))) val
  return ()

/-- `get_arg` -/
def getArg (index : ℕ) : Exec Word := do
  let s ← get
  readSlot M (s.fp + 4 + index)

/-- `get_arg_link` -/
def getArgLink (index : ℕ) : Exec Word := do
  let s ← get
  return M.slotAddr (s.fp + 4 + index)

/-- `set_arg` -/
def setArg (index : ℕ) (value : Word) : Exec Unit := do
  let s ← get
  writeSlot M (s.fp + 4 + index) value

/-- `get_local` -/
def getLocal (index : ℕ) : Exec Word := do
  let s ← get
  readSlot M (s.fp - index)

/-- `get_local_link` -/
def getLocalLink (index : ℕ) : Exec Word := do
  let s ← get
  return M.slotAddr (s.fp - index)

/-- `set_local` -/
def setLocal (index : ℕ) (value : Word) : Exec Unit := do
  let s ← get
  writeSlot M (s.fp - index) value

/-- `push_op` -/
def pushOp (value : Word) : Exec Unit := do
  let s ← get
  writeSlot M s.top value
  modify fun s => { s with top := s.top - 1 }

/-- `push_op_link` -/
def pushOpLink (ptr : Word) : Exec Unit := pushOp M ptr

/-- `peek_op` -/
def peekOp : Exec Word := do
  let s ← get
  readOperand M (s.top + 1)

/-- `pop_ops` -/
def popOps (n : ℕ) : Exec Unit := fun s =>
  .ok () { s with top := s.top + n, touched := max s.touched (s.top + n) }

/-- `pop_op` -/
def popOp : Exec Unit := popOps 1

end Members

end LamaSM
