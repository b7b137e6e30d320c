import LamaSM.Memory
import LamaSM.Decoding
import Mathlib.Data.Int.Order.Basic

/-! The state of a run and its elementary steps (`src/state/StackMachineState.hpp`, the data members
    of `src/state/FrameStack.hpp`, `runtime/gc.c`).

    `fp` and `__gc_stack_top` are kept as slot numbers, `code_ptr` as an offset from `bf->code_ptr`.
    An access outside `stack_data` or to an address without an object ends the run with the fault
    `undefined`. Four fields only record what happened and are never read by the program:
    `activations`, `collections`, `collectedAt` and `touched`. -/

namespace LamaSM
open Lib

/-- What `push_stack_frame` knew of an activation, and the locals reserved in it so far. -/
structure Activation where
  fp : ℤ
  nargs : ℕ
  isClosure : ℕ
  ra : Word
  reserved : ℕ
  deriving DecidableEq, Repr

/-- What an entry of the extra-root pool points to: a slot of the stack, or a word outside it that is
    told apart by a number. -/
inductive RootRef
  | slot (i : ℤ)
  | cell (id : ℕ) (content : Word)
  deriving DecidableEq, Repr

/-- Equality of the two pointers. -/
def RootRef.same : RootRef → RootRef → Bool
  | .slot i, .slot j => i == j
  | .cell i _, .cell j _ => i == j
  | _, _ => false

structure State where
  codePtr : ℤ
  stringsMap : List (ℕ × ℕ)
  fp : ℤ
  stringCounter : ℕ
  argSizes : List ℤ
  stack : ℤ → Word
  /-- `__gc_stack_top` -/
  top : ℤ
  heap : Heap
  /-- the bytes behind the contents of a string, up to the end of its last word -/
  slack : Word → ℕ → UInt8
  extraRoots : List RootRef
  allocs : ℕ
  reads : ℕ
  output : List ℤ
  activations : List Activation
  /-- what each collection did to the words it visited, the last one first -/
  collections : List (Word → Word)
  /-- the numbers of the allocations that began with a collection, the last one first -/
  collectedAt : List ℕ
  /-- the highest slot read or popped as an operand -/
  touched : ℤ

abbrev Exec := EStateM Fault State

/-! ### Slots of the stack -/

section Slots

variable (M : Machine)

/-- `stack_data[i]` -/
def readSlot (i : ℤ) : Exec Word := fun s =>
  if 0 ≤ i ∧ i < M.maxStack then .ok (s.stack i) s else .error (.undefined (.stackRead i)) s

/-- `stack_data[i] = w` -/
def writeSlot (i : ℤ) (w : Word) : Exec Unit := fun s =>
  if 0 ≤ i ∧ i < M.maxStack then .ok () { s with stack := Function.update s.stack i w }
  else .error (.undefined (.stackWrite i)) s

/-- Records that the slot is used as an operand. -/
def touch (i : ℤ) : Exec Unit := fun s => .ok () { s with touched := max s.touched i }

/-- An operand of the instruction, read through a pointer. -/
def readOperand (i : ℤ) : Exec Word := do
  touch i
  readSlot M i

/-- `std::reverse (a, a + n)`; fewer than two words are left alone without being read. -/
def reverseSlots (a : ℤ) (n : ℕ) : Exec Unit := fun s =>
  if n ≤ 1 then .ok () s
  else if a < 0 then .error (.undefined (.stackRead a)) s
  else if M.maxStack < a + n then .error (.undefined (.stackRead (a + n - 1))) s
  else .ok () { s with
    stack := fun i => if a ≤ i ∧ i < a + n then s.stack (2 * a + n - 1 - i) else s.stack i }

end Slots

/-! ### Objects of the heap -/

/-- The object whose contents lie at the address. -/
def getObj (a : Word) : Exec Obj := fun s =>
  match s.heap a with
  | some o => .ok o s
  | none => .error (.undefined (.object a.toNat)) s

/-- Overwrites the object at the address. -/
def setObj (a : Word) (o : Obj) : Exec Unit := fun s =>
  .ok () { s with heap := Function.update s.heap a (some o) }

/-! ### Collections -/

section Collections

variable {M : Machine} (E : Env M)

/-- The words `gc_root_scan_stack` and `scan_extra_roots` visit: those strictly above
    `__gc_stack_top`, and what the extra roots point to. -/
def rootWords (M : Machine) (s : State) : List Word :=
  ((List.range (M.maxStack - 1 - s.top).toNat).map fun (k : ℕ) => s.stack (s.top + 1 + k)) ++
    s.extraRoots.map fun
      | .slot i => s.stack i
      | .cell _ content => content

/-- `gc_alloc` up to the allocation: an extra root that points into the scanned range is not
    rewritten a second time. Before the first allocation the heap begins and ends at the null pointer,
    so that `mark` takes a null word for an object. Only whole objects are moved, not the bytes behind
    the contents of a string. -/
def collectGarbage : Exec Unit := fun s =>
  if s.allocs = 0 ∧ 0 ∈ rootWords M s then .error (.undefined (.object 0)) s
  else match E.collect s.allocs s.heap (rootWords M s) with
  | none => .ok () s
  | some (heap, forward) =>
    if s.top + 1 < 0 then .error (.undefined (.stackRead (s.top + 1))) s
    else
      let relocate := relocateWord M.heapZone s.heap forward
      .ok () { s with
        heap := heap
        slack := E.slack s.allocs
        stack := fun i => if s.top < i ∧ i < M.maxStack then relocate (s.stack i) else s.stack i
        extraRoots := s.extraRoots.map fun
          | .slot i => .slot i
          | .cell id content => .cell id (relocate content)
        collections := relocate :: s.collections
        collectedAt := s.allocs :: s.collectedAt }

/-- `alloc`: the address of a new object of zeroed words, which the caller fills. -/
def alloc : Exec Word := do
  collectGarbage E
  fun s => match E.place s.allocs s.heap with
    | none => .error (.exit "ERROR: compact_phase: mmap failed\n") s
    | some a => .ok a { s with
        allocs := s.allocs + 1
        slack := Function.update s.slack a fun _ => 0 }

/-- `MAX_EXTRA_ROOTS_NUMBER` -/
def maxExtraRootsNumber : ℕ := 32

/-- `push_extra_root` -/
def pushExtraRoot (p : RootRef) : Exec Unit := fun s =>
  if maxExtraRootsNumber ≤ s.extraRoots.length then
    .error (.exit "ERROR: push_extra_roots: extra_roots_pool overflow\n") s
  else .ok () { s with extraRoots := p :: s.extraRoots }

/-- `pop_extra_root` -/
def popExtraRoot (p : RootRef) : Exec Unit := fun s =>
  match s.extraRoots with
  | [] => .error (.exit "ERROR: pop_extra_root: extra_roots are empty\n") s
  | q :: rest =>
    if q.same p then .ok () { s with extraRoots := rest }
    else .error (.exit "ERROR: pop_extra_root: stack invariant violation\n")
      { s with extraRoots := rest }

/-- `push_extra_root` in a loop -/
def pushExtraRoots : List RootRef → Exec Unit
  | [] => return ()
  | p :: ps => do
    pushExtraRoot p
    pushExtraRoots ps

/-- `pop_extra_root` in a loop -/
def popExtraRoots : List RootRef → Exec Unit
  | [] => return ()
  | p :: ps => do
    popExtraRoot p
    popExtraRoots ps

end Collections

end LamaSM
