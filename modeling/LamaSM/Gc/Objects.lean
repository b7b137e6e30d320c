import LamaSM.Memory
import LamaSM.Lib.ByteMemory

/-! Objects in memory and their iterators (`runtime/gc.c`, `runtime/gc.h`, `runtime/runtime_common.h`).

    Memory is a byte at every address. An object is a header word, a forward word and its contents;
    functions take the address of the header or of the contents, as in the source. The forward word
    holds the address of a header, of contents while marking, and two flags in its lowest bits. -/

namespace LamaSM
namespace Gc
open Lib

inductive LamaType
  | array | closure | string | sexp
  deriving DecidableEq, Repr

/-- The bounds and the first free byte of the heap as addresses, its size in words. -/
structure MemoryChunk where
  «begin» : ℕ
  «end» : ℕ
  current : ℕ
  size : ℕ
  deriving DecidableEq, Repr

/-- `sizeof (size_t)` -/
def wordSize : ℕ := 8

/-- `DATA_HEADER_SZ` -/
def dataHeaderSz : ℕ := 16

/-- `MEMBER_SIZE` -/
def memberSize : ℕ := 8

/-- A number as a `size_t`. -/
def sizeT (n : ℕ) : ℕ := n % 2 ^ 64

/-- The macro `BYTES_TO_WORDS`; the subtraction is one of `size_t`. -/
def bytesToWords (bytes : ℕ) : ℕ := sizeT (bytes + (2 ^ 64 - 1)) / wordSize + 1

/-- The macro `WORDS_TO_BYTES` -/
def wordsToBytes (words : ℕ) : ℕ := words * wordSize

/-- The macro `TO_DATA` -/
def toData (x : ℕ) : ℕ := x - dataHeaderSz

/-! ### Header words -/

/-- The macro `LEN` -/
def len (header : Word) : ℕ := ((header &&& ~~~7#64) >>> 3).toNat

/-- The macro `TAG` -/
def tag (header : Word) : ℕ := (header &&& 7#64).toNat

/-- `STRING_TAG`, `ARRAY_TAG`, `SEXP_TAG`, `CLOSURE_TAG` -/
def stringTag : ℕ := 1
def arrayTag : ℕ := 3
def sexpTag : ℕ := 5
def closureTag : ℕ := 7

/-- The header word of an object of length `n`. -/
def headerOf (tag n : ℕ) : Word := BitVec.ofNat 64 tag ||| (BitVec.ofNat 64 n <<< 3)

/-- `get_header_size` -/
def getHeaderSize : LamaType → ℕ := fun _ => dataHeaderSz

/-- `array_size` -/
def arraySize (sz : ℕ) : ℕ := sizeT (getHeaderSize .array + memberSize * sz)

/-- `string_size` -/
def stringSize (len : ℕ) : ℕ := sizeT (getHeaderSize .string + len + 1)

/-- `closure_size` -/
def closureSize (sz : ℕ) : ℕ := sizeT (getHeaderSize .closure + memberSize * sz)

/-- `sexp_size` -/
def sexpSize (members : ℕ) : ℕ := sizeT (getHeaderSize .sexp + memberSize * (members + 1))

/-- `get_type_header_ptr`; another tag raises SIGSEGV, whose handler ends the program. -/
def getTypeHeaderPtr (m : ByteMemory) (ptr : ℕ) : Result LamaType :=
  if tag (load64 m ptr) = arrayTag then return .array
  else if tag (load64 m ptr) = stringTag then return .string
  else if tag (load64 m ptr) = closureTag then return .closure
  else if tag (load64 m ptr) = sexpTag then return .sexp
  else throw (.exit "")

/-- `get_type_row_ptr` -/
def getTypeRowPtr (m : ByteMemory) (ptr : ℕ) : Result LamaType := getTypeHeaderPtr m (toData ptr)

/-- `obj_size_header_ptr` -/
def objSizeHeaderPtr (m : ByteMemory) (ptr : ℕ) : Result ℕ := do
  let type ← getTypeHeaderPtr m ptr
  match type with
  | .array => return arraySize (len (load64 m ptr))
  | .string => return stringSize (len (load64 m ptr))
  | .closure => return closureSize (len (load64 m ptr))
  | .sexp => return sexpSize (len (load64 m ptr))

/-- `get_obj_header_ptr` -/
def getObjHeaderPtr (m : ByteMemory) (ptr : ℕ) : Result ℕ := do
  let type ← getTypeRowPtr m ptr
  return ptr - getHeaderSize type

/-- `get_object_content_ptr` -/
def getObjectContentPtr (m : ByteMemory) (headerPtr : ℕ) : Result ℕ := do
  let type ← getTypeHeaderPtr m headerPtr
  return headerPtr + getHeaderSize type

/-- `get_end_of_obj` -/
def getEndOfObj (m : ByteMemory) (headerPtr : ℕ) : Result ℕ := do
  let size ← objSizeHeaderPtr m headerPtr
  return headerPtr + size

/-! ### Forward words -/

/-- The macro `GET_FORWARD_ADDRESS` -/
def GET_FORWARD_ADDRESS (x : Word) : Word := x &&& ~~~3#64

/-- The macro `SET_FORWARD_ADDRESS` -/
def SET_FORWARD_ADDRESS (x addr : Word) : Word := (x &&& 3#64) ||| addr

/-- The macros `GET_MARK_BIT`, `SET_MARK_BIT`, `RESET_MARK_BIT` -/
def GET_MARK_BIT (x : Word) : Word := x &&& 1#64
def SET_MARK_BIT (x : Word) : Word := x ||| 1#64
def RESET_MARK_BIT (x : Word) : Word := x &&& ~~~1#64

/-- The macros `IS_ENQUEUED`, `MAKE_ENQUEUED`, `MAKE_DEQUEUED` -/
def IS_ENQUEUED (x : Word) : Word := x &&& 2#64
def MAKE_ENQUEUED (x : Word) : Word := x ||| 2#64
def MAKE_DEQUEUED (x : Word) : Word := x &&& ~~~2#64

/-- The address of `forward_address` in the object with contents at `obj`. -/
def forwardPtr (obj : ℕ) : ℕ := toData obj + wordSize

/-- Rewrites the forward word of the object. -/
def updateForward (m : ByteMemory) (obj : ℕ) (f : Word → Word) : ByteMemory :=
  store64 m (forwardPtr obj) (f (load64 m (forwardPtr obj)))

/-- `get_forward_address` -/
def getForwardAddress (m : ByteMemory) (obj : ℕ) : ℕ :=
  (GET_FORWARD_ADDRESS (load64 m (forwardPtr obj))).toNat

/-- `set_forward_address` -/
def setForwardAddress (m : ByteMemory) (obj addr : ℕ) : ByteMemory :=
  updateForward m obj fun x => SET_FORWARD_ADDRESS x (BitVec.ofNat 64 addr)

/-- `is_marked` -/
def isMarked (m : ByteMemory) (obj : ℕ) : Bool := GET_MARK_BIT (load64 m (forwardPtr obj)) != 0

/-- `mark_object` -/
def markObject (m : ByteMemory) (obj : ℕ) : ByteMemory := updateForward m obj SET_MARK_BIT

/-- `unmark_object` -/
def unmarkObject (m : ByteMemory) (obj : ℕ) : ByteMemory := updateForward m obj RESET_MARK_BIT

/-- `is_enqueued` -/
def isEnqueued (m : ByteMemory) (obj : ℕ) : Bool := IS_ENQUEUED (load64 m (forwardPtr obj)) != 0

/-- `make_enqueued` -/
def makeEnqueued (m : ByteMemory) (obj : ℕ) : ByteMemory := updateForward m obj MAKE_ENQUEUED

/-- `make_dequeued` -/
def makeDequeued (m : ByteMemory) (obj : ℕ) : ByteMemory := updateForward m obj MAKE_DEQUEUED

/-! ### Iterators -/

/-- `heap_next_obj_iterator` -/
def heapNextObjIterator (m : ByteMemory) (it : ℕ) : Result ℕ := do
  let objSize ← objSizeHeaderPtr m it
  return it + wordsToBytes (bytesToWords objSize)

/-- `heap_is_done_iterator` -/
def heapIsDoneIterator (heap : MemoryChunk) (it : ℕ) : Bool := decide (heap.current ≤ it)

/-- `is_valid_heap_pointer` -/
def isValidHeapPointer (heap : MemoryChunk) (p : Word) : Bool :=
  !isBoxedInt p && decide (heap.begin ≤ p.toNat) && decide (p.toNat ≤ heap.current)

/-- `is_valid_pointer` -/
def isValidPointer (p : Word) : Bool := !isBoxedInt p

structure ObjFieldIterator where
  type : LamaType
  objPtr : ℕ
  curField : ℕ
  deriving DecidableEq, Repr

/-- `field_is_done_iterator` -/
def fieldIsDoneIterator (m : ByteMemory) (it : ObjFieldIterator) : Result Bool := do
  let objEnd ← getEndOfObj m it.objPtr
  return decide (objEnd ≤ it.curField)

/-- `obj_next_field_iterator` -/
def objNextFieldIterator (it : ObjFieldIterator) : ObjFieldIterator :=
  { it with curField := it.curField + memberSize }

/-- `obj_next_ptr_field_iterator` -/
def objNextPtrFieldIterator (m : ByteMemory) : ℕ → ObjFieldIterator → Result ObjFieldIterator
  | 0, _ => throw .timeout
  | fuel + 1, it => do
    let it := objNextFieldIterator it
    let done ← fieldIsDoneIterator m it
    if done || isValidPointer (load64 m it.curField) then return it
    else objNextPtrFieldIterator m fuel it

/-- `field_begin_iterator` -/
def fieldBeginIterator (m : ByteMemory) (obj : ℕ) : Result ObjFieldIterator := do
  let type ← getTypeHeaderPtr m obj
  let curField ← getObjectContentPtr m obj
  match type with
  | .string => do
    let objEnd ← getEndOfObj m obj
    return ⟨type, obj, objEnd⟩
  | .closure | .sexp => return ⟨type, obj, curField + memberSize⟩
  | .array => return ⟨type, obj, curField⟩

/-- `ptr_field_begin_iterator` -/
def ptrFieldBeginIterator (m : ByteMemory) (fuel : ℕ) (obj : ℕ) : Result ObjFieldIterator := do
  let it ← fieldBeginIterator m obj
  let done ← fieldIsDoneIterator m it
  if done then return it
  else if isValidPointer (load64 m it.curField) then return it
  else objNextPtrFieldIterator m fuel it

section Loops

variable {σ : Type} (mem : σ → ByteMemory) (body : σ → ObjFieldIterator → Result σ)

/-- The turns of a loop over the pointers of an object: `body` at the fields that are pointers when the
    iterator comes to them. `mem` is the memory in what the loop changes. -/
def ptrFieldLoop : ℕ → σ → ObjFieldIterator → Result σ
  | 0, _, _ => throw .timeout
  | fuel + 1, s, it => do
    let done ← fieldIsDoneIterator (mem s) it
    if done then return s
    else do
      let s ← body s it
      let it ← objNextPtrFieldIterator (mem s) fuel it
      ptrFieldLoop fuel s it

/-- `for (it = ptr_field_begin_iterator (obj); !field_is_done_iterator (&it);
    obj_next_ptr_field_iterator (&it))` -/
def forPtrFields (fuel : ℕ) (s : σ) (obj : ℕ) : Result σ := do
  let it ← ptrFieldBeginIterator (mem s) fuel obj
  ptrFieldLoop mem body fuel s it

end Loops

end Gc
end LamaSM
