import LamaSM.Gc.Marking

/-! The compact phase and allocation (`compact_phase`, `gc_alloc`, `alloc` in `runtime/gc.c`).

    The live objects get their new places in the old heap (`compute_locations`), the old heap is copied
    into a new region, references are rewritten there (`update_references`), and last the objects slide
    down to their places (`physically_relocate`). A forward address is one of the old heap all along. -/

namespace LamaSM
namespace Gc
open Lib

/-- `MINIMUM_HEAP_CAPACITY`, in words -/
def minimumHeapCapacity : ℕ := 64

/-- `EXTRA_ROOM_HEAP_COEFFICIENT` -/
def extraRoomHeapCoefficient : ℕ := 2

section Compact

variable (heap oldHeap : MemoryChunk)

/-- The loop of `compute_locations`: the memory and `free_ptr` behind it. -/
def computeLocationsLoop : ℕ → ByteMemory → ℕ → ℕ → Result (ByteMemory × ℕ)
  | 0, _, _, _ => throw .timeout
  | fuel + 1, m, scanIter, freePtr =>
    if heapIsDoneIterator heap scanIter then return (m, freePtr)
    else do
      let objContent ← getObjectContentPtr m scanIter
      if isMarked m objContent then do
        let size ← objSizeHeaderPtr m scanIter
        let m := setForwardAddress m objContent freePtr
        let scanIter ← heapNextObjIterator m scanIter
        computeLocationsLoop fuel m scanIter (freePtr + wordSize * bytesToWords size)
      else do
        let scanIter ← heapNextObjIterator m scanIter
        computeLocationsLoop fuel m scanIter freePtr

/-- `compute_locations`, with the memory it leaves; the result is a number of words. -/
def computeLocations (fuel : ℕ) (m : ByteMemory) : Result (ByteMemory × ℕ) := do
  let (m, freePtr) ← computeLocationsLoop heap fuel m heap.begin heap.begin
  return (m, (freePtr - heap.begin) / wordSize)

/-- The new address of the object whose contents the old address `value` points to: `heap` holds a copy of
    the old heap. The differences are those of pointers. -/
def newAddress (m : ByteMemory) (value : Word) : Result Word := do
  let objPtr := heap.begin + (value.toNat - oldHeap.begin)
  let newAddr : ℤ := heap.begin + ((getForwardAddress m objPtr : ℤ) - oldHeap.begin)
  let type ← getTypeRowPtr m objPtr
  return BitVec.ofInt 64 (newAddr + getHeaderSize type)

/-- The address lies in the old heap. -/
def inOldHeap (value : Word) : Bool :=
  decide (oldHeap.begin ≤ value.toNat) && decide (value.toNat ≤ oldHeap.current)

/-- The body of the loop over fields in `update_references` -/
def updateField (m : ByteMemory) (it : ObjFieldIterator) : Result ByteMemory :=
  let fieldValue := load64 m it.curField
  if !inOldHeap oldHeap fieldValue then return m
  else do
    let newAddr ← newAddress heap oldHeap m fieldValue
    return store64 m it.curField newAddr

/-- The loop over objects in `update_references`; `bound` bounds the turns of the loops inside it. -/
def updateReferencesLoop (bound : ℕ) : ℕ → ByteMemory → ℕ → Result ByteMemory
  | 0, _, _ => throw .timeout
  | fuel + 1, m, it =>
    if heapIsDoneIterator heap it then return m
    else do
      let obj ← getObjectContentPtr m it
      let m ← if isMarked m obj then forPtrFields id (updateField heap oldHeap) bound m it else pure m
      let it ← heapNextObjIterator m it
      updateReferencesLoop bound fuel m it

/-- The body of `scan_and_fix_region` -/
def fixWord (m : ByteMemory) (ptr : ℕ) : Result ByteMemory :=
  let ptrValue := load64 m ptr
  if isValidPointer ptrValue && inOldHeap oldHeap ptrValue then do
    let newAddr ← newAddress heap oldHeap m ptrValue
    return store64 m ptr newAddr
  else return m

/-- `scan_and_fix_region` -/
def scanAndFixRegion (m : ByteMemory) (start stop : ℕ) : Result ByteMemory :=
  (wordsBetween start stop).foldlM (fixWord heap oldHeap) m

end Compact

section Phases

variable (g : Globals) (oldHeap : MemoryChunk)

/-- The extra root is skipped by `scan_and_fix_region_roots`: it points into the stack or into the global
    area. -/
def skipsRoot (p : ℕ) : Bool :=
  (decide (g.stackTop ≤ p) && decide (p < g.stackBottom)) ||
    (decide (p ≤ g.stopCustomData) && decide (g.startCustomData ≤ p))

/-- `scan_and_fix_region_roots` -/
def scanAndFixRegionRoots (m : ByteMemory) : Result ByteMemory :=
  g.extraRoots.foldlM (fun m p =>
    if !isValidPointer (load64 m p) || skipsRoot g p then return m else fixWord g.heap oldHeap m p) m

/-- `update_references`; the region of the stack ends one word higher than the one that is marked. -/
def updateReferences (fuel : ℕ) : Result Globals := do
  let m ← updateReferencesLoop g.heap oldHeap fuel fuel g.mem g.heap.begin
  let m ← scanAndFixRegion g.heap oldHeap m (g.stackTop + wordSize) (g.stackBottom + wordSize)
  let m ← scanAndFixRegionRoots g oldHeap m
  let m ← scanAndFixRegion g.heap oldHeap m g.startCustomData g.stopCustomData
  return { g with mem := m }

/-- The loop of `physically_relocate` -/
def physicallyRelocateLoop (heap : MemoryChunk) : ℕ → ByteMemory → ℕ → Result ByteMemory
  | 0, _, _ => throw .timeout
  | fuel + 1, m, fromIter =>
    if heapIsDoneIterator heap fromIter then return m
    else do
      let obj ← getObjectContentPtr m fromIter
      let nextIter ← heapNextObjIterator m fromIter
      if isMarked m obj then do
        let dst := heap.begin + (getForwardAddress m obj - oldHeap.begin)
        let size ← objSizeHeaderPtr m fromIter
        let m := moveBytes m dst fromIter size
        let content ← getObjectContentPtr m dst
        physicallyRelocateLoop heap fuel (unmarkObject m content) nextIter
      else physicallyRelocateLoop heap fuel m nextIter

/-- `physically_relocate` -/
def physicallyRelocate (fuel : ℕ) : Result Globals := do
  let m ← physicallyRelocateLoop oldHeap g.heap fuel g.mem g.heap.begin
  return { g with mem := m }

/-- `next_heap_pseudo_size`, in words -/
def nextHeapPseudoSize (liveSize additionalSize : ℕ) : ℕ :=
  max (max (sizeT (liveSize * extraRoomHeapCoefficient + additionalSize)) minimumHeapCapacity) g.heap.size

/-- `compact_phase`. `mmap` gives the address of a new region of a number of bytes, if there is one; without
    one `memcpy` writes to `MAP_FAILED` unless there is nothing to copy. Unmapping the old heap changes no
    byte that is read again. -/
def compactPhase (fuel : ℕ) (mmap : ℕ → Option ℕ) (additionalSize : ℕ) : Result Globals := do
  let (m, liveSize) ← computeLocations g.heap fuel g.mem
  let pseudoSize := nextHeapPseudoSize g liveSize additionalSize
  let oldHeap := g.heap
  match mmap (wordsToBytes pseudoSize) with
  | none =>
    if oldHeap.size = 0 then throw (.exit "ERROR: compact_phase: mmap failed\n")
    else throw (.undefined (.object (2 ^ 64 - 1)))
  | some start => do
    let m := moveBytes m start oldHeap.begin (wordsToBytes oldHeap.size)
    let heap := ⟨start, start + wordsToBytes pseudoSize, start + (oldHeap.current - oldHeap.begin), pseudoSize⟩
    let g ← updateReferences { g with mem := m, heap := heap } oldHeap fuel
    let g ← physicallyRelocate g oldHeap fuel
    return { g with heap := { heap with current := start + wordsToBytes liveSize } }

/-- `gc_alloc_on_existing_heap`, none for NULL; `size` is in words. -/
def gcAllocOnExistingHeap (size : ℕ) : Option ℕ × Globals :=
  if sizeT (g.heap.current + wordsToBytes size) ≤ g.heap.end then
    (some g.heap.current, { g with
      mem := clearBytes g.mem g.heap.current (wordsToBytes size)
      heap := { g.heap with current := g.heap.current + wordsToBytes size } })
  else (none, g)

/-- `gc_alloc` -/
def gcAlloc (fuel : ℕ) (mmap : ℕ → Option ℕ) (size : ℕ) : Result (Option ℕ × Globals) := do
  let g ← markPhase fuel g
  let g ← compactPhase g fuel mmap size
  return gcAllocOnExistingHeap g size

/-- `alloc`; `size` is in bytes. -/
def alloc (fuel : ℕ) (mmap : ℕ → Option ℕ) (size : ℕ) : Result (Option ℕ × Globals) :=
  let p := gcAllocOnExistingHeap g (bytesToWords size)
  if p.1.isSome then return p
  else gcAlloc p.2 fuel mmap (bytesToWords size)

end Phases

end Gc
end LamaSM
