import LamaSM.Gc.Representation

/-! Allocation of objects (`alloc_string`, `alloc_array`, `alloc_sexp`, `alloc_closure` in `runtime/gc.c`).

    A new object is one of zeros behind the others. Whether a collection comes before it or not, what the
    state sees of it is one of the allocations an `Env` may choose. -/

namespace LamaSM
namespace Gc
open Lib

/-! ### The code -/

section Code

variable (g : Globals) (fuel : ℕ) (mmap : ℕ → Option ℕ)

/-- What the functions below share: a block with its header, and a forward word of zero. -/
def allocObject (size tag len : ℕ) : Result (ℕ × Globals) := do
  let (p, g) ← alloc g fuel mmap size
  match p with
  | none => throw (.undefined (.object 0))
  | some obj => return (obj, { g with mem := store64 (store64 g.mem obj (headerOf tag len)) (obj + wordSize) 0 })

/-- `alloc_string` -/
def allocString (len : ℕ) : Result (ℕ × Globals) := allocObject g fuel mmap (stringSize len) stringTag len

/-- `alloc_array` -/
def allocArray (len : ℕ) : Result (ℕ × Globals) := allocObject g fuel mmap (arraySize len) arrayTag len

/-- `alloc_sexp` -/
def allocSexp (members : ℕ) : Result (ℕ × Globals) := do
  let (obj, g) ← allocObject g fuel mmap (sexpSize members) sexpTag members
  return (obj, { g with mem := store64 g.mem (obj + dataHeaderSz) 0 })

/-- `alloc_closure` -/
def allocClosure (captured : ℕ) : Result (ℕ × Globals) :=
  allocObject g fuel mmap (closureSize captured) closureTag captured

end Code

/-! ### New objects -/

/-- The object of a kind and a length whose contents are zeros. -/
def zeroed : LamaType → ℕ → Obj
  | .string, n => .string (List.replicate (n + 1) 0)
  | .array, n => .array (List.replicate n 0)
  | .sexp, n => .sexp 0 (List.replicate n 0)
  | .closure, n => .closure 0 (List.replicate (n - 1) 0)

section Zeros

variable {m : ByteMemory} {a j n : ℕ} {type : LamaType} {g : Globals} {os : List Obj} {o : Obj}

theorem bytesFrom_zeros : ∀ {n a : ℕ}, (∀ b, a ≤ b → b < a + n → m b = 0) → bytesFrom m a n = List.replicate n 0
  | 0, _, _ => rfl
  | n + 1, a, h => by
    rw [bytesFrom, h a (Nat.le_refl _) (by omega), bytesFrom_zeros fun b hb hlt => h b (by omega) (by omega)]
    rfl

theorem load64_zeros (h : ∀ b, a ≤ b → b < a + 8 → m b = 0) : load64 m a = 0 := by
  rw [load64, bytesFrom_zeros h]
  rfl

theorem wordsAt_zeros (h : ∀ b, a ≤ b → b < a + 8 * n → m b = 0) : WordsAt m a (List.replicate n 0) := by
  intro k w hk
  obtain ⟨hlt, rfl⟩ := List.getElem?_eq_some_iff.mp hk
  rw [List.length_replicate] at hlt
  rw [List.getElem_replicate]
  exact load64_zeros fun b hb hb' => h b (by omega) (by omega)

/-- A closure has at least its entry. -/
def Sized : LamaType → ℕ → Prop
  | .closure, n => 0 < n
  | _, _ => True

@[simp] theorem kind_zeroed : kind (zeroed type n) = type := by cases type <;> rfl

theorem len_zeroed (h : Sized type n) : (zeroed type n).len = n := by
  cases type with
  | closure =>
    have hpos : 0 < n := h
    simp only [zeroed, Obj.len, List.length_replicate]
    omega
  | string | array | sexp => simp [zeroed, Obj.len]

/-- Zeros with a header before them are an object of zeros. -/
theorem objAt_zeroed (h : Sized type n) (hfits : objSize (zeroed type n) < 2 ^ 61)
    (hheader : load64 m j = headerOf (kindTag type) n)
    (hzeros : ∀ b, j + dataHeaderSz ≤ b → b < j + objSize (zeroed type n) → m b = 0) :
    ObjAt m j (zeroed type n) := by
  refine ⟨⟨by rw [hheader, kind_zeroed, len_zeroed h], ?_, hfits⟩, ?_⟩
  · cases type <;> simp [zeroed, List.replicate_succ]
  · cases type with
    | string =>
      simp only [zeroed, objSize, List.length_replicate, ContentsAt] at hzeros ⊢
      exact bytesFrom_zeros fun b hb hlt => hzeros b hb (by omega)
    | array =>
      simp only [zeroed, objSize, List.length_replicate, ContentsAt] at hzeros ⊢
      exact wordsAt_zeros fun b hb hlt => hzeros b hb (by omega)
    | sexp | closure =>
      simp only [zeroed, objSize, List.length_replicate, ContentsAt] at hzeros ⊢
      exact wordsAt_zeros (n := _ + 1) fun b hb hlt => hzeros b hb (by omega)

end Zeros

/-! ### One more object -/

section Grow

variable {M : Machine} {s : State} {g : Globals} {os : List Obj} {o : Obj} {m' : ByteMemory} {a : Word}

theorem Represents.congr {s' : State} (h : Represents M s g os) (hheap : s'.heap = s.heap) (hstack : s'.stack = s.stack)
    (htop : s'.top = s.top) (hroots : s'.extraRoots = s.extraRoots) (hslack : s'.slack = s.slack) :
    Represents M s' g os := by
  refine ⟨by rw [hheap, h.heap], h.layout, h.clean, by rw [hstack]; exact h.stack, by rw [htop]; exact h.top, ?_, h.cells,
    h.placed, by rw [hslack]; exact h.slack⟩
  rw [hroots]
  refine h.roots.imp fun r p hr => ?_
  cases hr with
  | slot hlow hhigh => exact .slot (by rw [htop]; exact hlow) hhigh
  | cell helse hcontent => exact .cell helse hcontent

theorem heapOf_append {i : ℕ} (ha : a.toNat = laidEnd room i os + dataHeaderSz) :
    heapOf i (os ++ [o]) = Function.update (heapOf i os) a (some o) := by
  funext w
  by_cases hw : w = a
  · rw [hw, Function.update_self]
    refine heapOf_eq_some.mpr ⟨laidEnd room i os, ?_, ha⟩
    rw [laid_append]
    exact List.mem_append_right _ List.mem_cons_self
  · rw [Function.update_of_ne hw]
    apply Option.ext
    intro o'
    rw [heapOf_eq_some, heapOf_eq_some, laid_append]
    constructor
    · rintro ⟨j, hj, hwj⟩
      rcases List.mem_append.mp hj with hj | hj
      · exact ⟨j, hj, hwj⟩
      · cases List.mem_singleton.mp hj
        exact absurd (BitVec.eq_of_toNat_eq (hwj.trans ha.symm)) hw
    · rintro ⟨j, hj, hwj⟩
      exact ⟨j, List.mem_append_left _ hj, hwj⟩

/-- The first free address has no object. -/
theorem heapOf_end {i : ℕ} (ha : a.toNat = laidEnd room i os + dataHeaderSz) : heapOf i os a = none := by
  refine Option.not_isSome_iff_eq_none.mp fun hsome => ?_
  obtain ⟨j, o, hj, haj⟩ := heapOf_isSome.mp hsome
  have hend := (laid_bounds hj).2
  have hpos := room_pos o
  omega

/-- What happens inside the heap leaves the rest of the state alone. -/
theorem Represents.inHeap (h : Represents M s g os) {heap : Heap} {slack : Word → ℕ → UInt8} {current : ℕ}
    {os' : List Obj}
    (hrest : ∀ b, b < g.heap.begin ∨ g.heap.end ≤ b → m' b = g.mem b) (hheap : heap = heapOf g.heap.begin os')
    (hlayout : HeapAt m' { g.heap with current := current } os')
    (hclean : ∀ j o, (j, o) ∈ laid room g.heap.begin os' → ¬ Marked m' j ∧ ¬ Enqueued m' j)
    (hfilled : current ≤ g.heap.end) (hslack : SlackAt m' g.heap.begin os' slack) :
    Represents M { s with heap := heap, slack := slack } { g with mem := m', heap := { g.heap with current := current } } os' := by
  have hword : ∀ p, (p + 8 ≤ g.heap.begin ∨ g.heap.end ≤ p) → load64 m' p = load64 g.mem p := fun p hp =>
    Copied.load64 fun k hk => hrest _ (by omega)
  have hslot : ∀ i ≤ M.maxStack, load64 m' (slotAddress M i) = load64 g.mem (slotAddress M i) := by
    intro i hi
    refine hword _ ?_
    have hstack := h.placed.stack
    unfold slotAddress at *
    omega
  refine ⟨hheap, hlayout, hclean, fun i hi => ?_, h.top, ?_, h.cells, ?_, hslack⟩
  · exact (hslot i (Nat.le_of_lt hi)).trans (h.stack i hi)
  · refine h.roots.imp fun r p hr => ?_
    cases hr with
    | slot hlow hhigh => exact .slot hlow hhigh
    | cell helse hcontent =>
      refine .cell ⟨helse.stack, helse.custom, helse.heap⟩ ?_
      dsimp only
      rw [hword p helse.heap]
      exact hcontent
  · refine ⟨⟨h.placed.chunk.end, hfilled⟩, h.placed.lt, h.placed.zone, h.placed.bottom, h.placed.stack, h.placed.custom,
      h.placed.apart, fun p hp => ?_⟩
    have hsame : load64 m' p = load64 g.mem p := by
      rcases List.mem_cons.mp hp with rfl | hp
      · dsimp only
        rw [h.placed.bottom]
        exact hslot _ (Nat.le_refl _)
      · have hp' : p ∈ wordsBetween g.startCustomData g.stopCustomData := hp
        have hbounds := mem_custom hp'
        have hcustom := h.placed.custom
        exact hword p (by omega)
    dsimp only
    rw [hsame]
    exact h.placed.foreign p hp

/-- An object placed behind the others. -/
theorem Represents.grow (h : Represents M s g os) (ha : a.toNat = g.heap.current + dataHeaderSz)
    (hend : g.heap.current + room o ≤ g.heap.end)
    (hrest : ∀ b, b < g.heap.current ∨ g.heap.current + room o ≤ b → m' b = g.mem b)
    (hobj : ObjAt m' g.heap.current o) (hmarked : ¬ Marked m' g.heap.current)
    (henqueued : ¬ Enqueued m' g.heap.current)
    (hzeros : ∀ b, g.heap.current + objSize o ≤ b → b < g.heap.current + room o → m' b = 0) :
    Represents M { s with
        heap := Function.update s.heap a (some o), slack := Function.update s.slack a fun _ => 0 }
      { g with mem := m', heap := { g.heap with current := g.heap.current + room o } } (os ++ [o]) := by
  have hbegin := le_laidEnd room os g.heap.begin
  rw [h.layout.current] at hbegin
  have hlt := h.placed.lt
  have hlast : laid room g.heap.begin (os ++ [o]) = laid room g.heap.begin os ++ [(g.heap.current, o)] := by
    rw [laid_append, h.layout.current]
    rfl
  refine h.inHeap (fun b hb => hrest b (by omega)) ?_ ⟨fun j o' hj => ?_, ?_, h.layout.aligned, ?_⟩ (fun j o' hj => ?_)
    hend fun j contents hj w hw k hk hroom => ?_
  · rw [h.heap, heapOf_append (by rw [h.layout.current]; exact ha)]
  · dsimp only at hj
    rw [hlast] at hj
    rcases List.mem_append.mp hj with hj | hj
    · have hplace := h.layout.place hj
      have hsize := objSize_le_room o'
      exact (h.layout.objects j o' hj).moved fun k hk => hrest _ (by omega)
    · cases List.mem_singleton.mp hj
      exact hobj
  · dsimp only
    rw [laidEnd_append, h.layout.current]
    rfl
  · dsimp only
    omega
  · rw [hlast] at hj
    rcases List.mem_append.mp hj with hj | hj
    · have hplace := h.layout.place hj
      have hroom := room_ge o'
      have hforward : Copied g.mem (j + 8) m' (j + 8) 8 := fun k hk => hrest _ (by omega)
      obtain ⟨hm, he, -⟩ := flags_copied hforward
      exact ⟨by rw [Marked, hm]; exact (h.clean j o' hj).1, by rw [Enqueued, he]; exact (h.clean j o' hj).2⟩
    · cases List.mem_singleton.mp hj
      exact ⟨hmarked, henqueued⟩
  · rw [hlast] at hj
    rcases List.mem_append.mp hj with hj | hj
    · have hplace := h.layout.place hj
      have hne : w ≠ a := by
        rintro rfl
        have hpos := room_ge (.string contents)
        omega
      rw [Function.update_of_ne hne, hrest _ (by omega)]
      exact h.slack j contents hj w hw k hk hroom
    · cases List.mem_singleton.mp hj
      obtain rfl : w = a := BitVec.eq_of_toNat_eq (hw.trans ha.symm)
      rw [Function.update_self, hzeros _ (by rw [objSize]; omega) (by omega)]

end Grow

/-! ### Allocation, with or without a collection -/

/-- What an allocation does to a state before it places the object: nothing, or a collection. -/
def Prepared (M : Machine) (s s' : State) : Prop :=
  s' = s ∨ ∃ heap forward slack, Relocates M.heapZone s.heap (rootWords M s) heap forward ∧
    s' = s.collected M heap forward slack

/-- The system maps a fresh region for every heap a collection may ask for. -/
def Maps (M : Machine) (g : Globals) (mmap : ℕ → Option ℕ) (words : ℕ) : Prop :=
  ∀ live, wordsToBytes live ≤ g.heap.current - g.heap.begin →
    ∃ start, mmap (wordsToBytes (nextHeapPseudoSize g live words)) = some start ∧
      Fresh M g start (wordsToBytes (nextHeapPseudoSize g live words))

/-- The state is one an allocation can start from: the scanned words and the roots are valid, and none is
    null while the heap has not begun. -/
structure Ready (M : Machine) (s : State) (g : Globals) (os : List Obj) : Prop where
  represents : Represents M s g os
  held : Held M [] s
  top : -1 ≤ s.top
  cells : ∀ id content, RootRef.cell id content ∈ s.extraRoots → Valid M s.heap content
  begun : 0 < g.heap.begin ∨ os = [] ∧ ∀ p ∈ rootAddresses g ++ fixedAddresses g, load64 g.mem p ≠ 0
  nonnull : s.allocs = 0 → 0 ∉ rootWords M s

/-- The outcome of an allocation: the block `p` is the object `o`, and the state sees it at `a`. Memory has
    changed in the two heaps and in the words a collection rewrites only. -/
structure Allocates (M : Machine) (s : State) (g : Globals) (mmap : ℕ → Option ℕ) (o : Obj) (p : ℕ) (a : Word)
    (s₁ : State) (m' : ByteMemory) (heap' : MemoryChunk) (os' : List Obj) : Prop where
  address : a.toNat = p + dataHeaderSz
  prepared : Prepared M s s₁
  zone : M.heapZone a = true
  free : s₁.heap a = none
  represents : Represents M { s₁ with
    heap := Function.update s₁.heap a (some o), slack := Function.update s₁.slack a fun _ => 0 }
    { g with mem := m', heap := heap' } os'
  chunk : (heap'.begin = g.heap.begin ∧ heap'.end = g.heap.end) ∨
    ∃ bytes, mmap bytes = some heap'.begin ∧ heap'.end = heap'.begin + bytes
  begun : 0 < g.heap.begin ∨ g.heap.end = 0 → 0 < heap'.begin
  words : ∀ q ∈ fixedAddresses g, M.heapZone (load64 g.mem q) = false → load64 m' q = load64 g.mem q
  rest : ∀ b, (b < g.heap.begin ∨ g.heap.end ≤ b) → (b < heap'.begin ∨ heap'.end ≤ b) →
    (∀ q ∈ fixedAddresses g, b < q ∨ q + 8 ≤ b) → m' b = g.mem b

section Allocate

variable {M : Machine} {s : State} {g : Globals} {os : List Obj} {type : LamaType} {n fuel : ℕ} {mmap : ℕ → Option ℕ}

theorem wordsToBytes_objSize {o : Obj} (hfits : objSize o < 2 ^ 61) :
    wordsToBytes (bytesToWords (objSize o)) = room o := by
  have hge := objSize_ge o
  rw [bytesToWords_eq (by omega) (by omega), wordsToBytes, wordSize, room]
  omega

/-- Nothing changes outside the block. -/
theorem placed_rest {m : ByteMemory} {b cur : ℕ} {hd : Word} {o : Obj} (hb : b < cur ∨ cur + room o ≤ b) :
    store64 (store64 (clearBytes m cur (room o)) cur hd) (cur + wordSize) 0 b = m b := by
  have hroom := room_ge o
  unfold wordSize
  rw [store64_of_not_mem (by omega), store64_of_not_mem (by omega), clearBytes_of_not_mem hb]

/-- A block of zeros behind the objects becomes one of them with its header. -/
theorem Represents.place (h : Represents M s g os) (hsized : Sized type n) (hfits : objSize (zeroed type n) < 2 ^ 61)
    (hend : g.heap.current + room (zeroed type n) ≤ g.heap.end) {a : Word}
    (ha : a.toNat = g.heap.current + dataHeaderSz) :
    Represents M { s with
      heap := Function.update s.heap a (some (zeroed type n)), slack := Function.update s.slack a fun _ => 0 } { g with
      mem := store64 (store64 (clearBytes g.mem g.heap.current (room (zeroed type n))) g.heap.current
        (headerOf (kindTag type) n)) (g.heap.current + wordSize) 0
      heap := { g.heap with current := g.heap.current + room (zeroed type n) } } (os ++ [zeroed type n]) := by
  have hroom := room_ge (zeroed type n)
  have hsize := objSize_le_room (zeroed type n)
  unfold wordSize
  have hforward : forwardWord (store64 (store64 (clearBytes g.mem g.heap.current (room (zeroed type n)))
      g.heap.current (headerOf (kindTag type) n)) (g.heap.current + 8) 0) (g.heap.current + dataHeaderSz) = 0 := by
    rw [forwardWord, show forwardPtr (g.heap.current + dataHeaderSz) = g.heap.current + 8 by
      unfold forwardPtr toData wordSize dataHeaderSz
      omega]
    exact load64_store64
  refine h.grow ha hend (fun b hb => placed_rest hb) (objAt_zeroed hsized hfits ?_ fun b hlow hhigh => ?_) ?_ ?_
    fun b hlow hhigh => ?_
  · rw [load64_store64_of_disjoint (by omega), load64_store64]
  · unfold dataHeaderSz at hlow
    rw [store64_of_not_mem (by omega), store64_of_not_mem (by omega), clearBytes_of_mem (by omega) (by omega)]
  · rw [Marked, isMarked_eq, hforward]
    decide
  · rw [Enqueued, isEnqueued_eq, hforward]
    decide
  · have hge := objSize_ge (zeroed type n)
    rw [store64_of_not_mem (by omega), store64_of_not_mem (by omega), clearBytes_of_mem (by omega) hhigh]

/-- The address of the new object is free and one of the heap's. -/
theorem Represents.allocated (h : Represents M s g os) (hsized : Sized type n)
    (hfits : objSize (zeroed type n) < 2 ^ 61) (hend : g.heap.current + room (zeroed type n) ≤ g.heap.end) :
    ∃ a : Word, a.toNat = g.heap.current + dataHeaderSz ∧ M.heapZone a = true ∧ s.heap a = none ∧
      Represents M { s with
        heap := Function.update s.heap a (some (zeroed type n)), slack := Function.update s.slack a fun _ => 0 } { g with
        mem := store64 (store64 (clearBytes g.mem g.heap.current (room (zeroed type n))) g.heap.current
          (headerOf (kindTag type) n)) (g.heap.current + wordSize) 0
        heap := { g.heap with current := g.heap.current + room (zeroed type n) } } (os ++ [zeroed type n]) := by
  have hroom := room_ge (zeroed type n)
  have hlt := h.placed.lt
  have hbegin := le_laidEnd room os g.heap.begin
  rw [h.layout.current] at hbegin
  have ha : (BitVec.ofNat 64 (g.heap.current + dataHeaderSz) : Word).toNat = g.heap.current + dataHeaderSz := by
    rw [BitVec.toNat_ofNat]
    unfold dataHeaderSz
    omega
  have hplace := h.place hsized hfits hend ha
  have hlast : (g.heap.current, zeroed type n) ∈ laid room g.heap.begin (os ++ [zeroed type n]) := by
    rw [laid_append, h.layout.current]
    exact List.mem_append_right _ List.mem_cons_self
  have hmod := (hplace.layout.place hlast).1
  refine ⟨_, ha, h.placed.zone _ ?_ ?_ ?_ ?_, ?_, hplace⟩
  · rw [ha]
    unfold dataHeaderSz
    omega
  · intro hzero
    rw [hzero] at ha
    have : (0 : Word).toNat = 0 := rfl
    unfold dataHeaderSz at ha
    omega
  · rw [ha]
    omega
  · rw [ha]
    unfold dataHeaderSz
    omega
  · rw [h.heap]
    exact heapOf_end (by rw [h.layout.current]; exact ha)

/-- `alloc` and the header: the state sees one of the allocations of its model. -/
theorem allocObject_simulates (h : Ready M s g os) (hsized : Sized type n) (hfits : objSize (zeroed type n) < 2 ^ 61)
    (hfuel : g.heap.current - g.heap.begin < fuel) (hmmap : Maps M g mmap (bytesToWords (objSize (zeroed type n)))) :
    ∃ p a s₁ m' heap' os', allocObject g fuel mmap (objSize (zeroed type n)) (kindTag type) n =
        .ok (p, { g with mem := m', heap := heap' }) ∧
      Allocates M s g mmap (zeroed type n) p a s₁ m' heap' os' := by
  have hwords := wordsToBytes_objSize hfits
  have hroom : room (zeroed type n) < 2 ^ 62 := by
    unfold room
    omega
  have hrep := h.represents
  have hlt := hrep.placed.lt
  have hfilled := hrep.placed.chunk.filled
  have hbegin := le_laidEnd room os g.heap.begin
  rw [hrep.layout.current] at hbegin
  have hexact : sizeT (g.heap.current + wordsToBytes (bytesToWords (objSize (zeroed type n)))) =
      g.heap.current + room (zeroed type n) := by
    rw [hwords, sizeT_of_lt (by omega)]
  by_cases hend : g.heap.current + room (zeroed type n) ≤ g.heap.end
  · have hpos := room_pos (zeroed type n)
    obtain ⟨a, ha, hzone, hfree, hplace⟩ := hrep.allocated hsized hfits hend
    refine ⟨g.heap.current, a, s, _, _, _, ?_, ha, .inl rfl, hzone, hfree, hplace, .inl ⟨rfl, rfl⟩,
      fun hbegun => hbegun.resolve_right (by omega), fun q hq _ => Copied.load64 fun k hk => placed_rest ?_, fun b hb _ _ => placed_rest (by omega)⟩
    · have hblock : gcAllocOnExistingHeap g (bytesToWords (objSize (zeroed type n))) = _ := if_pos (hexact.trans_le hend)
      rw [allocObject, alloc, hblock, hwords]
      rfl
    · have hout := hrep.outside h.top (List.mem_append_right _ hq)
      omega
  · have hcells : ∀ w, (heapOf g.heap.begin os w).isSome → M.heapZone w = true := by
      rw [← hrep.heap]
      exact h.held.heap.zone
    have hmovable := hrep.movable h.held h.top h.cells h.begun
    have hsmall : bytesToWords (objSize (zeroed type n)) ≤ 2 ^ 61 := by
      unfold wordsToBytes wordSize at hwords
      omega
    obtain ⟨live, hlive, hgc⟩ := gcAlloc_exact hmovable hfuel hsmall hcells
    obtain ⟨start, hstart, hfresh⟩ := hmmap live hlive
    have hwide : 2 * live + bytesToWords (objSize (zeroed type n)) ≤
        nextHeapPseudoSize g live (bytesToWords (objSize (zeroed type n))) :=
      le_nextHeapPseudoSize (by unfold wordsToBytes wordSize at hlive; omega) hsmall
    generalize nextHeapPseudoSize g live (bytesToWords (objSize (zeroed type n))) = size at *
    obtain ⟨forward, os', m', hcollected, halloc⟩ := hgc start hstart (hrep.mapped h.top hfresh)
    have hmoved := hrep.collected h.top hfresh (by omega) hcollected
    have hmapped := hrep.mapped h.top hfresh
    have hspace : start + wordsToBytes live + room (zeroed type n) ≤ start + wordsToBytes size := by
      rw [← hwords]
      unfold wordsToBytes wordSize
      omega
    obtain ⟨a, ha, hzone, hfree, hplace⟩ := hmoved.allocated hsized hfits hspace
    have hrelocates : Relocates M.heapZone s.heap (rootWords M s) (heapOf start os') forward := by
      refine relocates_congr (fun w hw => ?_) (hrep.heap ▸ hcollected.relocates)
      exact hrep.scanned_iff h.held h.top hw
    have hblock : ∀ b, (b < start ∨ start + wordsToBytes size ≤ b) →
        b < start + wordsToBytes live ∨ start + wordsToBytes live + room (zeroed type n) ≤ b := fun b hb => by omega
    refine ⟨_, a, _, _, _, _, ?_, ha, .inr ⟨_, forward, _, hrelocates, rfl⟩, hzone, hfree, hplace, .inr ⟨_, hstart, rfl⟩,
      fun _ => hfresh.pos, fun q hq hzero => ?_, fun b hb hb' hbf => (placed_rest (hblock b hb')).trans (hcollected.rest b hb hb' hbf)⟩
    · have hnone : gcAllocOnExistingHeap g (bytesToWords (objSize (zeroed type n))) = (none, g) :=
        if_neg (by rw [hexact]; exact hend)
      rw [allocObject, alloc, hnone]
      dsimp only
      rw [Option.isSome_none, if_neg Bool.false_ne_true, halloc, hwords]
      rfl
    · have hapart := hmapped.apart q hq
      have hword := hcollected.words q hq
      rw [relocateWord_of_zone hzero] at hword
      refine (Copied.load64 fun k hk => placed_rest ?_).trans hword
      dsimp only
      omega

end Allocate

end Gc
end LamaSM
