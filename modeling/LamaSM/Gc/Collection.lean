import LamaSM.Gc.Moving

/-! The compact phase as a whole: the live objects lie end to end in the new region, every pointer to
    one of them is rewritten, and nothing else outside the two regions has changed. -/

namespace LamaSM
namespace Gc
open Lib

/-! ### Words outside the heap -/

/-- The words outside the heap `update_references` rewrites. -/
def fixedAddresses (g : Globals) : List ℕ :=
  wordsBetween (g.stackTop + wordSize) (g.stackBottom + wordSize) ++
    g.extraRoots.filter (fun p => !skipsRoot g p) ++ wordsBetween g.startCustomData g.stopCustomData

section Words

variable {g : Globals} {oldHeap : MemoryChunk} {m : ByteMemory}

/-- The memory and the heap do not matter. -/
theorem fixedAddresses_heap {heap : MemoryChunk} :
    fixedAddresses { g with mem := m, heap := heap } = fixedAddresses g := rfl

/-- The extra roots that are not skipped are treated like the words of a region. -/
theorem scanAndFixRegionRoots_eq : scanAndFixRegionRoots g oldHeap m =
    (g.extraRoots.filter fun p => !skipsRoot g p).foldlM (fixWord g.heap oldHeap) m := by
  rw [scanAndFixRegionRoots]
  generalize g.extraRoots = roots
  induction roots generalizing m with
  | nil => rw [List.filter_nil, List.foldlM_nil, List.foldlM_nil]
  | cons p roots ih =>
    rw [List.foldlM_cons]
    cases hskip : skipsRoot g p with
    | true =>
      rw [Bool.or_true, if_pos rfl, pure_bind, List.filter_cons_of_neg (by rw [hskip]; decide), ih]
    | false =>
      rw [List.filter_cons_of_pos (by rw [hskip]; rfl), List.foldlM_cons, Bool.or_false]
      cases hvalid : isValidPointer (load64 m p) with
      | true =>
        rw [Bool.not_true, if_neg Bool.false_ne_true]
        exact bind_congr fun m => ih
      | false =>
        have hfix : fixWord g.heap oldHeap m p = pure m := by
          rw [fixWord, hvalid, Bool.false_and, if_neg Bool.false_ne_true]
        rw [Bool.not_false, if_pos rfl, hfix, pure_bind, pure_bind, ih]

theorem updateReferences_eq (fuel : ℕ) : updateReferences g oldHeap fuel = do
    let m ← updateReferencesLoop g.heap oldHeap fuel fuel g.mem g.heap.begin
    let m ← (fixedAddresses g).foldlM (fixWord g.heap oldHeap) m
    return { g with mem := m } := by
  rw [updateReferences]
  refine bind_congr fun m => ?_
  rw [fixedAddresses, List.foldlM_append, List.foldlM_append]
  simp only [scanAndFixRegion, scanAndFixRegionRoots_eq, bind_assoc]

end Words

/-! ### The compact phase -/

/-- The chunk is the region `mmap` gave, filled up to `current`. -/
structure ChunkOk (heap : MemoryChunk) : Prop where
  «end» : heap.end = heap.begin + wordsToBytes heap.size
  filled : heap.current ≤ heap.end

/-- The objects that are left, with the pointers rewritten by `f`. -/
def leftObjects (m : ByteMemory) (heap : MemoryChunk) (os : List Obj) (f : Word → Word) : List Obj :=
  (survivors (liveAt m) (laid room heap.begin os)).map (Obj.map f)

/-- A word that looks like a pointer into the heap points to a marked object. -/
def MarkedTarget (m : ByteMemory) (heap : MemoryChunk) (os : List Obj) (w : Word) : Prop :=
  isValidHeapPointer heap w = true → ∃ j o, (j, o) ∈ laid room heap.begin os ∧ w.toNat = j + dataHeaderSz ∧
    liveAt m j = true

/-- What the compact phase needs of the heap and of the words outside it. -/
structure Compactable (g : Globals) (os : List Obj) : Prop where
  heap : HeapAt g.mem g.heap os
  chunk : ChunkOk g.heap
  clean : ∀ j o, (j, o) ∈ laid room g.heap.begin os → ¬ Enqueued g.mem j
  pointers : ∀ j o, (j, o) ∈ laid room g.heap.begin os → liveAt g.mem j = true → ∀ w ∈ o.pointers,
    MarkedTarget g.mem g.heap os w
  words : ∀ p ∈ fixedAddresses g, MarkedTarget g.mem g.heap os (load64 g.mem p)
  fixed : (fixedAddresses g).Pairwise fun p q => p + 8 ≤ q ∨ q + 8 ≤ p
  apart : ∀ p ∈ fixedAddresses g, p + 8 ≤ g.heap.begin ∨ g.heap.end ≤ p

/-- The region of `bytes` from `start` on is a new one. -/
structure NewRegion (g : Globals) (start bytes : ℕ) : Prop where
  aligned : start % 8 = 0
  lt : start + bytes < 2 ^ 64
  heap : start + bytes ≤ g.heap.begin ∨ g.heap.end ≤ start
  apart : ∀ p ∈ fixedAddresses g, p + 8 ≤ start ∨ start + bytes ≤ p

/-! ### The copy of the heap -/

/-- The objects of the heap in `m` lie from `start` on in `m'`, forward words included. -/
def CopyOf (m : ByteMemory) (heap : MemoryChunk) (os : List Obj) (m' : ByteMemory) (start : ℕ) : Prop :=
  ∀ j o, (j, o) ∈ laid room heap.begin os → Copied m j m' (start + (j - heap.begin)) (room o)

section Copy

variable {m m' : ByteMemory} {heap : MemoryChunk} {os : List Obj} {start j k : ℕ} {o : Obj} {w : Word}

/-- The copy lies in a region that is large enough. -/
theorem copyOf_moveBytes {n : ℕ} (hheap : HeapAt m heap os) (hn : heap.current ≤ heap.begin + n) :
    CopyOf m heap os (moveBytes m start heap.begin n) start := by
  intro j o hj
  obtain ⟨-, hlow, hhigh⟩ := hheap.place hj
  have hall : Copied m heap.begin (moveBytes m start heap.begin n) start n := copied_moveBytes
  have hpart := hall.sub (k := j - heap.begin) (l := room o) (by omega)
  rwa [show heap.begin + (j - heap.begin) = j by omega] at hpart

theorem CopyOf.object (h : CopyOf m heap os m' start) (hheap : HeapAt m heap os) (hk : (k, o) ∈ laid room start os) :
    ObjAt m' k o := by
  obtain ⟨j, hj, rfl⟩ := (laid_rebase_iff (i := heap.begin)).mp hk
  exact (hheap.objects j o hj).moved ((h j o hj).mono (objSize_le_room o))

/-- The copy of an object has its flags and its forward address. -/
theorem CopyOf.forward (h : CopyOf m heap os m' start) (hj : (j, o) ∈ laid room heap.begin os) :
    liveAt m' (start + (j - heap.begin)) = liveAt m j ∧
      isEnqueued m' (start + (j - heap.begin) + dataHeaderSz) = isEnqueued m (j + dataHeaderSz) ∧
      getForwardAddress m' (start + (j - heap.begin) + dataHeaderSz) = getForwardAddress m (j + dataHeaderSz) := by
  have hroom := room_ge o
  exact flags_copied ((h j o hj).sub (by omega))

/-- The moves of the live objects are moves in the heap. -/
theorem moves_in (m : ByteMemory) (heap : MemoryChunk) (os : List Obj) : MovesIn (moves m heap os) heap os := by
  refine ⟨fun v hv => (slide_source hv).1, fun v hv u hu hsource => ?_,
    fun v hv => (laid_bounds (slide_target hv)).1⟩
  exact slide_injective_source room_pos hv hu hsource

/-- The sources of moves are places of objects, so their contents pass for pointers into the heap. -/
theorem HeapAt.range (hheap : HeapAt m heap os) {v : Move Obj} (hv : v ∈ moves m' heap os)
    (hw : w.toNat = v.source + dataHeaderSz) : isValidPointer w = true ∧ inOldHeap heap w = true := by
  obtain ⟨hvalid, hptr⟩ := hheap.valid (slide_source hv).1 hw
  rw [isValidHeapPointer, Bool.and_assoc] at hvalid
  exact ⟨hptr, (Bool.and_eq_true_iff.mp hvalid).2⟩

/-- A pointer to a marked object is one to an object that moves. -/
theorem MarkedTarget.moving (h : MarkedTarget m heap os w) : Moving (moves m heap os) heap w := by
  intro hptr hold
  have hvalid : isValidHeapPointer heap w = true := by
    rw [isValidHeapPointer, Bool.and_assoc]
    exact Bool.and_eq_true_iff.mpr ⟨hptr, hold⟩
  obtain ⟨j, o, hj, hw, hlive⟩ := h hvalid
  obtain ⟨v, hv, rfl, -⟩ := slide_moves hj hlive
  exact ⟨v, hv, hw⟩

end Copy

/-! ### The phase step by step -/

/-- The rewriting of references in a collection that moves the heap to `start`. -/
def forwarded (m : ByteMemory) (heap : MemoryChunk) (os : List Obj) (start : ℕ) : Word → Word :=
  relocated (moves m heap os) heap.begin start

/-- The objects while they lie in the copy: the marked ones have been rewritten. -/
def copyObjects (m : ByteMemory) (start : ℕ) (os : List Obj) (f : Word → Word) : List Obj :=
  (laid room start os).map fun p => if liveAt m p.1 then p.2.map f else p.2

section Steps

variable {g : Globals} {m m₁ m₂ m₃ : ByteMemory} {heap heap' : MemoryChunk} {os : List Obj} {start j k fuel : ℕ}
  {o : Obj} {f : Word → Word}

theorem room_if {b : Bool} : room (if b then o.map f else o) = room o := by
  cases b
  · rfl
  · exact room_map

theorem laid_copyObjects : laid room start (copyObjects m start os f) =
    (laid room start os).map fun p => (p.1, if liveAt m p.1 then p.2.map f else p.2) :=
  laid_rewrite (fun _ => room_if) os start

theorem laidEnd_copyObjects : laidEnd room start (copyObjects m start os f) = laidEnd room start os :=
  laidEnd_rewrite (fun _ => room_if) os start

theorem copyObjects_length : (copyObjects m start os f).length = os.length := by
  rw [copyObjects, List.length_map, laid_length]

theorem mem_copyObjects : (j, o) ∈ laid room start (copyObjects m start os f) ↔
    ∃ o', (j, o') ∈ laid room start os ∧ o = if liveAt m j then o'.map f else o' := by
  rw [laid_copyObjects, List.mem_map]
  constructor
  · rintro ⟨⟨i, o'⟩, hj, heq⟩
    cases heq
    exact ⟨o', hj, rfl⟩
  · rintro ⟨o', hj, rfl⟩
    exact ⟨(j, o'), hj, rfl⟩

/-- The copy ends where the chunk says. -/
theorem HeapAt.copyEnd (hheap : HeapAt m heap os)
    (hcurrent : heap'.current = heap'.begin + (heap.current - heap.begin)) :
    laidEnd room heap'.begin os = heap'.current := by
  have hle := le_laidEnd room os heap.begin
  have hfrom : laidEnd room (heap'.begin + heap.begin) os = laidEnd room heap'.begin os + heap.begin :=
    laidEnd_add os _ _
  have hto : laidEnd room (heap.begin + heap'.begin) os = laidEnd room heap.begin os + heap'.begin :=
    laidEnd_add os _ _
  rw [Nat.add_comm heap.begin] at hto
  rw [hheap.current] at hle hto
  omega

/-- `update_references` on the copy: the marked objects are rewritten there, and the words outside. -/
theorem updateReferences_exact (hheap : HeapAt m heap os) (hcopy : CopyOf m heap os m₁ heap'.begin)
    (hcurrent : heap'.current = heap'.begin + (heap.current - heap.begin))
    (hpointers : ∀ j o, (j, o) ∈ laid room heap.begin os → liveAt m j = true → ∀ w ∈ o.pointers,
      MarkedTarget m heap os w)
    (hforwards : ∀ v ∈ moves m heap os, getForwardAddress m (v.source + dataHeaderSz) = v.target)
    (hwords : ∀ p ∈ fixedAddresses g, MarkedTarget m heap os (load64 m₁ p))
    (hfixed : (fixedAddresses g).Pairwise fun p q => p + 8 ≤ q ∨ q + 8 ≤ p)
    (happart : ∀ p ∈ fixedAddresses g, p + 8 ≤ heap'.begin ∨ heap'.current ≤ p)
    (hfuel : heap.current - heap.begin < fuel) :
    ∃ m₂, updateReferences { g with mem := m₁, heap := heap' } heap fuel =
        .ok { g with mem := m₂, heap := heap' } ∧
      (∀ j o, (j, o) ∈ laid room heap'.begin (copyObjects m₁ heap'.begin os (forwarded m heap os heap'.begin)) →
        ObjAt m₂ j o) ∧
      (∀ j o, (j, o) ∈ laid room heap'.begin os → Copied m₁ (j + 8) m₂ (j + 8) 8) ∧
      (∀ p ∈ fixedAddresses g, load64 m₂ p = forwarded m heap os heap'.begin (load64 m₁ p)) ∧
      ∀ b, b < heap'.begin ∨ heap'.current ≤ b → (∀ p ∈ fixedAddresses g, b < p ∨ p + 8 ≤ b) → m₂ b = m₁ b := by
  have hend := hheap.copyEnd hcurrent
  obtain ⟨hturns, hbound⟩ := hheap.enough hfuel
  have hmvs := moves_in m heap os
  have hrange : ∀ v ∈ moves m heap os, ∀ w : Word, w.toNat = v.source + dataHeaderSz →
      isValidPointer w = true ∧ inOldHeap heap w = true := fun v hv w hw => hheap.range hv hw
  have hcopyAt : CopyAt (moves m heap os) heap heap'.begin os m₁ := by
    refine ⟨fun j o hj => (hcopy.object hheap hj).toHeaderAt, fun v hv => ?_⟩
    rw [(hcopy.forward (hmvs.place v hv)).2.2, hforwards v hv]
  have hinit : Updating (forwarded m heap os heap'.begin) m₁ heap'.begin [] os m₁ :=
    ⟨fun j o hj => absurd hj List.not_mem_nil, fun j o hj => hcopy.object hheap hj,
      fun j o _ => .refl _ _ _, fun _ _ => rfl⟩
  obtain ⟨m₂, hloop, hdone⟩ := updateReferencesLoop_rule hmvs hcopyAt hend hrange (fun j o hj hlive w hw => by
    obtain ⟨i, hi, rfl⟩ := (laid_rebase_iff (i := heap.begin)).mp hj
    rw [(hcopy.forward hi).1] at hlive
    exact (hpointers i o hi hlive w hw).moving) hbound os [] fuel rfl hinit hturns
  have hnil : os ++ [] = os := List.append_nil os
  have hsame : ∀ p ∈ fixedAddresses g, load64 m₂ p = load64 m₁ p := fun p hp =>
    Copied.load64 fun i hi => hdone.outside _ (by
      have := happart p hp
      rw [hnil, hend]
      omega)
  have hcopy₂ : CopyAt (moves m heap os) heap heap'.begin os m₂ := by
    have := hdone.copy (by rw [hnil]; exact hmvs) (by rw [hnil]; exact hcopyAt)
    rwa [hnil] at this
  obtain ⟨m₃, hfix, hfixedWords, hrest⟩ := fixWords_rule hmvs hrange (fixedAddresses g) hcopy₂ hfixed
    (fun p hp => by rw [hend]; exact happart p hp)
    fun p hp => by rw [hsame p hp]; exact (hwords p hp).moving
  have hinside : ∀ b, heap'.begin ≤ b → b < heap'.current → m₃ b = m₂ b := fun b hlow hhigh =>
    hrest b fun p hp => by
      have := happart p hp
      omega
  refine ⟨m₃, ?_, fun j o hj => ?_, fun j o hj => ?_, fun p hp => ?_, fun b hb hout => ?_⟩
  · rw [laidEnd_nil] at hloop
    rw [updateReferences_eq]
    dsimp only
    rw [hloop, except_ok_bind, fixedAddresses_heap, hfix]
    rfl
  · obtain ⟨o', hj', rfl⟩ := mem_copyObjects.mp hj
    have hbounds := laid_bounds hj'
    rw [hend] at hbounds
    refine (hdone.done j o' hj').moved (copied_between hinside hbounds.1 ?_)
    have := objSize_le_room o'
    split
    · rw [objSize_map]
      omega
    · omega
  · have hbounds := laid_bounds hj
    rw [hend] at hbounds
    have := room_ge o
    exact (hdone.forwards j o (by rw [hnil]; exact hj)).trans (copied_between hinside (by omega) (by omega))
  · rw [hfixedWords p hp, hsame p hp]
    rfl
  · rw [hrest b hout, hdone.outside b (by rw [hnil, hend]; exact hb)]

/-- `physically_relocate` after that: what is left lies end to end, with its flags cleared. -/
theorem physicallyRelocate_exact (hheap : HeapAt m heap os) (hcopy : CopyOf m heap os m₁ heap'.begin)
    (hcurrent : heap'.current = heap'.begin + (heap.current - heap.begin)) (haligned : heap'.begin % 8 = 0)
    (hlt : heap'.current < 2 ^ 64) (hclean : ∀ j o, (j, o) ∈ laid room heap.begin os → ¬ Enqueued m j)
    (hforwards : ∀ v ∈ moves m heap os, getForwardAddress m (v.source + dataHeaderSz) = v.target)
    (hobjects : ∀ j o, (j, o) ∈ laid room heap'.begin (copyObjects m₁ heap'.begin os f) → ObjAt m₂ j o)
    (hsame : ∀ j o, (j, o) ∈ laid room heap'.begin os → Copied m₁ (j + 8) m₂ (j + 8) 8)
    (hfuel : os.length < fuel) :
    ∃ m₃, physicallyRelocateLoop heap heap' fuel m₂ heap'.begin = .ok m₃ ∧
      (∀ k o, (k, o) ∈ laid room heap'.begin (leftObjects m heap os f) →
        ObjAt m₃ k o ∧ ¬ Marked m₃ k ∧ ¬ Enqueued m₃ k) ∧
      ∀ b, b < heap'.begin ∨ heap'.current ≤ b → m₃ b = m₂ b := by
  have hend := hheap.copyEnd hcurrent
  have hheap' : HeapAt m₂ heap' (copyObjects m₁ heap'.begin os f) :=
    ⟨hobjects, by rw [laidEnd_copyObjects, hend], haligned, hlt⟩
  -- flags and forward addresses have come along from the old heap
  have hword : ∀ j o, (j, o) ∈ laid room heap.begin os →
      liveAt m₂ (heap'.begin + (j - heap.begin)) = liveAt m j ∧
      isEnqueued m₂ (heap'.begin + (j - heap.begin) + dataHeaderSz) = isEnqueued m (j + dataHeaderSz) ∧
      getForwardAddress m₂ (heap'.begin + (j - heap.begin) + dataHeaderSz) =
        getForwardAddress m (j + dataHeaderSz) := by
    intro j o hj
    obtain ⟨hlive, henqueued, hforward⟩ := hcopy.forward hj
    obtain ⟨hlive₂, henqueued₂, hforward₂⟩ := flags_copied (hsame _ o (laid_rebase hj))
    exact ⟨hlive₂.trans hlive, henqueued₂.trans henqueued, hforward₂.trans hforward⟩
  have hleft : survivors (liveAt m₂) (laid room heap'.begin (copyObjects m₁ heap'.begin os f)) =
      leftObjects m heap os f := by
    have hrewritten : ∀ p ∈ laid room heap'.begin os, liveAt m₂ p.1 = true →
        (if liveAt m₁ p.1 then p.2.map f else p.2) = p.2.map f := by
      rintro ⟨k, o⟩ hk hlive
      have hflag : liveAt m₂ k = liveAt m₁ k := (flags_copied (hsame k o hk)).1
      exact if_pos (hflag.symm.trans hlive)
    rw [laid_copyObjects, survivors_map hrewritten,
      survivors_rebase (i := heap.begin) fun j o hj => (hword j o hj).1]
    rfl
  have hmoved : ∀ v ∈ moves m₂ heap' (copyObjects m₁ heap'.begin os f),
      heap'.begin + (getForwardAddress m₂ (v.source + dataHeaderSz) - heap.begin) = v.target := by
    intro v hv
    rw [moves, laid_copyObjects, slide_map fun _ => room_if] at hv
    obtain ⟨v₀, hv₀, rfl⟩ := List.mem_map.mp hv
    obtain ⟨u, hu, hsource, htarget, -⟩ := slide_rebase (t := heap.begin) (fun j o hj => (hword j o hj).1) hv₀
    dsimp only
    rw [hsource, htarget, (hword _ _ (slide_source hu).1).2.2, hforwards u hu]
  have hinit : Sliding m₂ heap'.begin [] heap'.begin m₂ :=
    ⟨fun k o hk => absurd hk List.not_mem_nil, rfl, fun _ _ => rfl, fun _ _ => rfl⟩
  obtain ⟨m₃, t, hloop, hdone⟩ := physicallyRelocateLoop_rule hheap' hmoved (fun k o hk => by
    obtain ⟨o', hk', -⟩ := mem_copyObjects.mp hk
    obtain ⟨j, hj, rfl⟩ := (laid_rebase_iff (i := heap.begin)).mp hk'
    rw [Enqueued, (hword j o' hj).2.1]
    exact hclean j o' hj) (copyObjects m₁ heap'.begin os f) [] fuel heap'.begin rfl hinit (by
      rw [copyObjects_length]
      exact hfuel)
  refine ⟨m₃, hloop, fun k o hk => hdone.moved k o (by rw [hleft]; exact hk), fun b hb => ?_⟩
  rcases hb with hb | hb
  · exact hdone.below b hb
  · exact hdone.above b (by rw [laidEnd_copyObjects, hend]; exact hb)

end Steps

/-! ### The whole phase -/

/-- The memory the compact phase leaves. -/
structure Compacted (g : Globals) (os : List Obj) (start bytes : ℕ) (m' : ByteMemory) : Prop where
  objects : ∀ k o, (k, o) ∈ laid room start (leftObjects g.mem g.heap os (forwarded g.mem g.heap os start)) →
    ObjAt m' k o ∧ ¬ Marked m' k ∧ ¬ Enqueued m' k
  words : ∀ p ∈ fixedAddresses g, load64 m' p = forwarded g.mem g.heap os start (load64 g.mem p)
  rest : ∀ b, (b < g.heap.begin ∨ g.heap.end ≤ b) → (b < start ∨ start + bytes ≤ b) →
    (∀ p ∈ fixedAddresses g, b < p ∨ p + 8 ≤ b) → m' b = g.mem b

section Phase

variable {g : Globals} {m : ByteMemory} {heap : MemoryChunk} {os : List Obj} {start fuel : ℕ} {f : Word → Word}

theorem KeepsFlags.moves (h : KeepsFlags (laid room heap.begin os) g.mem m) :
    moves m heap os = moves g.mem heap os := by
  refine slide_congr ?_
  rintro ⟨j, o⟩ hj
  exact h.live hj

theorem KeepsFlags.leftObjects (h : KeepsFlags (laid room heap.begin os) g.mem m) :
    leftObjects m heap os f = leftObjects g.mem heap os f := by
  have hsame : survivors (liveAt m) (laid room heap.begin os) =
      survivors (liveAt g.mem) (laid room heap.begin os) := by
    refine survivors_congr ?_
    rintro ⟨j, o⟩ hj
    exact h.live hj
  rw [Gc.leftObjects, hsame]
  rfl

/-- `compact_phase` on a heap whose live objects are marked: they lie end to end in the new region, the
    words outside are rewritten and nothing else has changed. -/
theorem compactPhase_exact (hg : Compactable g os) (hfuel : g.heap.current - g.heap.begin < fuel)
    {additional size : ℕ} {mmap : ℕ → Option ℕ}
    (hsize : size = nextHeapPseudoSize g (liveSize g.mem g.heap os) additional)
    (hmmap : mmap (wordsToBytes size) = some start) (hnew : NewRegion g start (wordsToBytes size)) :
    ∃ m', compactPhase g fuel mmap additional = .ok { g with
        mem := m'
        heap := ⟨start, start + wordsToBytes size, start + wordsToBytes (liveSize g.mem g.heap os), size⟩ } ∧
      Compacted g os start (wordsToBytes size) m' := by
  obtain ⟨hturns, -⟩ := hg.heap.enough hfuel
  obtain ⟨m₁, hlocations, hm₁, hforwards⟩ := computeLocations_exact hg.heap hturns
  have hheap₁ := hg.heap.forwards hm₁.only
  have hwide : g.heap.size ≤ size := by
    rw [hsize]
    exact Nat.le_max_right _ _
  have hroom : wordsToBytes g.heap.size ≤ wordsToBytes size := Nat.mul_le_mul_right _ hwide
  have hchunk := hg.chunk.end
  have hfilled := hg.chunk.filled
  have hbegin := le_laidEnd room os g.heap.begin
  rw [hg.heap.current] at hbegin
  have hcopy : CopyOf m₁ g.heap os (moveBytes m₁ start g.heap.begin (wordsToBytes g.heap.size)) start :=
    copyOf_moveBytes hheap₁ (by omega)
  -- outside the two regions the copy has changed nothing
  have hout : ∀ b, (b < g.heap.begin ∨ g.heap.end ≤ b) → (b < start ∨ start + wordsToBytes size ≤ b) →
      moveBytes m₁ start g.heap.begin (wordsToBytes g.heap.size) b = g.mem b := by
    intro b hb hb'
    rw [moveBytes_of_not_mem (by omega), hm₁.only]
    intro j o hj
    have := hg.heap.inside hj
    unfold dataHeaderSz
    omega
  have hwords : ∀ p ∈ fixedAddresses g,
      load64 (moveBytes m₁ start g.heap.begin (wordsToBytes g.heap.size)) p = load64 g.mem p := fun p hp =>
    Copied.load64 fun i hi => hout _ (by have := hg.apart p hp; omega) (by have := hnew.apart p hp; omega)
  have hmarked : ∀ w, MarkedTarget g.mem g.heap os w → MarkedTarget m₁ g.heap os w := by
    intro w hw hvalid
    obtain ⟨j, o, hj, hwj, hl⟩ := hw hvalid
    exact ⟨j, o, hj, hwj, (hm₁.live hj).trans hl⟩
  obtain ⟨heap', hheap'⟩ : ∃ heap' : MemoryChunk, heap' =
      ⟨start, start + wordsToBytes size, start + (g.heap.current - g.heap.begin), size⟩ := ⟨_, rfl⟩
  obtain rfl : heap'.begin = start := by rw [hheap']
  have hcurrent : heap'.current = heap'.begin + (g.heap.current - g.heap.begin) := by rw [hheap']
  have hsame : forwarded m₁ g.heap os heap'.begin = forwarded g.mem g.heap os heap'.begin := by
    rw [forwarded, hm₁.moves]
    rfl
  rw [← hm₁.moves] at hforwards
  obtain ⟨m₂, hupdate, hobjects, hforward, hfixed, hrest⟩ := updateReferences_exact hheap₁ hcopy hcurrent
    (fun j o hj hl w hw => hmarked w (hg.pointers j o hj ((hm₁.live hj).symm.trans hl) w hw)) hforwards
    (fun p hp => by rw [hwords p hp]; exact hmarked _ (hg.words p hp)) hg.fixed
    (fun p hp => by have := hnew.apart p hp; omega) hfuel
  have hlt := hnew.lt
  obtain ⟨m₃, hrelocate, hleft, hkept⟩ := physicallyRelocate_exact hheap₁ hcopy hcurrent hnew.aligned (by omega)
    (fun j o hj => by rw [hm₁.enqueued j o hj]; exact hg.clean j o hj) hforwards hobjects hforward hturns
  rw [hsame, hm₁.leftObjects] at hleft
  refine ⟨m₃, ?_, hleft, fun p hp => ?_, fun b hb hb' hbf => ?_⟩
  · rw [compactPhase, hlocations, except_ok_bind]
    dsimp only
    rw [← hsize, hmmap]
    dsimp only
    rw [← hheap', hupdate, except_ok_bind, physicallyRelocate]
    dsimp only
    rw [hrelocate, hheap']
    rfl
  · have hp' := hnew.apart p hp
    have hkeep : load64 m₃ p = load64 m₂ p := Copied.load64 fun i hi => hkept _ (by omega)
    rw [hkeep, hfixed p hp, hwords p hp, hsame]
  · rw [hkept b (by omega), hrest b (by omega) hbf, hout b hb hb']

end Phase

end Gc
end LamaSM
