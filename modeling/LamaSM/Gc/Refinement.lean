import LamaSM.Gc.Collection

/-! What `gc_alloc` does to the heap as the interpreter sees it.

    `heapOf` forgets where the objects lie and keeps them by the addresses of their contents. Over it a
    collection is what `Relocates` asks for: the objects reachable from the scanned words, and no others,
    at new addresses and with their pointers rewritten. -/

namespace LamaSM
namespace Gc
open Lib

/-- The objects by the addresses of their contents. -/
def heapOf (i : ℕ) (os : List Obj) : Heap := fun w =>
  ((laid room i os).find? fun p => p.1 + dataHeaderSz == w.toNat).map Prod.snd

section HeapOf

variable {i j : ℕ} {os : List Obj} {o : Obj} {w : Word}

theorem heapOf_eq_some : heapOf i os w = some o ↔ ∃ j, (j, o) ∈ laid room i os ∧ w.toNat = j + dataHeaderSz := by
  constructor
  · intro h
    obtain ⟨⟨j, o'⟩, hfind, rfl⟩ := Option.map_eq_some_iff.mp h
    have hkey := List.find?_some hfind
    exact ⟨j, List.mem_of_find?_eq_some hfind, (beq_iff_eq.mp hkey).symm⟩
  · rintro ⟨j, hj, hw⟩
    have hsome : ((laid room i os).find? fun p => p.1 + dataHeaderSz == w.toNat).isSome = true :=
      List.find?_isSome.mpr ⟨(j, o), hj, beq_iff_eq.mpr hw.symm⟩
    obtain ⟨⟨k, o'⟩, hfind⟩ := Option.isSome_iff_exists.mp hsome
    have hkey := List.find?_some hfind
    have hkey := beq_iff_eq.mp hkey
    have hk : (k, o') ∈ laid room i os := List.mem_of_find?_eq_some hfind
    obtain rfl : k = j := by dsimp only at hkey; omega
    rw [heapOf, hfind, laid_unique room_pos hj hk]
    rfl

theorem heapOf_isSome : (heapOf i os w).isSome ↔ ∃ j o, (j, o) ∈ laid room i os ∧ w.toNat = j + dataHeaderSz := by
  rw [Option.isSome_iff_exists]
  constructor
  · rintro ⟨o, ho⟩
    obtain ⟨j, hj, hw⟩ := heapOf_eq_some.mp ho
    exact ⟨j, o, hj, hw⟩
  · rintro ⟨j, o, hj, hw⟩
    exact ⟨o, heapOf_eq_some.mpr ⟨j, hj, hw⟩⟩

end HeapOf

/-- What a collection needs of the whole memory: what marking needs, the chunk as `mmap` gave it, and the
    words to be rewritten apart from each other and from the heap. Those that are not scanned do not pass
    for pointers into the heap. -/
structure Movable (g : Globals) (os : List Obj) : Prop extends Collectable g os where
  chunk : ChunkOk g.heap
  fixed : (fixedAddresses g).Pairwise fun p q => p + 8 ≤ q ∨ q + 8 ≤ p
  away : ∀ p ∈ fixedAddresses g, p + 8 ≤ g.heap.begin ∨ g.heap.end ≤ p
  unscanned : ∀ p ∈ fixedAddresses g, p ∉ rootAddresses g → isValidHeapPointer g.heap (load64 g.mem p) = false

section Marked

variable {g : Globals} {os : List Obj} {m : ByteMemory} {a b : Word} {j : ℕ} {o : Obj} {roots : List Word}

/-- The address of the contents of an object. -/
theorem HeapAt.address_toNat {heap : MemoryChunk} (hheap : HeapAt m heap os) (hj : (j, o) ∈ laid room heap.begin os) :
    (BitVec.ofNat 64 (j + dataHeaderSz) : Word).toNat = j + dataHeaderSz := by
  have hplace := hheap.place hj
  have hroom := room_ge o
  have hlt := hheap.lt
  rw [BitVec.toNat_ofNat]
  unfold dataHeaderSz
  omega

/-- An object is live for the interpreter when it is reachable for the collector. -/
theorem live_iff_reachable (hheap : HeapAt g.mem g.heap os) (hj : (j, o) ∈ laid room g.heap.begin os) (ha : a.toNat = j + dataHeaderSz) :
    Live (heapOf g.heap.begin os) (scannedWords g) a ↔ Reachable g os j := by
  constructor
  · intro h
    have key : ∀ a, Live (heapOf g.heap.begin os) (scannedWords g) a → ∀ j o, (j, o) ∈ laid room g.heap.begin os →
        a.toNat = j + dataHeaderSz → Reachable g os j := by
      intro a h
      induction h with
      | root hmem _ => exact fun j o hj ha => .start ⟨_, hmem, o, hj, ha⟩
      | pointer hlive ho hmem hsome ih =>
        intro j o hj hb
        obtain ⟨i, hi, hai⟩ := heapOf_eq_some.mp ho
        exact .step (ih i _ hi hai) ⟨_, _, o, hi, hmem, hb, hj⟩
    exact key a h j o hj ha
  · intro h
    have key : ∀ j, Reachable g os j → ∀ o, (j, o) ∈ laid room g.heap.begin os → ∀ a : Word,
        a.toNat = j + dataHeaderSz → Live (heapOf g.heap.begin os) (scannedWords g) a := by
      intro j h
      induction h with
      | start hroot =>
        intro o hj a ha
        obtain ⟨w, hw, o', hj', hwj⟩ := hroot
        obtain rfl : a = w := BitVec.eq_of_toNat_eq (by omega)
        exact .root hw (heapOf_isSome.mpr ⟨_, o, hj, ha⟩)
      | @step i j hreach hpoints ih =>
        intro o hj a ha
        obtain ⟨oi, w, o', hi, hw, hwj, hj'⟩ := hpoints
        obtain rfl : a = w := BitVec.eq_of_toNat_eq (by omega)
        have hi64 := hheap.address_toNat hi
        exact .pointer (ih oi hi _ hi64) (heapOf_eq_some.mpr ⟨i, hi, hi64⟩) hw
          (heapOf_isSome.mpr ⟨_, o, hj, ha⟩)
    exact key j h o hj a ha

/-- Marking establishes what compaction needs. -/
theorem Movable.compactable (hg : Movable g os) (honly : OnlyForwards (laid room g.heap.begin os) g.mem m)
    (hexact : ∀ j o, (j, o) ∈ laid room g.heap.begin os → (Marked m j ↔ Reachable g os j) ∧ ¬ Enqueued m j) :
    Compactable { g with mem := m } os := by
  refine ⟨hg.heap.forwards honly, hg.chunk, fun j o hj => (hexact j o hj).2, fun j o hj hlive w hw hvalid => ?_,
    fun p hp hvalid => ?_, hg.fixed, hg.away⟩
  · have hreach := (hexact j o hj).1.mp hlive
    obtain ⟨b, o', hb, hwb⟩ := hg.pointers j o w hreach hj hw hvalid
    exact ⟨b, o', hb, hwb, (hexact b o' hb).1.mpr (.step hreach ⟨o, w, o', hj, hw, hwb, hb⟩)⟩
  · have hp' : p ∈ fixedAddresses g := hp
    have hfilled := hg.chunk.filled
    have hsame : load64 m p = load64 g.mem p :=
      (honly.outside (fun _ _ hj => hg.heap.inside hj) (by have := hg.away p hp'; omega)).load64
    dsimp only at hvalid ⊢
    rw [hsame] at hvalid ⊢
    by_cases hroot : p ∈ rootAddresses g
    · have hmem : load64 g.mem p ∈ scannedWords g := List.mem_map_of_mem hroot
      obtain ⟨b, o, hb, hwb⟩ := hg.roots _ hmem hvalid
      exact ⟨b, o, hb, hwb, (hexact b o hb).1.mpr (.start ⟨_, hmem, o, hb, hwb⟩)⟩
    · rw [hg.unscanned p hp' hroot] at hvalid
      cases hvalid

end Marked

section Moved

variable {m : ByteMemory} {heap : MemoryChunk} {os : List Obj} {start k : ℕ} {v : Move Obj} {a w : Word} {o : Obj}
  {zone : Word → Bool} {roots : List Word} {f : Word → Word}

/-- The places of what is left are those the moves lead to. -/
theorem mem_leftObjects : (k, o) ∈ laid room start (leftObjects m heap os f) ↔
    ∃ v ∈ moves m heap os, k = start + (v.target - heap.begin) ∧ o = v.item.map f := by
  rw [leftObjects, laid_map (fun _ => room_map), List.mem_map]
  constructor
  · rintro ⟨⟨i, o'⟩, hi, heq⟩
    cases heq
    obtain ⟨j, hj, rfl⟩ := (laid_rebase_iff (i := heap.begin)).mp hi
    rw [← slide_targets] at hj
    obtain ⟨v, hv, heq⟩ := List.mem_map.mp hj
    cases heq
    exact ⟨v, hv, rfl, rfl⟩
  · rintro ⟨v, hv, rfl, rfl⟩
    exact ⟨(_, v.item), laid_rebase (slide_target hv), rfl⟩

/-- A move ends no higher than the heap does. -/
theorem HeapAt.target_le (hheap : HeapAt m heap os) (hv : v ∈ moves m heap os) :
    heap.begin ≤ v.target ∧ v.target + room v.item ≤ heap.current := by
  have hbounds := laid_bounds (slide_target hv)
  have hend : laidEnd room heap.begin (survivors (liveAt m) (laid room heap.begin os)) ≤ laidEnd room heap.begin os :=
    laidEnd_survivors (Nat.le_refl _)
  rw [hheap.current] at hend
  omega

/-- The new address of an object. -/
theorem forwarded_toNat (hheap : HeapAt m heap os) (hfit : start + (heap.current - heap.begin) < 2 ^ 64)
    (hv : v ∈ moves m heap os) (hw : w.toNat = v.source + dataHeaderSz) :
    (forwarded m heap os start w).toNat = start + (v.target - heap.begin) + dataHeaderSz := by
  have htarget := hheap.target_le hv
  have hroom := room_ge v.item
  rw [forwarded, relocated_move (moves_in m heap os) hv hw, BitVec.toNat_ofNat]
  unfold dataHeaderSz
  omega

/-- Words that are no addresses of objects stay as they are. -/
theorem relocateWord_forwarded
    (hzone : ∀ w, (heapOf heap.begin os w).isSome → zone w = true) :
    relocateWord zone (heapOf heap.begin os) (forwarded m heap os start) = forwarded m heap os start := by
  funext w
  rw [relocateWord]
  cases hsome : (heapOf heap.begin os w).isSome with
  | true => rw [hzone w hsome, Bool.and_true, if_pos rfl]
  | false =>
    rw [Bool.and_false, if_neg Bool.false_ne_true]
    refine (relocated_stay fun v hv hw => ?_).symm
    have hin : (heapOf heap.begin os w).isSome := heapOf_isSome.mpr ⟨_, _, (slide_source hv).1, hw⟩
    rw [hsome] at hin
    cases hin

/-- The moves and the rewriting of pointers relocate the heap, when the marked objects are the live ones. -/
theorem relocates_forwarded (hheap : HeapAt m heap os) {bytes : ℕ}
    (hlive : ∀ j o, (j, o) ∈ laid room heap.begin os → ∀ a : Word, a.toNat = j + dataHeaderSz →
      (Live (heapOf heap.begin os) roots a ↔ liveAt m j = true))
    (hfit : heap.current - heap.begin ≤ bytes) (hlt : start + bytes < 2 ^ 64) (haligned : start % 8 = 0)
    (hapart : start + bytes ≤ heap.begin ∨ heap.current ≤ start)
    (hzone : ∀ w, (heapOf heap.begin os w).isSome → zone w = true)
    (hnew : ∀ w : Word, w.toNat % 2 = 0 → start ≤ w.toNat → w.toNat ≤ start + bytes → zone w = true) :
    Relocates zone (heapOf heap.begin os) roots
      (heapOf start (leftObjects m heap os (forwarded m heap os start))) (forwarded m heap os start) := by
  have hmove : ∀ a, Live (heapOf heap.begin os) roots a →
      ∃ v ∈ moves m heap os, a.toNat = v.source + dataHeaderSz ∧ heapOf heap.begin os a = some v.item := by
    intro a ha
    have hsome : (heapOf heap.begin os a).isSome := by
      cases ha with
      | root _ h => exact h
      | pointer _ _ _ h => exact h
    obtain ⟨j, o, hj, haj⟩ := heapOf_isSome.mp hsome
    obtain ⟨v, hv, rfl, rfl⟩ := slide_moves hj ((hlive j o hj a haj).mp ha)
    exact ⟨v, hv, haj, heapOf_eq_some.mpr ⟨_, hj, haj⟩⟩
  have haddress : ∀ v ∈ moves m heap os, ∀ w : Word, w.toNat = v.source + dataHeaderSz →
      (forwarded m heap os start w).toNat = start + (v.target - heap.begin) + dataHeaderSz :=
    fun v hv w hw => forwarded_toNat hheap (by omega) hv hw
  have hin : ∀ b, (heapOf start (leftObjects m heap os (forwarded m heap os start)) b).isSome →
      ∃ v ∈ moves m heap os, b.toNat = start + (v.target - heap.begin) + dataHeaderSz := by
    intro b hb
    obtain ⟨k, o, hk, hbk⟩ := heapOf_isSome.mp hb
    obtain ⟨v, hv, rfl, -⟩ := mem_leftObjects.mp hk
    exact ⟨v, hv, hbk⟩
  refine ⟨fun a o ha ho => ?_, fun b hb => ?_, fun a b ha hb hab => ?_, fun b hb => ?_, fun a ha => ?_⟩
  · obtain ⟨v, hv, hav, hav'⟩ := hmove a ha
    rw [ho] at hav'
    cases hav'
    rw [relocateWord_forwarded hzone]
    exact heapOf_eq_some.mpr ⟨_, mem_leftObjects.mpr ⟨v, hv, rfl, rfl⟩, haddress v hv a hav⟩
  · obtain ⟨v, hv, hbv⟩ := hin b hb
    obtain ⟨hsource, hvlive⟩ := slide_source hv
    have ha := hheap.address_toNat hsource
    refine ⟨_, (hlive _ _ hsource _ ha).mpr hvlive, ?_⟩
    exact BitVec.eq_of_toNat_eq ((haddress v hv _ ha).trans hbv.symm)
  · obtain ⟨v, hv, hav, -⟩ := hmove a ha
    obtain ⟨u, hu, hbu, -⟩ := hmove b hb
    have htargets := haddress v hv a hav
    rw [hab, haddress u hu b hbu] at htargets
    have hv' := hheap.target_le hv
    have hu' := hheap.target_le hu
    obtain rfl : v = u := slide_injective room_pos hv hu (by omega)
    exact BitVec.eq_of_toNat_eq (hav.trans hbu.symm)
  · obtain ⟨v, hv, hbv⟩ := hin b hb
    have htarget := hheap.target_le hv
    have hroom := room_ge v.item
    have hmod := laid_dvd room_dvd (Nat.dvd_of_mod_eq_zero hheap.aligned) (slide_target hv)
    have haligned' := hheap.aligned
    unfold dataHeaderSz at hbv
    exact hnew b (by omega) (by omega) (by omega)
  · obtain ⟨j, o, hj, haj⟩ := heapOf_isSome.mp ha
    have hplace := hheap.place hj
    have hroom := room_ge o
    refine Option.not_isSome_iff_eq_none.mp fun hb => ?_
    obtain ⟨v, hv, hav⟩ := hin a hb
    have htarget := hheap.target_le hv
    have hroom' := room_ge v.item
    unfold dataHeaderSz at haj hav
    omega

end Moved

/-! ### Allocation with a collection -/

/-- What a collection that moves the heap to a region of `size` words at `start` leaves: the objects `os'`
    end to end in the first `live` words of it. They are the live ones in the order they had, with their
    pointers rewritten. -/
structure Collected (zone : Word → Bool) (g : Globals) (os : List Obj) (start size live : ℕ)
    (forward : Word → Word) (os' : List Obj) (m' : ByteMemory) : Prop where
  relocates : Relocates zone (heapOf g.heap.begin os) (scannedWords g) (heapOf start os') forward
  heap : HeapAt m' ⟨start, start + wordsToBytes size, start + wordsToBytes live, size⟩ os'
  clean : ∀ k o, (k, o) ∈ laid room start os' → ¬ Marked m' k ∧ ¬ Enqueued m' k
  words : ∀ p ∈ fixedAddresses g,
    load64 m' p = relocateWord zone (heapOf g.heap.begin os) forward (load64 g.mem p)
  rest : ∀ b, (b < g.heap.begin ∨ g.heap.end ≤ b) → (b < start ∨ start + wordsToBytes size ≤ b) →
    (∀ p ∈ fixedAddresses g, b < p ∨ p + 8 ≤ b) → m' b = g.mem b
  order : ∃ kept : ℕ → Bool, os' = (survivors kept (laid room g.heap.begin os)).map (Obj.map forward) ∧
    ∀ j o, (j, o) ∈ laid room g.heap.begin os → ∀ a : Word, a.toNat = j + dataHeaderSz →
      (kept j = true ↔ Live (heapOf g.heap.begin os) (scannedWords g) a)

/-- What the system promises of a region it maps: it is a new one, and its addresses are the heap's. -/
structure Mapped (zone : Word → Bool) (g : Globals) (start bytes : ℕ) : Prop extends NewRegion g start bytes where
  zone : ∀ w : Word, w.toNat % 2 = 0 → start ≤ w.toNat → w.toNat ≤ start + bytes → zone w = true

section Alloc

variable {g : Globals} {os : List Obj} {zone : Word → Bool} {fuel words start : ℕ} {mmap : ℕ → Option ℕ}

/-- Live words never make the new heap smaller than twice their number and the request. -/
theorem le_nextHeapPseudoSize {live : ℕ} (hlive : live < 2 ^ 61) (hwords : words ≤ 2 ^ 61) :
    2 * live + words ≤ nextHeapPseudoSize g live words := by
  have hexact : sizeT (live * extraRoomHeapCoefficient + words) = 2 * live + words := by
    rw [sizeT_of_lt (by unfold extraRoomHeapCoefficient; omega)]
    unfold extraRoomHeapCoefficient
    omega
  rw [nextHeapPseudoSize, hexact]
  exact (Nat.le_max_left _ _).trans (Nat.le_max_left _ _)

/-- `gc_alloc` relocates the heap into the region mapped for it and places the new block behind the live
    objects: it never returns NULL. -/
theorem gcAlloc_exact (hg : Movable g os) (hfuel : g.heap.current - g.heap.begin < fuel) (hwords : words ≤ 2 ^ 61)
    (hzone : ∀ w, (heapOf g.heap.begin os w).isSome → zone w = true) :
    ∃ live, wordsToBytes live ≤ g.heap.current - g.heap.begin ∧
      ∀ start, mmap (wordsToBytes (nextHeapPseudoSize g live words)) = some start →
        Mapped zone g start (wordsToBytes (nextHeapPseudoSize g live words)) →
        ∃ forward os' m', Collected zone g os start (nextHeapPseudoSize g live words) live forward os' m' ∧
          gcAlloc g fuel mmap words = .ok (some (start + wordsToBytes live), { g with
            mem := clearBytes m' (start + wordsToBytes live) (wordsToBytes words)
            heap := ⟨start, start + wordsToBytes (nextHeapPseudoSize g live words),
              start + wordsToBytes live + wordsToBytes words, nextHeapPseudoSize g live words⟩ }) := by
  obtain ⟨hturns, hfields⟩ := hg.heap.enough hfuel
  obtain ⟨m, hmark, honly, hexact⟩ := markPhase_exact hg.toCollectable hturns hfields
  have hready := hg.compactable honly hexact
  have hheap : HeapAt m g.heap os := hg.heap.forwards honly
  have hend := hg.chunk.end
  have hfilled := hg.chunk.filled
  have hcurrent := hg.heap.lt
  have hsurvive : laidEnd room g.heap.begin (survivors (liveAt m) (laid room g.heap.begin os)) ≤
      laidEnd room g.heap.begin os := laidEnd_survivors (Nat.le_refl _)
  rw [hg.heap.current, ← liveSize_eq hg.heap.aligned] at hsurvive
  have hlive : wordsToBytes (liveSize m g.heap os) ≤ g.heap.current - g.heap.begin := by omega
  have hwide : 2 * liveSize m g.heap os + words ≤ nextHeapPseudoSize g (liveSize m g.heap os) words :=
    le_nextHeapPseudoSize (by unfold wordsToBytes wordSize at hlive; omega) hwords
  have hold : g.heap.size ≤ nextHeapPseudoSize g (liveSize m g.heap os) words := Nat.le_max_right _ _
  refine ⟨liveSize m g.heap os, hlive, fun start hmmap hmapped => ?_⟩
  generalize hsize : nextHeapPseudoSize g (liveSize m g.heap os) words = size at *
  have hlt := hmapped.lt
  have hnew : NewRegion { g with mem := m } start (wordsToBytes size) :=
    ⟨hmapped.aligned, hlt, hmapped.heap, hmapped.apart⟩
  obtain ⟨m', hcompact, hdone⟩ := compactPhase_exact hready hfuel hsize.symm hmmap hnew
  have hleft : laidEnd room start (leftObjects m g.heap os (forwarded m g.heap os start)) =
      start + wordsToBytes (liveSize m g.heap os) := by
    have hto : laidEnd room (g.heap.begin + start) (survivors (liveAt m) (laid room g.heap.begin os)) =
        laidEnd room g.heap.begin (survivors (liveAt m) (laid room g.heap.begin os)) + start := laidEnd_add _ _ _
    have hfrom : laidEnd room (start + g.heap.begin) (survivors (liveAt m) (laid room g.heap.begin os)) =
        laidEnd room start (survivors (liveAt m) (laid room g.heap.begin os)) + g.heap.begin := laidEnd_add _ _ _
    rw [← liveSize_eq hg.heap.aligned] at hto
    rw [Nat.add_comm start] at hfrom
    rw [leftObjects, laidEnd_map fun _ => room_map]
    omega
  have hmarked : ∀ j o, (j, o) ∈ laid room g.heap.begin os → ∀ a : Word, a.toNat = j + dataHeaderSz →
      (Live (heapOf g.heap.begin os) (scannedWords g) a ↔ liveAt m j = true) :=
    fun j o hj a ha => (live_iff_reachable hg.heap hj ha).trans (hexact j o hj).1.symm
  have hroom : wordsToBytes g.heap.size ≤ wordsToBytes size := Nat.mul_le_mul_right _ hold
  have hblock : wordsToBytes (liveSize m g.heap os) + wordsToBytes words ≤ wordsToBytes size := by
    unfold wordsToBytes wordSize
    omega
  have happart := hmapped.heap
  have hrelocates : Relocates zone (heapOf g.heap.begin os) (scannedWords g)
      (heapOf start (leftObjects m g.heap os (forwarded m g.heap os start))) (forwarded m g.heap os start) :=
    relocates_forwarded hheap hmarked (by omega) hlt hmapped.aligned (by omega) hzone hmapped.zone
  refine ⟨_, _, m', ⟨hrelocates, ⟨fun k o hk => (hdone.objects k o hk).1, hleft, hmapped.aligned, ?_⟩,
    fun k o hk => (hdone.objects k o hk).2, fun p hp => ?_, fun b hb hb' hbf => ?_,
    liveAt m, rfl, fun j o hj a ha => (hmarked j o hj a ha).symm⟩, ?_⟩
  · dsimp only
    omega
  · rw [relocateWord_forwarded hzone, hdone.words p hp]
    have hp' : p ∈ fixedAddresses g := hp
    have hsame : load64 m p = load64 g.mem p :=
      (honly.outside (fun _ _ hj => hg.heap.inside hj) (by have := hg.away p hp'; omega)).load64
    dsimp only
    rw [hsame]
  · rw [hdone.rest b hb hb' hbf]
    refine honly b fun j o hj => ?_
    have hinside := hg.heap.inside hj
    unfold dataHeaderSz
    omega
  · have hfits : sizeT (start + wordsToBytes (liveSize m g.heap os) + wordsToBytes words) ≤
        start + wordsToBytes size := (Nat.mod_le _ _).trans (by omega)
    rw [gcAlloc, hmark, except_ok_bind, hcompact, except_ok_bind, gcAllocOnExistingHeap, if_pos hfits]
    rfl

end Alloc

/-! ### A sample heap -/

/-- An array no word points to, one that an extra root points to, and the string it holds. -/
def sampleObjects : List Obj := [.array [11], .array [4160], .string [97, 0]]

/-- Their words and those of the roots, with the addresses. -/
def sampleWords : List (ℕ × Word) :=
  [(4096, headerOf arrayTag 1), (4112, 11), (4120, headerOf arrayTag 1), (4136, 4160), (4144, headerOf stringTag 1),
    (4160, 97), (512, 7), (520, 9), (640, 4136)]

def sampleGlobals : Globals where
  mem := sampleWords.foldl (fun m p => store64 m p.1 p.2) ⟨fun _ => 0⟩
  heap := ⟨4096, 4224, 4168, 16⟩
  extraRoots := [640]
  stackTop := 504
  stackBottom := 520
  startCustomData := 0
  stopCustomData := 0

theorem sampleObjects_laid :
    laid room 4096 sampleObjects = [(4096, .array [11]), (4120, .array [4160]), (4144, .string [97, 0])] := rfl

theorem sampleObjects_at : ∀ j o, (j, o) ∈ laid room 4096 sampleObjects → ObjAt sampleGlobals.mem j o := by
  intro j o h
  rw [sampleObjects_laid] at h
  simp only [List.mem_cons, Prod.mk.injEq, List.not_mem_nil, or_false] at h
  rcases h with ⟨rfl, rfl⟩ | ⟨rfl, rfl⟩ | ⟨rfl, rfl⟩
  · refine ⟨⟨by decide, by decide, by decide⟩, fun k w hk => ?_⟩
    obtain ⟨rfl, rfl⟩ : k = 0 ∧ 11 = w := by simpa [List.getElem?_singleton, and_comm] using hk
    decide
  · refine ⟨⟨by decide, by decide, by decide⟩, fun k w hk => ?_⟩
    obtain ⟨rfl, rfl⟩ : k = 0 ∧ 4160 = w := by simpa [List.getElem?_singleton, and_comm] using hk
    decide
  · have hbytes : bytesFrom sampleGlobals.mem 4160 2 = [97, 0] := by decide
    exact ⟨⟨by decide, by decide, by decide⟩, hbytes⟩

theorem sampleObjects_sane : Sane sampleGlobals.heap sampleObjects 4136 ∧
    Sane sampleGlobals.heap sampleObjects 4160 ∧
      ∀ w : Word, isValidHeapPointer sampleGlobals.heap w = false → Sane sampleGlobals.heap sampleObjects w := by
  refine ⟨fun _ => ⟨4120, .array [4160], by decide, rfl⟩, fun _ => ⟨4144, .string [97, 0], by decide, rfl⟩,
    fun w hw h => ?_⟩
  rw [hw] at h
  cases h

theorem sampleGlobals_movable : Movable sampleGlobals sampleObjects := by
  obtain ⟨harray, hstring, hother⟩ := sampleObjects_sane
  refine ⟨⟨⟨sampleObjects_at, rfl, rfl, by decide⟩, fun j o h => ?_, by decide, fun w hw => ?_, fun a o w _ h hw => ?_⟩,
    ⟨rfl, by decide⟩, by decide, by decide, ?_⟩
  · have h : (j, o) ∈ laid room 4096 sampleObjects := h
    rw [sampleObjects_laid] at h
    simp only [List.mem_cons, Prod.mk.injEq, List.not_mem_nil, or_false] at h
    unfold Marked Enqueued
    rcases h with ⟨rfl, -⟩ | ⟨rfl, -⟩ | ⟨rfl, -⟩ <;> decide
  · have hwords : scannedWords sampleGlobals = [7, 4136] := by decide
    rw [hwords] at hw
    simp only [List.mem_cons, List.not_mem_nil, or_false] at hw
    rcases hw with rfl | rfl
    · exact hother _ (by decide)
    · exact harray
  · have h : (a, o) ∈ laid room 4096 sampleObjects := h
    rw [sampleObjects_laid] at h
    simp only [List.mem_cons, Prod.mk.injEq, List.not_mem_nil, or_false] at h
    rcases h with ⟨rfl, rfl⟩ | ⟨rfl, rfl⟩ | ⟨rfl, rfl⟩
    · obtain rfl := List.mem_singleton.mp hw
      exact hother _ (by decide)
    · obtain rfl := List.mem_singleton.mp hw
      exact hstring
    · exact absurd hw List.not_mem_nil
  · decide

theorem sample_size : ∀ live, live < 10 → nextHeapPseudoSize sampleGlobals live 3 = 64 := by decide

/-! ### What the phases do for the interpreter -/

section Phases

variable {g : Globals} {os : List Obj} {zone : Word → Bool} {fuel words : ℕ} {mmap : ℕ → Option ℕ}

/-- The mark phase marks exactly the objects that are live for the interpreter. It leaves no object
    enqueued and no other byte changed than those of forward words. A turn of the outer loop for every
    object is enough, and a turn of the inner one for every pointer of an object. -/
theorem markPhase_live (hg : Collectable g os) (hturns : os.length < fuel)
    (hfields : ∀ o ∈ os, o.pointers.length < fuel) :
    ∃ m, markPhase fuel g = .ok { g with mem := m } ∧
      (∀ b, (∀ j o, (j, o) ∈ laid room g.heap.begin os → b < j + 8 ∨ j + dataHeaderSz ≤ b) → m b = g.mem b) ∧
      ∀ a : Word, (heapOf g.heap.begin os a).isSome → isEnqueued m a.toNat = false ∧
        (isMarked m a.toNat = true ↔ Live (heapOf g.heap.begin os) (scannedWords g) a) := by
  obtain ⟨m, hrun, honly, hexact⟩ := markPhase_exact hg hturns hfields
  refine ⟨m, hrun, honly, fun a ha => ?_⟩
  obtain ⟨j, o, hj, haj⟩ := heapOf_isSome.mp ha
  obtain ⟨hmarked, henqueued⟩ := hexact j o hj
  rw [live_iff_reachable hg.heap hj haj, ← hmarked, haj]
  exact ⟨Bool.eq_false_iff.mpr henqueued, Iff.rfl⟩

theorem markPhase_live_sampleGlobals :
    ∃ m, markPhase 4 sampleGlobals = .ok { sampleGlobals with mem := m } ∧
      (∀ b, (∀ j o, (j, o) ∈ laid room sampleGlobals.heap.begin sampleObjects →
        b < j + 8 ∨ j + dataHeaderSz ≤ b) → m b = sampleGlobals.mem b) ∧
      ∀ a : Word, (heapOf sampleGlobals.heap.begin sampleObjects a).isSome → isEnqueued m a.toNat = false ∧
        (isMarked m a.toNat = true ↔
          Live (heapOf sampleGlobals.heap.begin sampleObjects) (scannedWords sampleGlobals) a) :=
  markPhase_live sampleGlobals_movable.toCollectable (by decide) (by decide)

/-- Where the system has a region for the heap, `gc_alloc` moves the live objects there, with the words
    it scans and their pointers rewritten, and returns the address of a cleared block behind them. -/
theorem gcAlloc_relocates (hg : Movable g os) (hfuel : g.heap.current - g.heap.begin < fuel) (hwords : words ≤ 2 ^ 61)
    (hzone : ∀ w, (heapOf g.heap.begin os w).isSome → zone w = true)
    (hmmap : ∀ live, wordsToBytes live ≤ g.heap.current - g.heap.begin →
      ∃ start, mmap (wordsToBytes (nextHeapPseudoSize g live words)) = some start ∧
        Mapped zone g start (wordsToBytes (nextHeapPseudoSize g live words))) :
    ∃ live start size forward os' m', Collected zone g os start size live forward os' m' ∧ live + words ≤ size ∧
      gcAlloc g fuel mmap words = .ok (some (start + wordsToBytes live), { g with
        mem := clearBytes m' (start + wordsToBytes live) (wordsToBytes words)
        heap := ⟨start, start + wordsToBytes size, start + wordsToBytes live + wordsToBytes words, size⟩ }) := by
  obtain ⟨live, hlive, hrun⟩ := gcAlloc_exact hg hfuel hwords hzone
  obtain ⟨start, hstart, hmapped⟩ := hmmap live hlive
  obtain ⟨forward, os', m', hcollected, halloc⟩ := hrun start hstart hmapped
  have hlt := hg.heap.lt
  have hwide : 2 * live + words ≤ nextHeapPseudoSize g live words :=
    le_nextHeapPseudoSize (by unfold wordsToBytes wordSize at hlive; omega) hwords
  exact ⟨live, start, _, forward, os', m', hcollected, by omega, halloc⟩

theorem gcAlloc_relocates_sampleGlobals :
    ∃ live start size forward os' m',
      Collected (fun _ => true) sampleGlobals sampleObjects start size live forward os' m' ∧ live + 3 ≤ size ∧
        gcAlloc sampleGlobals 100 (fun _ => some 8192) 3 = .ok (some (start + wordsToBytes live), { sampleGlobals with
          mem := clearBytes m' (start + wordsToBytes live) (wordsToBytes 3)
          heap := ⟨start, start + wordsToBytes size, start + wordsToBytes live + wordsToBytes 3, size⟩ }) := by
  refine gcAlloc_relocates sampleGlobals_movable (by decide) (by decide) (fun _ _ => rfl) fun live hlive => ?_
  have hlive : live * 8 ≤ 72 := hlive
  rw [sample_size live (by omega)]
  exact ⟨8192, rfl, ⟨by decide, by decide, by decide, by decide⟩, fun _ _ _ _ => rfl⟩

end Phases

end Gc
end LamaSM
