import LamaSM.Gc.Compacting

/-! The compact phase step by step: what `compute_locations`, `update_references` and
    `physically_relocate` do to a heap whose live objects are marked. -/

namespace LamaSM
namespace Gc
open Lib

/-- The memories differ in forward words only, and these have the same flags. -/
structure KeepsFlags (ps : List (ℕ × Obj)) (m m' : ByteMemory) : Prop where
  only : OnlyForwards ps m m'
  marked : ∀ j o, (j, o) ∈ ps → (Marked m' j ↔ Marked m j)
  enqueued : ∀ j o, (j, o) ∈ ps → (Enqueued m' j ↔ Enqueued m j)

/-- The object at `j` is marked, as a test. -/
def liveAt (m : ByteMemory) (j : ℕ) : Bool := isMarked m (j + dataHeaderSz)

/-- The moves of the marked objects. -/
def moves (m : ByteMemory) (heap : MemoryChunk) (os : List Obj) : List (Move Obj) :=
  slide room (liveAt m) heap.begin (laid room heap.begin os)

/-- The words the marked objects take up. -/
def liveSize (m : ByteMemory) (heap : MemoryChunk) (os : List Obj) : ℕ :=
  (laidEnd room heap.begin (survivors (liveAt m) (laid room heap.begin os)) - heap.begin) / wordSize

/-! ### Locations -/

section Locations

variable {m₁ m : ByteMemory} {heap : MemoryChunk} {os as bs : List Obj} {scan t fuel : ℕ}

theorem KeepsFlags.refl (ps : List (ℕ × Obj)) (m : ByteMemory) : KeepsFlags ps m m :=
  ⟨.refl ps m, fun _ _ _ => Iff.rfl, fun _ _ _ => Iff.rfl⟩

theorem KeepsFlags.trans {ps : List (ℕ × Obj)} {m' m'' : ByteMemory} (h : KeepsFlags ps m m')
    (h' : KeepsFlags ps m' m'') : KeepsFlags ps m m'' :=
  ⟨h.only.trans h'.only, fun j o hj => (h'.marked j o hj).trans (h.marked j o hj),
    fun j o hj => (h'.enqueued j o hj).trans (h.enqueued j o hj)⟩

theorem KeepsFlags.live {ps : List (ℕ × Obj)} {m' : ByteMemory} (h : KeepsFlags ps m m') {j : ℕ} {o : Obj}
    (hj : (j, o) ∈ ps) : liveAt m' j = liveAt m j := Bool.eq_iff_iff.mpr (h.marked j o hj)

/-- The loop of `compute_locations` writes the new places of the marked objects into their forward
    words. -/
theorem computeLocationsLoop_rule (hheap : HeapAt m₁ heap os) : ∀ (bs as : List Obj) (fuel scan t : ℕ)
    {m : ByteMemory}, os = as ++ bs → scan = laidEnd room heap.begin as →
    KeepsFlags (laid room heap.begin os) m₁ m → t ≤ scan → t % 8 = 0 → bs.length < fuel →
    ∃ m', computeLocationsLoop heap fuel m scan t =
        .ok (m', laidEnd room t (survivors (liveAt m₁) (laid room scan bs))) ∧
      KeepsFlags (laid room heap.begin os) m₁ m' ∧
      (∀ v ∈ slide room (liveAt m₁) t (laid room scan bs), getForwardAddress m' (v.source + dataHeaderSz) = v.target) ∧
      ∀ j o, (j, o) ∈ laid room heap.begin as →
        getForwardAddress m' (j + dataHeaderSz) = getForwardAddress m (j + dataHeaderSz)
  | _, _, 0, _, _, _, _, _, _, _, _, hfuel => absurd hfuel (Nat.not_lt_zero _)
  | [], as, fuel + 1, scan, t, m, hos, hscan, hm, _, _, _ => by
    have hdone : heapIsDoneIterator heap scan = true := by
      rw [hos, List.append_nil] at hheap
      rw [hscan, hheap.current]
      exact decide_eq_true (Nat.le_refl _)
    rw [computeLocationsLoop, hdone, if_pos rfl]
    exact ⟨m, rfl, hm, fun v hv => absurd hv List.not_mem_nil, fun _ _ _ => rfl⟩
  | b :: bs, as, fuel + 1, scan, t, m, hos, hscan, hm, ht, hmod, hfuel => by
    have hb : (scan, b) ∈ laid room heap.begin os := by
      rw [hos, laid_append, ← hscan]
      exact List.mem_append_right _ List.mem_cons_self
    obtain ⟨-, -, hplace⟩ := hheap.place hb
    have hroom := room_ge b
    have hlt := hheap.lt
    have hdone : heapIsDoneIterator heap scan = false := decide_eq_false (by omega)
    have hos' : os = (as ++ [b]) ++ bs := by rw [hos, List.append_assoc]; rfl
    have hscan' : scan + room b = laidEnd room heap.begin (as ++ [b]) := by rw [laidEnd_append, ← hscan]; rfl
    have hobj := hm.only.object hb (hheap.objects _ _ hb)
    have hlater : ∀ j o, (j, o) ∈ laid room heap.begin as → (j, o) ∈ laid room heap.begin (as ++ [b]) := by
      intro j o hj
      rw [laid_append]
      exact List.mem_append_left _ hj
    rw [computeLocationsLoop, hdone, if_neg Bool.false_ne_true, hobj.content, except_ok_bind]
    cases hlive : liveAt m₁ scan with
    | true =>
      have hmarked : isMarked m (scan + dataHeaderSz) = true := (hm.live hb).trans hlive
      obtain ⟨honly, haddr, hflags⟩ := setForwardAddress_spec hb (show t % 4 = 0 by omega)
        (show t < 2 ^ 64 by omega) m
      have hset : KeepsFlags (laid room heap.begin os) m (setForwardAddress m (scan + dataHeaderSz) t) :=
        ⟨honly, fun j o hj => (hflags j o hj).1, fun j o hj => (hflags j o hj).2.1⟩
      have hobj' := honly.object hb hobj
      have hsize : wordSize * bytesToWords (objSize b) = room b := by
        have := objSize_ge b
        have := hobj.fits
        rw [bytesToWords_eq (by omega) (by omega)]
        rfl
      obtain ⟨m', hloop, hm', hmoved, hkept⟩ := computeLocationsLoop_rule hheap bs (as ++ [b]) fuel
        (scan + room b) (t + room b) hos' hscan' (hm.trans hset) (by omega)
        (by have := room_mod b; omega) (by rw [List.length_cons] at hfuel; omega)
      rw [if_pos hmarked, hobj.size, except_ok_bind]
      dsimp only
      rw [hobj'.next, except_ok_bind, hsize, hloop, laid_cons, survivors_cons_live hlive, laidEnd_cons,
        slide_cons_live hlive]
      refine ⟨m', rfl, hm', fun v hv => ?_, fun j o hj => ?_⟩
      · rcases List.mem_cons.mp hv with rfl | hv
        · rw [hkept scan b (by
            rw [laid_append, ← hscan]
            exact List.mem_append_right _ List.mem_cons_self)]
          exact haddr
        · exact hmoved v hv
      · have hj' : (j, o) ∈ laid room heap.begin os := by
          rw [hos, laid_append]
          exact List.mem_append_left _ hj
        have hne : j ≠ scan := by
          have := (laid_bounds hj).2
          have := room_pos o
          omega
        rw [hkept j o (hlater j o hj), (hflags j o hj').2.2 hne]
    | false =>
      have hmarked : isMarked m (scan + dataHeaderSz) = false := (hm.live hb).trans hlive
      obtain ⟨m', hloop, hm', hmoved, hkept⟩ := computeLocationsLoop_rule hheap bs (as ++ [b]) fuel
        (scan + room b) t hos' hscan' hm (by omega) hmod (by rw [List.length_cons] at hfuel; omega)
      rw [hmarked, if_neg Bool.false_ne_true, hobj.next, except_ok_bind, hloop, laid_cons,
        survivors_cons_dead hlive, slide_cons_dead hlive]
      exact ⟨m', rfl, hm', hmoved, fun j o hj => hkept j o (hlater j o hj)⟩

/-- The words of what is left are whole ones. -/
theorem liveSize_eq (haligned : heap.begin % 8 = 0) : heap.begin + wordsToBytes (liveSize m heap os) =
    laidEnd room heap.begin (survivors (liveAt m) (laid room heap.begin os)) := by
  have hge := le_laidEnd room (survivors (liveAt m) (laid room heap.begin os)) heap.begin
  have hmod : ∀ (os : List Obj) (i : ℕ), i % 8 = 0 → laidEnd room i os % 8 = 0 := by
    intro os
    induction os with
    | nil => exact fun i hi => hi
    | cons o os ih => exact fun i hi => ih _ (by have := room_mod o; omega)
  have := hmod (survivors (liveAt m) (laid room heap.begin os)) heap.begin haligned
  unfold liveSize wordsToBytes wordSize
  omega

/-- `compute_locations` returns the words the marked objects take up, with their new places in their
    forward words. -/
theorem computeLocations_exact (hheap : HeapAt m₁ heap os) (hfuel : os.length < fuel) :
    ∃ m, computeLocations heap fuel m₁ = .ok (m, liveSize m₁ heap os) ∧
      KeepsFlags (laid room heap.begin os) m₁ m ∧
      ∀ v ∈ moves m₁ heap os, getForwardAddress m (v.source + dataHeaderSz) = v.target := by
  obtain ⟨m, hloop, hm, hmoved, -⟩ := computeLocationsLoop_rule hheap os [] fuel heap.begin heap.begin rfl rfl
    (.refl _ _) (Nat.le_refl _) hheap.aligned hfuel
  exact ⟨m, by rw [computeLocations, hloop]; rfl, hm, hmoved⟩

end Locations

/-! ### References -/

/-- What becomes of a word when objects move by `mvs` and the places are those from `start` on instead of
    those from `base` on. -/
def relocated (mvs : List (Move Obj)) (base start : ℕ) (w : Word) : Word :=
  match mvs.find? fun v => v.source + dataHeaderSz == w.toNat with
  | some v => BitVec.ofNat 64 (start + (v.target - base) + dataHeaderSz)
  | none => w

/-- While references are rewritten, the copy of the heap from `start` on keeps its headers, and the forward
    words of what moves. -/
structure CopyAt (mvs : List (Move Obj)) (oldHeap : MemoryChunk) (start : ℕ) (os : List Obj) (m : ByteMemory) :
    Prop where
  headers : ∀ j o, (j, o) ∈ laid room start os → HeaderAt m j o
  forwards : ∀ v ∈ mvs, getForwardAddress m (start + (v.source - oldHeap.begin) + dataHeaderSz) = v.target

/-- What moves, as seen from the old heap: different objects of it, to places in it. -/
structure MovesIn (mvs : List (Move Obj)) (oldHeap : MemoryChunk) (os : List Obj) : Prop where
  place : ∀ v ∈ mvs, (v.source, v.item) ∈ laid room oldHeap.begin os
  same : ∀ v ∈ mvs, ∀ u ∈ mvs, v.source = u.source → v = u
  target : ∀ v ∈ mvs, oldHeap.begin ≤ v.target

/-- A word that looks like a pointer into the old heap points to an object that moves. -/
def Moving (mvs : List (Move Obj)) (oldHeap : MemoryChunk) (w : Word) : Prop :=
  isValidPointer w = true → inOldHeap oldHeap w = true → ∃ v ∈ mvs, w.toNat = v.source + dataHeaderSz

section References

variable {mvs : List (Move Obj)} {heap oldHeap : MemoryChunk} {start : ℕ} {os : List Obj} {m m' : ByteMemory}
  {w : Word} {v : Move Obj} {p : ℕ}

theorem relocated_move (hmvs : MovesIn mvs oldHeap os) (hv : v ∈ mvs) (hw : w.toNat = v.source + dataHeaderSz) :
    relocated mvs oldHeap.begin start w =
      BitVec.ofNat 64 (start + (v.target - oldHeap.begin) + dataHeaderSz) := by
  rw [relocated]
  cases hfind : mvs.find? fun v => v.source + dataHeaderSz == w.toNat with
  | none =>
    have hnone := List.find?_eq_none.mp hfind v hv
    exact absurd (beq_iff_eq.mpr hw.symm) hnone
  | some u =>
    have hu := beq_iff_eq.mp (List.find?_some (p := fun v : Move Obj => v.source + dataHeaderSz == w.toNat) hfind)
    rw [hmvs.same v hv u (List.mem_of_find?_eq_some hfind) (by omega)]

theorem relocated_stay (h : ∀ v ∈ mvs, w.toNat ≠ v.source + dataHeaderSz) :
    relocated mvs oldHeap.begin start w = w := by
  rw [relocated, List.find?_eq_none.mpr]
  intro v hv heq
  exact h v hv (beq_iff_eq.mp heq).symm

/-- The header of an object and its forward word are kept. -/
theorem CopyAt.keep (h : CopyAt mvs oldHeap start os m) (hmvs : MovesIn mvs oldHeap os)
    (hc : ∀ j o, (j, o) ∈ laid room start os → Copied m j m' j 16) : CopyAt mvs oldHeap start os m' := by
  refine ⟨fun j o hj => (h.headers j o hj).copied ((hc j o hj).mono (by decide)), fun v hv => ?_⟩
  rw [← h.forwards v hv]
  have hplace : (start + (v.source - oldHeap.begin), v.item) ∈ laid room start os :=
    laid_rebase (hmvs.place v hv)
  refine getForwardAddress_congr (Copied.load64 ?_)
  have hsub := (hc _ _ hplace).sub (k := 8) (l := 8) (by decide)
  rwa [show forwardPtr (start + (v.source - oldHeap.begin) + dataHeaderSz) =
    start + (v.source - oldHeap.begin) + 8 by unfold forwardPtr toData wordSize dataHeaderSz; omega]

/-- The new address of an object that moves. -/
theorem newAddress_eq (hcopy : CopyAt mvs oldHeap heap.begin os m) (hmvs : MovesIn mvs oldHeap os)
    (hv : v ∈ mvs) (hw : w.toNat = v.source + dataHeaderSz) :
    newAddress heap oldHeap m w = .ok (relocated mvs oldHeap.begin heap.begin w) := by
  have hplace := hmvs.place v hv
  have hlow := (laid_bounds hplace).1
  have htarget := hmvs.target v hv
  have hobj : heap.begin + (w.toNat - oldHeap.begin) =
      heap.begin + (v.source - oldHeap.begin) + dataHeaderSz := by omega
  have htype := (hcopy.headers _ _ (laid_rebase hplace)).type
  rw [newAddress, hobj, hcopy.forwards v hv, getTypeRowPtr, toData, Nat.add_sub_cancel, htype, except_ok_bind,
    relocated_move hmvs hv hw]
  refine congrArg Except.ok ?_
  rw [← BitVec.ofInt_natCast]
  congr 1
  unfold getHeaderSize
  omega

/-- `scan_and_fix_region` on one word. -/
theorem fixWord_rule (hcopy : CopyAt mvs oldHeap heap.begin os m) (hmvs : MovesIn mvs oldHeap os)
    (hrange : ∀ v ∈ mvs, ∀ w : Word, w.toNat = v.source + dataHeaderSz →
      isValidPointer w = true ∧ inOldHeap oldHeap w = true)
    (hw : Moving mvs oldHeap (load64 m p)) :
    ∃ m', fixWord heap oldHeap m p = .ok m' ∧
      load64 m' p = relocated mvs oldHeap.begin heap.begin (load64 m p) ∧
      ∀ b, b < p ∨ p + 8 ≤ b → m' b = m b := by
  rw [fixWord]
  cases htest : isValidPointer (load64 m p) && inOldHeap oldHeap (load64 m p) with
  | true =>
    obtain ⟨hvalid, hold⟩ := Bool.and_eq_true_iff.mp htest
    obtain ⟨v, hv, hwv⟩ := hw hvalid hold
    refine ⟨store64 m p (relocated mvs oldHeap.begin heap.begin (load64 m p)), ?_, load64_store64,
      fun b hb => store64_of_not_mem hb⟩
    rw [if_pos rfl, newAddress_eq hcopy hmvs hv hwv]
    rfl
  | false =>
    refine ⟨m, rfl, (relocated_stay fun v hv hwv => ?_).symm, fun _ _ => rfl⟩
    obtain ⟨hvalid, hold⟩ := hrange v hv _ hwv
    rw [hvalid, hold] at htest
    cases htest

/-- Words at addresses apart from each other and from the copy are rewritten one after the other. -/
theorem fixWords_rule (hmvs : MovesIn mvs oldHeap os)
    (hrange : ∀ v ∈ mvs, ∀ w : Word, w.toNat = v.source + dataHeaderSz →
      isValidPointer w = true ∧ inOldHeap oldHeap w = true) : ∀ (l : List ℕ) {m : ByteMemory},
    CopyAt mvs oldHeap heap.begin os m → l.Pairwise (fun p q => p + 8 ≤ q ∨ q + 8 ≤ p) →
    (∀ p ∈ l, p + 8 ≤ heap.begin ∨ laidEnd room heap.begin os ≤ p) →
    (∀ p ∈ l, Moving mvs oldHeap (load64 m p)) →
    ∃ m', l.foldlM (fixWord heap oldHeap) m = .ok m' ∧
      (∀ p ∈ l, load64 m' p = relocated mvs oldHeap.begin heap.begin (load64 m p)) ∧
      ∀ b, (∀ p ∈ l, b < p ∨ p + 8 ≤ b) → m' b = m b
  | [], m, _, _, _, _ => ⟨m, rfl, fun p hp => absurd hp List.not_mem_nil, fun _ _ => rfl⟩
  | p :: l, m, hcopy, hapart, hout, hmoving => by
    obtain ⟨hp, hl⟩ := List.pairwise_cons.mp hapart
    obtain ⟨m₁, hfix, hword, hrest⟩ := fixWord_rule hcopy hmvs hrange (hmoving p List.mem_cons_self)
    have hsame : ∀ q ∈ l, load64 m₁ q = load64 m q := fun q hq =>
      Copied.load64 fun k hk => hrest _ (by have := hp q hq; omega)
    have hcopy₁ : CopyAt mvs oldHeap heap.begin os m₁ := hcopy.keep hmvs fun j o hj k hk => hrest _ (by
      have := laid_bounds hj
      have := room_ge o
      have := hout p List.mem_cons_self
      omega)
    obtain ⟨m', hloop, hwords, hrest'⟩ := fixWords_rule hmvs hrange l hcopy₁ hl
      (fun q hq => hout q (List.mem_cons_of_mem _ hq))
      fun q hq => by rw [hsame q hq]; exact hmoving q (List.mem_cons_of_mem _ hq)
    refine ⟨m', ?_, fun q hq => ?_, fun b hb => ?_⟩
    · rw [List.foldlM_cons, hfix]
      exact hloop
    · rcases List.mem_cons.mp hq with rfl | hq
      · rw [← hword]
        exact Copied.load64 fun k hk => hrest' _ fun r hr => by
          have := hp r hr
          omega
      · rw [hwords q hq, hsame q hq]
    · rw [hrest' b fun q hq => hb q (List.mem_cons_of_mem _ hq), hrest b (hb p List.mem_cons_self)]

end References

/-- The first `k` pointers of the object `o` at `j` have been rewritten since the memory was `m`. -/
structure Rewriting (f : Word → Word) (m : ByteMemory) (j : ℕ) (o : Obj) (k : ℕ) (m' : ByteMemory) : Prop where
  words : ∀ i w, o.pointers[i]? = some w → load64 m' (j + fieldOffset o + 8 * i) = if i < k then f w else w
  rest : ∀ b, b < j + fieldOffset o ∨ j + objSize o ≤ b → m' b = m b

section Fields

variable {mvs : List (Move Obj)} {heap oldHeap : MemoryChunk} {os : List Obj} {m m' : ByteMemory} {j k : ℕ}
  {o : Obj} {w : Word} {f : Word → Word}

theorem Rewriting.header (h : Rewriting f m j o k m') (ho : HeaderAt m j o) : HeaderAt m' j o := by
  refine ho.copied fun i hi => h.rest _ (.inl ?_)
  have := fieldOffset_ge o
  omega

/-- The object with all pointers rewritten. -/
theorem Rewriting.object (h : Rewriting f m j o o.pointers.length m') (ho : ObjAt m j o) :
    ObjAt m' j (o.map f) := by
  have hoff := fieldOffset_ge o
  have hword : ∀ i w, o.pointers[i]? = some w → load64 m' (j + fieldOffset o + 8 * i) = f w := by
    intro i w hi
    rw [h.words i w hi, if_pos (List.getElem?_eq_some_iff.mp hi).1]
  refine ⟨(h.header ho.toHeaderAt).map, ?_⟩
  have hc := ho.contents
  cases o with
  | string contents =>
    exact (Copied.bytesFrom fun i hi => h.rest _ (.inl (by simp only [fieldOffset]; omega))).trans hc
  | array elems =>
    intro i w hi
    obtain ⟨w', hw', rfl⟩ := Option.map_eq_some_iff.mp ((List.getElem?_map ..).symm.trans hi)
    exact hword i w' hw'
  | sexp tag fields | closure entry captured =>
    intro i w hi
    cases i with
    | zero =>
      rw [← hc 0 w hi]
      exact Copied.load64 fun i hi => h.rest _ (.inl (by simp only [fieldOffset]; omega))
    | succ i =>
      rw [List.getElem?_cons_succ] at hi
      obtain ⟨w', hw', rfl⟩ := Option.map_eq_some_iff.mp ((List.getElem?_map ..).symm.trans hi)
      rw [← hword i w' hw']
      congr 1
      simp only [fieldOffset]
      omega

/-- Rewriting pointers of one object leaves headers and forward words. -/
theorem Rewriting.copy (h : Rewriting f m j o k m') (hcopy : CopyAt mvs oldHeap heap.begin os m)
    (hmvs : MovesIn mvs oldHeap os) (hj : (j, o) ∈ laid room heap.begin os) :
    CopyAt mvs oldHeap heap.begin os m' := by
  refine hcopy.keep hmvs fun i o' hi l hl => h.rest _ ?_
  have := fieldOffset_ge o
  have := objSize_le_room o
  rcases laid_apart hj hi with ⟨rfl, -⟩ | hlt | hlt
  · omega
  · omega
  · have := room_ge o'
    omega

/-- The loop of `update_references` over the pointers of one object. -/
theorem rewriting_loop (hcopy : CopyAt mvs oldHeap heap.begin os m) (hmvs : MovesIn mvs oldHeap os)
    (hrange : ∀ v ∈ mvs, ∀ w : Word, w.toNat = v.source + dataHeaderSz →
      isValidPointer w = true ∧ inOldHeap oldHeap w = true)
    (hj : (j, o) ∈ laid room heap.begin os) (hpointers : ∀ w ∈ o.pointers, Moving mvs oldHeap w) :
    FieldLoop id (updateField heap oldHeap) j o
      (Rewriting (relocated mvs oldHeap.begin heap.begin) m j o) := by
  have hstay : ∀ w, ¬ (isValidPointer w = true ∧ inOldHeap oldHeap w = true) →
      relocated mvs oldHeap.begin heap.begin w = w :=
    fun w h => relocated_stay fun v hv hwv => h (hrange v hv w hwv)
  -- a pointer that stays is as good as rewritten
  have hpass : ∀ k s w, Rewriting (relocated mvs oldHeap.begin heap.begin) m j o k s → o.pointers[k]? = some w →
      relocated mvs oldHeap.begin heap.begin w = w →
      Rewriting (relocated mvs oldHeap.begin heap.begin) m j o (k + 1) s := by
    intro k s w hs hw hsame
    refine ⟨fun i w' hi => ?_, hs.rest⟩
    rw [hs.words i w' hi]
    by_cases hik : i = k
    · subst hik
      rw [hw] at hi
      cases hi
      rw [if_neg (Nat.lt_irrefl _), if_pos (Nat.lt_succ_self _), hsame]
    · by_cases hlt : i < k
      · rw [if_pos hlt, if_pos (by omega)]
      · rw [if_neg hlt, if_neg (by omega)]
  refine ⟨fun k s hs => hs.header (hcopy.headers j o hj), fun k s hs i w hki hw => ?_,
    fun k s w hs hw hodd => ?_, fun k s w hs hw hvalid => ?_⟩
  · exact (hs.words i w hw).trans (if_neg (by omega))
  · refine hpass k s w hs hw (hstay w fun h => ?_)
    rw [h.1] at hodd
    cases hodd
  · have hload : load64 s (fieldIt j o k).curField = w := (hs.words k w hw).trans (if_neg (Nat.lt_irrefl k))
    rw [updateField, hload]
    cases hold : inOldHeap oldHeap w with
    | false =>
      refine ⟨s, rfl, hpass k s w hs hw (hstay w fun h => ?_)⟩
      rw [h.2] at hold
      cases hold
    | true =>
      obtain ⟨v, hv, hwv⟩ := hpointers w (List.mem_of_getElem? hw) hvalid hold
      have hin := (List.getElem?_eq_some_iff.mp hw).1
      have hsize := objSize_eq o
      refine ⟨store64 s (j + fieldOffset o + 8 * k) (relocated mvs oldHeap.begin heap.begin w), ?_,
        fun i w' hi => ?_, fun b hb => ?_⟩
      · show (newAddress heap oldHeap s w >>= fun newAddr => _) = _
        rw [newAddress_eq (hs.copy hcopy hmvs hj) hmvs hv hwv]
        rfl
      · by_cases hik : i = k
        · subst hik
          rw [hw] at hi
          cases hi
          rw [load64_store64, if_pos (Nat.lt_succ_self _)]
        · rw [load64_store64_of_disjoint (by omega), hs.words i w' hi]
          by_cases hlt : i < k
          · rw [if_pos hlt, if_pos (by omega)]
          · rw [if_neg hlt, if_neg (by omega)]
      · rw [store64_of_not_mem (by omega), hs.rest b hb]

end Fields

/-- The pointers of the live objects among `as` are rewritten since the memory was `m`, those of `bs` are
    not yet. -/
structure Updating (f : Word → Word) (m : ByteMemory) (start : ℕ) (as bs : List Obj) (m' : ByteMemory) : Prop where
  done : ∀ j o, (j, o) ∈ laid room start as → ObjAt m' j (if liveAt m j then o.map f else o)
  left : ∀ j o, (j, o) ∈ laid room (laidEnd room start as) bs → ObjAt m' j o
  forwards : ∀ j o, (j, o) ∈ laid room start (as ++ bs) → Copied m (j + 8) m' (j + 8) 8
  outside : ∀ b, b < start ∨ laidEnd room start (as ++ bs) ≤ b → m' b = m b

section Objects

variable {mvs : List (Move Obj)} {heap oldHeap : MemoryChunk} {os as bs : List Obj} {m m' m'' : ByteMemory}
  {j k start : ℕ} {o b : Obj} {f : Word → Word}

theorem HeaderAt.of_map (h : HeaderAt m j (o.map f)) : HeaderAt m j o := by
  have hheader := h.header
  have hfits := h.fits
  rw [kind_map, len_map] at hheader
  rw [objSize_map] at hfits
  refine ⟨hheader, ?_, hfits⟩
  rintro rfl
  exact h.closed rfl

theorem Updating.header (h : Updating f m start as bs m') (hj : (j, o) ∈ laid room start (as ++ bs)) :
    HeaderAt m' j o := by
  rw [laid_append] at hj
  rcases List.mem_append.mp hj with hj | hj
  · have hdone := (h.done j o hj).toHeaderAt
    by_cases hlive : liveAt m j = true
    · rw [if_pos hlive] at hdone
      exact hdone.of_map
    · rwa [if_neg hlive] at hdone
  · exact (h.left j o hj).toHeaderAt

theorem Updating.live (h : Updating f m start as bs m') (hj : (j, o) ∈ laid room start (as ++ bs)) :
    isMarked m' (j + dataHeaderSz) = liveAt m j := by
  refine Bool.eq_iff_iff.mpr (marked_congr (Copied.load64 ?_))
  have hf := h.forwards j o hj
  rwa [show forwardPtr (j + dataHeaderSz) = j + 8 by unfold forwardPtr toData wordSize dataHeaderSz; omega]

theorem Updating.copy (h : Updating f m heap.begin as bs m') (hmvs : MovesIn mvs oldHeap (as ++ bs))
    (hcopy : CopyAt mvs oldHeap heap.begin (as ++ bs) m) : CopyAt mvs oldHeap heap.begin (as ++ bs) m' := by
  refine ⟨fun j o hj => h.header hj, fun v hv => ?_⟩
  rw [← hcopy.forwards v hv]
  refine getForwardAddress_congr (Copied.load64 ?_)
  have hf := h.forwards _ _ (laid_rebase (hmvs.place v hv))
  rwa [show forwardPtr (heap.begin + (v.source - oldHeap.begin) + dataHeaderSz) =
    heap.begin + (v.source - oldHeap.begin) + 8 by unfold forwardPtr toData wordSize dataHeaderSz; omega]

/-- The next object is done: what it holds is rewritten when it is live, and nothing else changes. -/
theorem Updating.advance (h : Updating f m start as (b :: bs) m')
    (hobj : ObjAt m'' (laidEnd room start as) (if liveAt m (laidEnd room start as) then b.map f else b))
    (hrest : ∀ i, i < laidEnd room start as + 16 ∨ laidEnd room start as + objSize b ≤ i → m'' i = m' i) :
    Updating f m start (as ++ [b]) bs m'' := by
  have hroom := objSize_le_room b
  have hsame : ∀ i n, i + n ≤ laidEnd room start as ∨ laidEnd room start as + room b ≤ i → Copied m' i m'' i n :=
    fun i n hi k hk => hrest _ (by omega)
  have hos : as ++ [b] ++ bs = as ++ b :: bs := by rw [List.append_assoc]; rfl
  have hbmem : (laidEnd room start as, b) ∈ laid room start (as ++ b :: bs) := by
    rw [laid_append]
    exact List.mem_append_right _ List.mem_cons_self
  refine ⟨fun j o hj => ?_, fun j o hj => ?_, fun j o hj => ?_, fun i hi => ?_⟩
  · rw [laid_append] at hj
    rcases List.mem_append.mp hj with hj | hj
    · have hend := (laid_bounds hj).2
      refine (h.done j o hj).moved (hsame j _ (.inl ?_))
      have := objSize_le_room o
      split
      · rw [objSize_map]
        omega
      · omega
    · cases List.mem_singleton.mp hj
      exact hobj
  · rw [laidEnd_append] at hj
    refine (h.left j o (List.mem_cons_of_mem _ hj)).moved (hsame j _ (.inr ?_))
    exact (laid_bounds hj).1
  · rw [hos] at hj
    refine (h.forwards j o hj).trans fun k hk => hrest _ ?_
    have := room_ge o
    have := room_ge b
    rcases laid_apart hbmem hj with ⟨rfl, rfl⟩ | hlt | hlt <;> omega
  · rw [hos] at hi
    rw [← h.outside i hi]
    have := laid_bounds hbmem
    exact hrest i (by omega)

theorem updateReferencesLoop_rule (hmvs : MovesIn mvs oldHeap os) (hcopy : CopyAt mvs oldHeap heap.begin os m)
    (hcurrent : laidEnd room heap.begin os = heap.current)
    (hrange : ∀ v ∈ mvs, ∀ w : Word, w.toNat = v.source + dataHeaderSz →
      isValidPointer w = true ∧ inOldHeap oldHeap w = true)
    (hpointers : ∀ j o, (j, o) ∈ laid room heap.begin os → liveAt m j = true → ∀ w ∈ o.pointers,
      Moving mvs oldHeap w) {bound : ℕ} (hbound : ∀ o ∈ os, o.pointers.length < bound) :
    ∀ (bs as : List Obj) (fuel : ℕ) {m' : ByteMemory}, os = as ++ bs →
    Updating (relocated mvs oldHeap.begin heap.begin) m heap.begin as bs m' → bs.length < fuel →
    ∃ m'', updateReferencesLoop heap oldHeap bound fuel m' (laidEnd room heap.begin as) = .ok m'' ∧
      Updating (relocated mvs oldHeap.begin heap.begin) m heap.begin os [] m''
  | _, _, 0, _, _, _, hfuel => absurd hfuel (Nat.not_lt_zero _)
  | [], as, fuel + 1, m', hos, h, _ => by
    rw [List.append_nil] at hos
    have hdone : heapIsDoneIterator heap (laidEnd room heap.begin as) = true :=
      decide_eq_true (by rw [← hos, hcurrent])
    rw [updateReferencesLoop, hdone, if_pos rfl, hos]
    exact ⟨m', rfl, h⟩
  | b :: bs, as, fuel + 1, m', hos, h, hfuel => by
    have hb : (laidEnd room heap.begin as, b) ∈ laid room heap.begin os := by
      rw [hos, laid_append]
      exact List.mem_append_right _ List.mem_cons_self
    have hend := (laid_bounds hb).2
    have hpos := room_pos b
    have hdone : heapIsDoneIterator heap (laidEnd room heap.begin as) = false :=
      decide_eq_false (by omega)
    have hobj : ObjAt m' (laidEnd room heap.begin as) b := h.left _ _ List.mem_cons_self
    have hos' : os = as ++ [b] ++ bs := by rw [hos, List.append_assoc]; rfl
    have hlive := h.live (hos ▸ hb)
    rw [updateReferencesLoop, hdone, if_neg Bool.false_ne_true, hobj.content, except_ok_bind]
    have hnext : laidEnd room heap.begin as + room b = laidEnd room heap.begin (as ++ [b]) := by
      rw [laidEnd_append]
      rfl
    cases hmarked : isMarked m' (laidEnd room heap.begin as + dataHeaderSz) with
    | true =>
      rw [hmarked] at hlive
      obtain ⟨m₁, hfields, hrewritten⟩ := forPtrFields_rule
        (rewriting_loop (m := m') (by rw [hos]; exact h.copy (hos ▸ hmvs) (hos ▸ hcopy)) hmvs hrange hb
          (hpointers _ _ hb hlive.symm))
        (s := m') ⟨fun i w _ => by
          rw [if_neg (Nat.not_lt_zero i)]
          exact hobj.pointers i w ‹_›, fun _ _ => rfl⟩
        (hbound b (by rw [hos]; simp))
      have hobj₁ := hrewritten.object hobj
      have hoff := fieldOffset_ge b
      have hstep : Updating (relocated mvs oldHeap.begin heap.begin) m heap.begin (as ++ [b]) bs m₁ :=
        h.advance (by rw [← hlive, if_pos rfl]; exact hobj₁) fun i hi => hrewritten.rest i (by omega)
      obtain ⟨m'', hloop, hdone⟩ := updateReferencesLoop_rule hmvs hcopy hcurrent hrange hpointers hbound bs
        (as ++ [b]) fuel hos' hstep (by rw [List.length_cons] at hfuel; omega)
      refine ⟨m'', ?_, hdone⟩
      rw [if_pos rfl, hfields, except_ok_bind]
      dsimp only
      rw [hobj₁.next, except_ok_bind, room_map, hnext]
      exact hloop
    | false =>
      rw [hmarked] at hlive
      have hstep : Updating (relocated mvs oldHeap.begin heap.begin) m heap.begin (as ++ [b]) bs m' :=
        h.advance (by rw [← hlive, if_neg Bool.false_ne_true]; exact hobj) fun _ _ => rfl
      obtain ⟨m'', hloop, hdone⟩ := updateReferencesLoop_rule hmvs hcopy hcurrent hrange hpointers hbound bs
        (as ++ [b]) fuel hos' hstep (by rw [List.length_cons] at hfuel; omega)
      refine ⟨m'', ?_, hdone⟩
      rw [if_neg Bool.false_ne_true]
      show (heapNextObjIterator m' _ >>= fun it => _) = _
      rw [hobj.next, except_ok_bind, hnext]
      exact hloop

end Objects

/-! ### Relocation -/

/-- The live objects among the first ones have slid down since the memory was `m`, to places below `t`. -/
structure Sliding (m : ByteMemory) (start : ℕ) (as : List Obj) (t : ℕ) (m' : ByteMemory) : Prop where
  moved : ∀ k o, (k, o) ∈ laid room start (survivors (liveAt m) (laid room start as)) →
    ObjAt m' k o ∧ ¬ Marked m' k ∧ ¬ Enqueued m' k
  target : t = laidEnd room start (survivors (liveAt m) (laid room start as))
  above : ∀ b, laidEnd room start as ≤ b → m' b = m b
  below : ∀ b, b < start → m' b = m b

section Relocation

variable {heap oldHeap : MemoryChunk} {os as bs : List Obj} {m m' : ByteMemory} {j k start t fuel : ℕ}
  {o b : Obj}

/-- What is marked and enqueued is read from the forward word. -/
theorem flags_copied (h : Copied m (j + 8) m' (k + 8) 8) :
    isMarked m' (k + dataHeaderSz) = isMarked m (j + dataHeaderSz) ∧
      isEnqueued m' (k + dataHeaderSz) = isEnqueued m (j + dataHeaderSz) ∧
      getForwardAddress m' (k + dataHeaderSz) = getForwardAddress m (j + dataHeaderSz) := by
  have hword : forwardWord m' (k + dataHeaderSz) = forwardWord m (j + dataHeaderSz) := by
    have hptr : ∀ i, forwardPtr (i + dataHeaderSz) = i + 8 := fun i => by
      unfold forwardPtr toData wordSize dataHeaderSz
      omega
    rw [forwardWord, forwardWord, hptr, hptr]
    exact h.load64
  refine ⟨?_, ?_, ?_⟩
  · rw [isMarked_eq, isMarked_eq, hword]
  · rw [isEnqueued_eq, isEnqueued_eq, hword]
  · show (GET_FORWARD_ADDRESS (forwardWord m' _)).toNat = (GET_FORWARD_ADDRESS (forwardWord m _)).toNat
    rw [hword]

/-- Objects that end below `t` are not touched by what is written from `t` on. -/
theorem Sliding.kept {m'' : ByteMemory} (h : Sliding m start as t m') (hm : ∀ b, b < t → m'' b = m' b)
    (hk : (k, o) ∈ laid room start (survivors (liveAt m) (laid room start as))) :
    ObjAt m'' k o ∧ ¬ Marked m'' k ∧ ¬ Enqueued m'' k := by
  obtain ⟨hobj, hmarked, henqueued⟩ := h.moved k o hk
  have hend := (laid_bounds hk).2
  rw [← h.target] at hend
  have hsize := objSize_le_room o
  have hroom := room_ge o
  have hforward : Copied m' (k + 8) m'' (k + 8) 8 := fun i _ => hm _ (by omega)
  obtain ⟨hm', he', -⟩ := flags_copied hforward
  refine ⟨hobj.moved fun i _ => hm _ (by omega), ?_, ?_⟩
  · rwa [Marked, hm']
  · rwa [Enqueued, he']

/-- An object that is not live is passed over. -/
theorem Sliding.pass (h : Sliding m start as t m') (hlive : liveAt m (laidEnd room start as) = false) :
    Sliding m start (as ++ [b]) t m' := by
  have hsame : survivors (liveAt m) (laid room start (as ++ [b])) = survivors (liveAt m) (laid room start as) := by
    have hone : survivors (liveAt m) [(laidEnd room start as, b)] = [] := survivors_cons_dead hlive
    rw [laid_append, survivors, List.filter_append, List.map_append]
    exact (congrArg _ hone).trans (List.append_nil _)
  refine ⟨by rw [hsame]; exact h.moved, by rw [hsame]; exact h.target, fun i hi => h.above i ?_, h.below⟩
  rw [laidEnd_append] at hi
  exact Nat.le_trans (Nat.le_add_right _ _) hi

/-- A live object is moved to `t` and unmarked. -/
theorem Sliding.slide (h : Sliding m start as t m') (hobj : ObjAt m' (laidEnd room start as) b)
    (hlive : liveAt m (laidEnd room start as) = true) (henqueued : ¬ Enqueued m' (laidEnd room start as)) :
    HeaderAt (moveBytes m' t (laidEnd room start as) (objSize b)) t b ∧
      Sliding m start (as ++ [b]) (t + room b)
        (unmarkObject (moveBytes m' t (laidEnd room start as) (objSize b)) (t + dataHeaderSz)) := by
  have hsize := objSize_le_room b
  have hge := objSize_ge b
  have hle : t ≤ laidEnd room start as := by
    rw [h.target]
    exact laidEnd_survivors (Nat.le_refl _)
  have hlow : start ≤ t := by
    rw [h.target]
    exact le_laidEnd _ _ _
  have hcopied : Copied m' (laidEnd room start as) (moveBytes m' t (laidEnd room start as) (objSize b)) t
    (objSize b) := copied_moveBytes
  have hmoved := hobj.moved hcopied
  have hsame : survivors (liveAt m) (laid room start (as ++ [b])) =
      survivors (liveAt m) (laid room start as) ++ [b] := by
    have hone : survivors (liveAt m) [(laidEnd room start as, b)] = [b] := survivors_cons_live hlive
    rw [laid_append, survivors, List.filter_append, List.map_append]
    exact congrArg _ hone
  have hself : (t, b) ∈ laid room (MemoryChunk.mk t t t t).begin [b] := List.mem_cons_self
  have hup : Updates (laid room t [b]) (moveBytes m' t (laidEnd room start as) (objSize b))
      (unmarkObject (moveBytes m' t (laidEnd room start as) (objSize b)) (t + dataHeaderSz)) t RESET_MARK_BIT :=
    updates_forward hself
  have hwritten : ∀ i, i < t ∨ t + objSize b ≤ i →
      unmarkObject (moveBytes m' t (laidEnd room start as) (objSize b)) (t + dataHeaderSz) i = m' i := by
    intro i hi
    rw [hup.only i fun j o hj => ?_]
    · exact moveBytes_of_not_mem hi
    · cases List.mem_singleton.mp hj
      unfold dataHeaderSz
      omega
  refine ⟨hmoved.toHeaderAt, ⟨fun k o hk => ?_, ?_, fun i hi => ?_, fun i hi => ?_⟩⟩
  · rw [hsame, laid_append, ← h.target] at hk
    rcases List.mem_append.mp hk with hk | hk
    · exact h.kept (fun i hi => hwritten i (.inl hi)) hk
    · cases List.mem_singleton.mp hk
      refine ⟨hup.only.object hself hmoved, ?_, ?_⟩
      · rw [Marked, isMarked_eq, hup.self, markBit_unmark]
        exact Bool.false_ne_true
      · have hflag := (flags_copied (hcopied.sub (k := 8) (l := 8) (by omega))).2.1
        rw [hup.enqueued (fun _ => enqueuedBit_unmark) List.mem_cons_self, Enqueued, hflag]
        exact henqueued
  · rw [hsame, laidEnd_append, ← h.target]
    rfl
  · rw [laidEnd_append] at hi
    have hi' : laidEnd room start as + room b ≤ i := hi
    rw [hwritten i (.inr (by omega)), h.above i (by omega)]
  · rw [hwritten i (.inl (by omega)), h.below i hi]

/-- The move of the next object, when it is live. -/
theorem move_next (hos : os = as ++ b :: bs) (hlive : liveAt m (laidEnd room heap.begin as) = true) :
    Move.mk (laidEnd room heap.begin as)
      (laidEnd room heap.begin (survivors (liveAt m) (laid room heap.begin as))) b ∈ moves m heap os := by
  rw [moves, hos, laid_append, slide_append, laid_cons, slide_cons_live hlive]
  exact List.mem_append_right _ List.mem_cons_self

/-- The loop of `physically_relocate` leaves the live objects end to end, with their flags cleared. -/
theorem physicallyRelocateLoop_rule (hheap : HeapAt m heap os)
    (hforwards : ∀ v ∈ moves m heap os,
      heap.begin + (getForwardAddress m (v.source + dataHeaderSz) - oldHeap.begin) = v.target)
    (hclean : ∀ j o, (j, o) ∈ laid room heap.begin os → ¬ Enqueued m j) : ∀ (bs as : List Obj) (fuel t : ℕ)
    {m' : ByteMemory}, os = as ++ bs → Sliding m heap.begin as t m' → bs.length < fuel →
    ∃ m'' t', physicallyRelocateLoop oldHeap heap fuel m' (laidEnd room heap.begin as) = .ok m'' ∧
      Sliding m heap.begin os t' m''
  | _, _, 0, _, _, _, _, hfuel => absurd hfuel (Nat.not_lt_zero _)
  | [], as, fuel + 1, t, m', hos, h, _ => by
    rw [List.append_nil] at hos
    have hdone : heapIsDoneIterator heap (laidEnd room heap.begin as) = true :=
      decide_eq_true (by rw [← hos, hheap.current])
    rw [physicallyRelocateLoop, hdone, if_pos rfl, hos]
    exact ⟨m', t, rfl, h⟩
  | b :: bs, as, fuel + 1, t, m', hos, h, hfuel => by
    have hb : (laidEnd room heap.begin as, b) ∈ laid room heap.begin os := by
      rw [hos, laid_append]
      exact List.mem_append_right _ List.mem_cons_self
    have hplace := hheap.place hb
    have hpos := room_ge b
    have hdone : heapIsDoneIterator heap (laidEnd room heap.begin as) = false := decide_eq_false (by omega)
    have hsame : ∀ n, Copied m (laidEnd room heap.begin as) m' (laidEnd room heap.begin as) n :=
      fun n k _ => h.above _ (by omega)
    have hobj := (hheap.objects _ _ hb).moved (hsame _)
    obtain ⟨hmarked, henqueued, hforward⟩ := flags_copied ((hsame 16).sub (k := 8) (l := 8) (by decide))
    have hos' : os = as ++ [b] ++ bs := by rw [hos, List.append_assoc]; rfl
    have hnext : laidEnd room heap.begin as + room b = laidEnd room heap.begin (as ++ [b]) := by
      rw [laidEnd_append]
      rfl
    rw [physicallyRelocateLoop, hdone, if_neg Bool.false_ne_true, hobj.content, except_ok_bind, hobj.next,
      except_ok_bind, hmarked]
    cases hlive : isMarked m (laidEnd room heap.begin as + dataHeaderSz) with
    | true =>
      obtain ⟨hheader, hslide⟩ := h.slide hobj hlive (by
        rw [Enqueued, henqueued]
        exact hclean _ _ hb)
      obtain ⟨m'', t', hloop, hdone⟩ := physicallyRelocateLoop_rule hheap hforwards hclean bs (as ++ [b]) fuel
        (t + room b) hos' hslide (by rw [List.length_cons] at hfuel; omega)
      refine ⟨m'', t', ?_, hdone⟩
      have htarget : heap.begin + (getForwardAddress m' (laidEnd room heap.begin as + dataHeaderSz) -
          oldHeap.begin) = t := by
        have hmove := hforwards _ (move_next hos hlive)
        rw [← h.target] at hmove
        rw [hforward]
        exact hmove
      rw [if_pos rfl, hobj.size, except_ok_bind]
      dsimp only
      rw [htarget, hheader.content, except_ok_bind, hnext]
      exact hloop
    | false =>
      obtain ⟨m'', t', hloop, hdone⟩ := physicallyRelocateLoop_rule hheap hforwards hclean bs (as ++ [b]) fuel t hos'
        (h.pass hlive) (by rw [List.length_cons] at hfuel; omega)
      refine ⟨m'', t', ?_, hdone⟩
      rw [if_neg Bool.false_ne_true, hnext]
      exact hloop

end Relocation

end Gc
end LamaSM
