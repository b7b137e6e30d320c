import LamaSM.Gc.Layout
import LamaSM.Lib.Packing
import LamaSM.Lib.Worklist

/-! The mark phase (`mark`, `mark_phase` in `runtime/gc.c`).

    `mark` keeps its queue in the heap: the k-th object enqueued by a call is written into the forward
    word of the k-th object of the heap. A call enqueues an object at most once, so there is always an
    object left to write into. The set of marked and enqueued objects follows the rules of a worklist
    (`Lib.WorklistInv`), with the enqueued objects pending. -/

namespace LamaSM
namespace Gc
open Lib

/-! ### The code -/

/-- The globals of `gc.c`. `extra_roots` is given by the addresses registered, the first one first. The
    section `custom_data` is the global area of compiled Lama programs. -/
structure Globals where
  mem : ByteMemory
  heap : MemoryChunk
  extraRoots : List ℕ
  stackTop : ℕ
  stackBottom : ℕ
  startCustomData : ℕ
  stopCustomData : ℕ

/-- `queue_enqueue`, with the address the iterator `tail_iter` is left at -/
def queueEnqueue (m : ByteMemory) (tail obj : ℕ) : Result (ByteMemory × ℕ) := do
  let tailContent ← getObjectContentPtr m tail
  let m := makeEnqueued (setForwardAddress m tailContent obj) obj
  let tail ← heapNextObjIterator m tail
  return (m, tail)

/-- `queue_dequeue`, with the value and the address the iterator `head_iter` is left at -/
def queueDequeue (m : ByteMemory) (head : ℕ) : Result (ℕ × ByteMemory × ℕ) := do
  let headContent ← getObjectContentPtr m head
  let value := getForwardAddress m headContent
  let m := makeDequeued m value
  let head ← heapNextObjIterator m head
  return (value, m, head)

section Mark

variable (heap : MemoryChunk)

/-- The body of the inner loop of `mark` -/
def markField (s : ByteMemory × ℕ) (it : ObjFieldIterator) : Result (ByteMemory × ℕ) :=
  let fieldValue := load64 s.1 it.curField
  if !isValidHeapPointer heap fieldValue || isMarked s.1 fieldValue.toNat || isEnqueued s.1 fieldValue.toNat then
    return s
  else queueEnqueue s.1 s.2 fieldValue.toNat

/-- The outer loop of `mark`; `fuel` bounds the turns of the loops inside it. -/
def markLoop (fuel : ℕ) : ℕ → ByteMemory → ℕ → ℕ → Result ByteMemory
  | 0, _, _, _ => throw .timeout
  | turns + 1, m, head, tail =>
    if head = tail then return m
    else do
      let (curObj, m, head) ← queueDequeue m head
      let m := markObject m curObj
      let headerPtr ← getObjHeaderPtr m curObj
      let (m, tail) ← forPtrFields Prod.fst (markField heap) fuel (m, tail) headerPtr
      markLoop fuel turns m head tail

/-- `mark` -/
def mark (fuel : ℕ) (m : ByteMemory) (obj : Word) : Result ByteMemory :=
  if !isValidHeapPointer heap obj || isMarked m obj.toNat then return m
  else do
    let (m, tail) ← queueEnqueue m heap.begin obj.toNat
    markLoop heap fuel fuel m heap.begin tail

end Mark

/-- The addresses `lo`, `lo + 8`, … below `hi`: `for (size_t *p = lo; p < hi; ++p)` -/
def wordsBetween (lo hi : ℕ) : List ℕ := (List.range ((hi - lo + 7) / wordSize)).map fun k => lo + wordSize * k

/-- `gc_root_scan_stack`, `scan_extra_roots` and `scan_global_area` call `mark` on the words at these
    addresses. -/
def rootAddresses (g : Globals) : List ℕ :=
  wordsBetween (g.stackTop + wordSize) g.stackBottom ++ g.extraRoots ++
    wordsBetween g.startCustomData g.stopCustomData

/-- `mark_phase` -/
def markPhase (fuel : ℕ) (g : Globals) : Result Globals := do
  let m ← (rootAddresses g).foldlM (fun m p => mark g.heap fuel m (load64 m p)) g.mem
  return { g with mem := m }

/-! ### Flags of objects -/

/-- The object with its header at `j` is marked. -/
def Marked (m : ByteMemory) (j : ℕ) : Prop := isMarked m (j + dataHeaderSz) = true

/-- The object with its header at `j` is enqueued. -/
def Enqueued (m : ByteMemory) (j : ℕ) : Prop := isEnqueued m (j + dataHeaderSz) = true

section Flags

variable {m : ByteMemory} {heap : MemoryChunk} {os : List Obj} {j k : ℕ} {o o' : Obj} {f : Word → Word}
  {addr : ℕ}

/-- Rewriting one forward word leaves those of the other objects. -/
theorem forwardWord_other (hj : (j, o) ∈ laid room heap.begin os) (hk : (k, o') ∈ laid room heap.begin os)
    (hne : k ≠ j) :
    forwardWord (updateForward m (j + dataHeaderSz) f) (k + dataHeaderSz) = forwardWord m (k + dataHeaderSz) := by
  refine forwardWord_update_of_ne ?_
  unfold forwardPtr toData wordSize dataHeaderSz
  rcases laid_room_apart hj hk with ⟨rfl, -⟩ | h | h
  · exact absurd rfl hne
  all_goals omega

theorem marked_congr {m' : ByteMemory} (h : forwardWord m' (k + dataHeaderSz) = forwardWord m (k + dataHeaderSz)) :
    Marked m' k ↔ Marked m k := by rw [Marked, Marked, isMarked_eq, isMarked_eq, h]

theorem enqueued_congr {m' : ByteMemory} (h : forwardWord m' (k + dataHeaderSz) = forwardWord m (k + dataHeaderSz)) :
    Enqueued m' k ↔ Enqueued m k := by rw [Enqueued, Enqueued, isEnqueued_eq, isEnqueued_eq, h]

theorem getForwardAddress_congr {m' : ByteMemory}
    (h : forwardWord m' (k + dataHeaderSz) = forwardWord m (k + dataHeaderSz)) :
    getForwardAddress m' (k + dataHeaderSz) = getForwardAddress m (k + dataHeaderSz) := by
  show (GET_FORWARD_ADDRESS (forwardWord m' _)).toNat = (GET_FORWARD_ADDRESS (forwardWord m _)).toNat
  rw [h]

/-- What one update of a forward word does to flags and addresses. -/
structure Updates (ps : List (ℕ × Obj)) (m m' : ByteMemory) (j : ℕ) (f : Word → Word) : Prop where
  self : forwardWord m' (j + dataHeaderSz) = f (forwardWord m (j + dataHeaderSz))
  other : ∀ k o, (k, o) ∈ ps → k ≠ j → forwardWord m' (k + dataHeaderSz) = forwardWord m (k + dataHeaderSz)
  only : OnlyForwards ps m m'

theorem updates_forward (hj : (j, o) ∈ laid room heap.begin os) :
    Updates (laid room heap.begin os) m (updateForward m (j + dataHeaderSz) f) j f :=
  ⟨forwardWord_update, fun _ _ hk hne => forwardWord_other hj hk hne, .update hj⟩

variable {ps : List (ℕ × Obj)} {m' : ByteMemory}

/-- An update that leaves the mark of a word alone leaves all marks. -/
theorem Updates.marked (h : Updates ps m m' j f) (hf : ∀ x, markBit (f x) = markBit x) (hk : (k, o) ∈ ps) :
    Marked m' k ↔ Marked m k := by
  by_cases hne : k = j
  · subst hne
    rw [Marked, Marked, isMarked_eq, isMarked_eq, h.self, hf]
  · exact marked_congr (h.other k o hk hne)

theorem Updates.enqueued (h : Updates ps m m' j f) (hf : ∀ x, enqueuedBit (f x) = enqueuedBit x)
    (hk : (k, o) ∈ ps) : Enqueued m' k ↔ Enqueued m k := by
  by_cases hne : k = j
  · subst hne
    rw [Enqueued, Enqueued, isEnqueued_eq, isEnqueued_eq, h.self, hf]
  · exact enqueued_congr (h.other k o hk hne)

theorem Updates.address (h : Updates ps m m' j f) (hf : ∀ x, GET_FORWARD_ADDRESS (f x) = GET_FORWARD_ADDRESS x)
    (hk : (k, o) ∈ ps) : getForwardAddress m' (k + dataHeaderSz) = getForwardAddress m (k + dataHeaderSz) := by
  by_cases hne : k = j
  · subst hne
    show (GET_FORWARD_ADDRESS (forwardWord m' _)).toNat = (GET_FORWARD_ADDRESS (forwardWord m _)).toNat
    rw [h.self, hf]
  · exact getForwardAddress_congr (h.other k o hk hne)

/-- `set_forward_address`, when the address is one of a word. -/
theorem setForwardAddress_spec (hj : (j, o) ∈ laid room heap.begin os) (haddr : addr % 4 = 0)
    (hlt : addr < 2 ^ 64) (m : ByteMemory) :
    let m' := setForwardAddress m (j + dataHeaderSz) addr
    OnlyForwards (laid room heap.begin os) m m' ∧ getForwardAddress m' (j + dataHeaderSz) = addr ∧
      (∀ k o, (k, o) ∈ laid room heap.begin os → (Marked m' k ↔ Marked m k) ∧ (Enqueued m' k ↔ Enqueued m k) ∧
        (k ≠ j → getForwardAddress m' (k + dataHeaderSz) = getForwardAddress m (k + dataHeaderSz))) := by
  intro m'
  have hnat : (BitVec.ofNat 64 addr).toNat = addr := by
    rw [BitVec.toNat_ofNat, Nat.mod_eq_of_lt hlt]
  have haligned : (BitVec.ofNat 64 addr).toNat % 4 = 0 := by rw [hnat, haddr]
  have hup : Updates (laid room heap.begin os) m m' j fun x => SET_FORWARD_ADDRESS x (BitVec.ofNat 64 addr) :=
    updates_forward hj
  refine ⟨hup.only, ?_, fun k o' hk => ⟨hup.marked (fun x => markBit_forward haligned) hk,
    hup.enqueued (fun x => enqueuedBit_forward haligned) hk,
    fun hne => getForwardAddress_congr (hup.other k o' hk hne)⟩⟩
  show (GET_FORWARD_ADDRESS (forwardWord m' _)).toNat = addr
  rw [hup.self, address_forward haligned, hnat]

end Flags

/-! ### The queue in the heap -/

/-- The queue `q` of a call of `mark`, as headers of objects: it lies in the forward words from `head` up
    to `tail`. The call has dequeued `done` before. -/
structure Queue (m : ByteMemory) (heap : MemoryChunk) (os : List Obj) (done q : List ℕ) (head tail : ℕ) :
    Prop where
  split : ∃ as bs cs, os = as ++ bs ++ cs ∧ head = laidEnd room heap.begin as ∧ tail = laidEnd room head bs ∧
    as.length = done.length ∧ List.Forall₂ (fun p x => getForwardAddress m (p.1 + dataHeaderSz) = x + dataHeaderSz)
      (laid room head bs) q
  nodup : (done ++ q).Nodup
  objects : ∀ x ∈ done ++ q, ∃ o, (x, o) ∈ laid room heap.begin os
  enqueued : ∀ x o, (x, o) ∈ laid room heap.begin os → (Enqueued m x ↔ x ∈ q)
  marked : ∀ x ∈ done, Marked m x

section Queue

variable {m : ByteMemory} {heap : MemoryChunk} {os : List Obj} {done q : List ℕ} {head tail x : ℕ} {o : Obj}

/-- The objects of a part of the heap. -/
theorem laid_part {as bs cs : List Obj} {i : ℕ} {p : ℕ × Obj} (h : p ∈ laid room (laidEnd room i as) bs) :
    p ∈ laid room i (as ++ bs ++ cs) := by
  rw [laid_append, laid_append]
  exact List.mem_append_left _ (List.mem_append_right _ h)

/-- A list of different headers is no longer than the heap has objects. -/
theorem length_le_of_headers {l : List ℕ} {i : ℕ} (hnodup : l.Nodup)
    (hmem : ∀ x ∈ l, ∃ o, (x, o) ∈ laid room i os) : l.length ≤ os.length := by
  have hsub : l ⊆ (laid room i os).map Prod.fst := by
    intro x hx
    obtain ⟨o, ho⟩ := hmem x hx
    exact List.mem_map.mpr ⟨(x, o), ho, rfl⟩
  have hlen := (List.subperm_of_subset hnodup hsub).length_le
  rwa [List.length_map, laid_length] at hlen

/-- While an object is neither dequeued nor enqueued, the tail is at an object. -/
theorem Queue.room_left (hq : Queue m heap os done q head tail) (hx : (x, o) ∈ laid room heap.begin os)
    (hmarked : ¬ Marked m x) (henqueued : ¬ Enqueued m x) :
    ∃ as bs c cs, os = as ++ bs ++ c :: cs ∧ head = laidEnd room heap.begin as ∧ tail = laidEnd room head bs ∧
      as.length = done.length ∧
      List.Forall₂ (fun p x => getForwardAddress m (p.1 + dataHeaderSz) = x + dataHeaderSz) (laid room head bs) q := by
  obtain ⟨as, bs, cs, hos, hhead, htail, hlen, hforall⟩ := hq.split
  have hnew : (x :: (done ++ q)).Nodup := by
    refine List.nodup_cons.mpr ⟨fun h => ?_, hq.nodup⟩
    rcases List.mem_append.mp h with h | h
    · exact hmarked (hq.marked x h)
    · exact henqueued ((hq.enqueued x o hx).mpr h)
  have hall : ∀ y ∈ x :: (done ++ q), ∃ o, (y, o) ∈ laid room heap.begin os := by
    intro y hy
    rcases List.mem_cons.mp hy with rfl | hy
    · exact ⟨o, hx⟩
    · exact hq.objects y hy
  have hle := length_le_of_headers hnew hall
  have hq' := hforall.length_eq
  rw [laid_length] at hq'
  rw [hos, List.length_cons, List.length_append, List.length_append, List.length_append] at hle
  cases cs with
  | nil => simp only [List.length_nil] at hle; omega
  | cons c cs => exact ⟨as, bs, c, cs, hos, hhead, htail, hlen, hforall⟩

/-- `queue_enqueue` of an object that is neither marked nor enqueued. -/
theorem Queue.enqueue (hheap : HeapAt m heap os) (hq : Queue m heap os done q head tail)
    (hx : (x, o) ∈ laid room heap.begin os) (hmarked : ¬ Marked m x) (henqueued : ¬ Enqueued m x) :
    ∃ m' tail', queueEnqueue m tail (x + dataHeaderSz) = .ok (m', tail') ∧
      Queue m' heap os done (q ++ [x]) head tail' ∧ OnlyForwards (laid room heap.begin os) m m' ∧
      (∀ k o, (k, o) ∈ laid room heap.begin os → (Marked m' k ↔ Marked m k)) ∧
      (∀ k o, (k, o) ∈ laid room heap.begin os → (Enqueued m' k ↔ Enqueued m k ∨ k = x)) := by
  obtain ⟨as, bs, c, cs, hos, hhead, htail, hlen, hforall⟩ := hq.room_left hx hmarked henqueued
  have hc : (tail, c) ∈ laid room heap.begin os := by
    rw [hos, laid_append, laidEnd_append, ← hhead, ← htail]
    exact List.mem_append_right _ List.mem_cons_self
  obtain ⟨hmod, -, hplace⟩ := hheap.place hx
  have hsize := room_ge o
  have hcur := hheap.lt
  obtain ⟨honly₁, haddr, hflags⟩ := setForwardAddress_spec hc (show (x + dataHeaderSz) % 4 = 0 by
    unfold dataHeaderSz; omega) (show x + dataHeaderSz < 2 ^ 64 by unfold dataHeaderSz; omega) m
  have hup : Updates (laid room heap.begin os) (setForwardAddress m (tail + dataHeaderSz) (x + dataHeaderSz))
      (makeEnqueued (setForwardAddress m (tail + dataHeaderSz) (x + dataHeaderSz)) (x + dataHeaderSz)) x
      MAKE_ENQUEUED := updates_forward hx
  have honly := honly₁.trans hup.only
  have hmark : ∀ k o, (k, o) ∈ laid room heap.begin os →
      (Marked (makeEnqueued (setForwardAddress m (tail + dataHeaderSz) (x + dataHeaderSz)) (x + dataHeaderSz)) k ↔
        Marked m k) :=
    fun k o' hk => (hup.marked (fun _ => markBit_enqueue) hk).trans (hflags k o' hk).1
  have hmake : ∀ k o, (k, o) ∈ laid room heap.begin os →
      (Enqueued (makeEnqueued (setForwardAddress m (tail + dataHeaderSz) (x + dataHeaderSz)) (x + dataHeaderSz)) k ↔
        Enqueued m k ∨ k = x) := by
    intro k o' hk
    by_cases hne : k = x
    · subst hne
      refine ⟨fun _ => .inr rfl, fun _ => ?_⟩
      rw [Enqueued, isEnqueued_eq, hup.self, enqueuedBit_enqueue]
    · rw [enqueued_congr (hup.other k o' hk hne), (hflags k o' hk).2.1]
      exact ⟨.inl, fun h => h.resolve_right hne⟩
  refine ⟨_, tail + room c, ?_, ⟨?_, ?_, fun y hy => ?_, fun y o' hy => ?_, fun y hy => ?_⟩, honly, hmark, hmake⟩
  · rw [queueEnqueue, (hheap.objects _ _ hc).content, except_ok_bind]
    dsimp only
    rw [(honly.object hc (hheap.objects _ _ hc)).next]
    rfl
  · refine ⟨as, bs ++ [c], cs, by rw [hos]; simp, hhead, ?_, hlen, ?_⟩
    · rw [laidEnd_append, ← htail]
      rfl
    · rw [laid_append, ← htail]
      refine List.rel_append ?_ (.cons ?_ .nil)
      · refine ((List.forall₂_and_left (laid room head bs) q).mpr ⟨fun p hp => hp, hforall⟩).imp ?_
        rintro ⟨k, o'⟩ y ⟨hk, hy⟩
        have hk' : (k, o') ∈ laid room heap.begin os := by
          rw [hos]
          exact laid_part (hhead ▸ hk)
        have hne : k ≠ tail := by
          have := (laid_bounds hk).2
          have := room_pos o'
          omega
        rw [hup.address (fun _ => address_enqueue) hk', (hflags k o' hk').2.2 hne]
        exact hy
      · dsimp only
        rw [hup.address (fun _ => address_enqueue) hc]
        exact haddr
  · rw [← List.append_assoc]
    refine List.nodup_append.mpr ⟨hq.nodup, List.nodup_singleton x, fun y hy z hz => ?_⟩
    rw [List.mem_singleton.mp hz]
    rintro rfl
    rcases List.mem_append.mp hy with hy | hy
    · exact hmarked (hq.marked y hy)
    · exact henqueued ((hq.enqueued y o hx).mpr hy)
  · rw [← List.append_assoc] at hy
    rcases List.mem_append.mp hy with hy | hy
    · exact hq.objects y hy
    · rw [List.mem_singleton.mp hy]
      exact ⟨o, hx⟩
  · rw [hmake y o' hy, hq.enqueued y o' hy, List.mem_append, List.mem_singleton]
  · obtain ⟨o', hy'⟩ := hq.objects y (List.mem_append_left _ hy)
    exact (hmark y o' hy').mpr (hq.marked y hy)

end Queue

/-! ### One object of the queue -/

/-- The object at `a` holds a pointer to the one at `b`. -/
def Points (ps : List (ℕ × Obj)) (a b : ℕ) : Prop :=
  ∃ o w o', (a, o) ∈ ps ∧ w ∈ o.pointers ∧ w.toNat = b + dataHeaderSz ∧ (b, o') ∈ ps

/-- A word that passes for a pointer into the heap is the address of an object. -/
def Sane (heap : MemoryChunk) (os : List Obj) (w : Word) : Prop :=
  isValidHeapPointer heap w = true → ∃ b o, (b, o) ∈ laid room heap.begin os ∧ w.toNat = b + dataHeaderSz

/-- The object at `j` is marked or enqueued. -/
def Discovered (ps : List (ℕ × Obj)) (m : ByteMemory) (j : ℕ) : Prop :=
  (∃ o, (j, o) ∈ ps) ∧ (Marked m j ∨ Enqueued m j)

/-- The object at `j` is enqueued. -/
def Pending (ps : List (ℕ × Obj)) (m : ByteMemory) (j : ℕ) : Prop := (∃ o, (j, o) ∈ ps) ∧ Enqueued m j

/-- The pointers of every object reached are addresses of objects. -/
def PointersSane (start : ℕ → Prop) (heap : MemoryChunk) (os : List Obj) : Prop :=
  ∀ a o w, Reach start (Points (laid room heap.begin os)) a → (a, o) ∈ laid room heap.begin os →
    w ∈ o.pointers → Sane heap os w

/-- The first `k` pointers of the object `o` at `x` have been looked at since the memory was `m`. -/
structure Scanning (start : ℕ → Prop) (m : ByteMemory) (heap : MemoryChunk) (os : List Obj) (done : List ℕ)
    (head x : ℕ) (o : Obj) (k : ℕ) (s : ByteMemory × ℕ) : Prop where
  only : OnlyForwards (laid room heap.begin os) m s.1
  queue : ∃ q, Queue s.1 heap os done q head s.2
  work : WorklistInv start (Points (laid room heap.begin os)) (fun _ => True)
    (Discovered (laid room heap.begin os) s.1) fun j => Pending (laid room heap.begin os) s.1 j ∨ j = x
  scanned : ∀ i < k, ∀ w b o', o.pointers[i]? = some w → w.toNat = b + dataHeaderSz →
    (b, o') ∈ laid room heap.begin os → Discovered (laid room heap.begin os) s.1 b
  keeps : ∀ j, Discovered (laid room heap.begin os) m j → Discovered (laid room heap.begin os) s.1 j

section Scanning

variable {start : ℕ → Prop} {m : ByteMemory} {heap : MemoryChunk} {os : List Obj} {done : List ℕ}
  {head x b : ℕ} {o o' : Obj} {k : ℕ} {s : ByteMemory × ℕ} {w : Word}

/-- The address of an object passes for a pointer into the heap. -/
theorem HeapAt.valid (hheap : HeapAt m heap os) (hb : (b, o) ∈ laid room heap.begin os)
    (hw : w.toNat = b + dataHeaderSz) : isValidHeapPointer heap w = true ∧ isValidPointer w = true := by
  obtain ⟨hmod, hlow, hhigh⟩ := hheap.place hb
  have := room_ge o
  unfold dataHeaderSz at hw
  have heven : isBoxedInt w = false := by
    unfold isBoxedInt
    exact beq_eq_false_iff_ne.mpr (by omega)
  rw [isValidHeapPointer, isValidPointer, heven, decide_eq_true (by omega), decide_eq_true (by omega)]
  exact ⟨rfl, rfl⟩

/-- A pointer to an object discovered already, or to none, changes nothing. -/
theorem Scanning.pass (hs : Scanning start m heap os done head x o k s) (hw : o.pointers[k]? = some w)
    (hdone : ∀ b o', w.toNat = b + dataHeaderSz → (b, o') ∈ laid room heap.begin os →
      Discovered (laid room heap.begin os) s.1 b) : Scanning start m heap os done head x o (k + 1) s := by
  refine ⟨hs.only, hs.queue, hs.work, fun i hi w' b o' hw' hb hmem => ?_, hs.keeps⟩
  rcases Nat.lt_or_ge i k with hlt | hge
  · exact hs.scanned i hlt w' b o' hw' hb hmem
  · obtain rfl : i = k := by omega
    rw [hw] at hw'
    cases hw'
    exact hdone b o' hb hmem

/-- A pointer to an object not discovered yet enqueues it. -/
theorem Scanning.discover (hheap : HeapAt m heap os) (hs : Scanning start m heap os done head x o k s)
    (hx : (x, o) ∈ laid room heap.begin os) (hreach : Reach start (Points (laid room heap.begin os)) x)
    (hw : o.pointers[k]? = some w) (hb : (b, o') ∈ laid room heap.begin os) (hwb : w.toNat = b + dataHeaderSz)
    (hmarked : ¬ Marked s.1 b) (henqueued : ¬ Enqueued s.1 b) :
    ∃ s', queueEnqueue s.1 s.2 w.toNat = .ok s' ∧ Scanning start m heap os done head x o (k + 1) s' := by
  obtain ⟨q, hq⟩ := hs.queue
  obtain ⟨m', tail', henq, hq', honly, hmark, hmake⟩ :=
    hq.enqueue (hheap.forwards hs.only) hb hmarked henqueued
  have hpoints : Points (laid room heap.begin os) x b :=
    ⟨o, w, o', hx, List.mem_of_getElem? hw, hwb, hb⟩
  have hkeep : ∀ j, Discovered (laid room heap.begin os) s.1 j → Discovered (laid room heap.begin os) m' j := by
    rintro j ⟨⟨oj, hj⟩, h⟩
    exact ⟨⟨oj, hj⟩, h.imp (hmark j oj hj).mpr fun h => (hmake j oj hj).mpr (.inl h)⟩
  have hnew : Discovered (laid room heap.begin os) m' b := ⟨⟨o', hb⟩, .inr ((hmake b o' hb).mpr (.inr rfl))⟩
  rw [hwb]
  refine ⟨(m', tail'), henq, hs.only.trans honly, ⟨_, hq'⟩, ?_, fun i hi w' c oc hw' hc hmem => ?_,
    fun j hj => hkeep j (hs.keeps j hj)⟩
  · refine hs.work.mark hkeep (fun j hj => ?_) (fun j hj => ?_) fun j hj => ?_
    · obtain ⟨⟨oj, hj⟩, h⟩ := hj
      rcases h with h | h
      · exact .inl ⟨⟨oj, hj⟩, .inl ((hmark j oj hj).mp h)⟩
      · rcases (hmake j oj hj).mp h with h' | rfl
        · exact .inl ⟨⟨oj, hj⟩, .inr h'⟩
        · exact .inr ⟨.step hreach hpoints, .inl ⟨⟨oj, hj⟩, h⟩⟩
    · rcases hj with ⟨⟨oj, hj⟩, h⟩ | rfl
      · exact .inl ⟨⟨oj, hj⟩, (hmake j oj hj).mpr (.inl h)⟩
      · exact .inr rfl
    · rcases hj with ⟨⟨oj, hj⟩, h⟩ | rfl
      · exact ⟨⟨oj, hj⟩, .inr h⟩
      · exact hkeep _ (hs.work.pending_marked _ (.inr rfl))
  · rcases Nat.lt_or_ge i k with hlt | hge
    · exact hkeep _ (hs.scanned i hlt w' c oc hw' hc hmem)
    · obtain rfl : i = k := by omega
      rw [hw] at hw'
      cases hw'
      obtain rfl : c = b := by omega
      exact hnew

/-- The loop of `mark` over the pointers of an object. -/
theorem scanning_loop (hheap : HeapAt m heap os) (hsane : PointersSane start heap os)
    (hx : (x, o) ∈ laid room heap.begin os) (hreach : Reach start (Points (laid room heap.begin os)) x) :
    FieldLoop Prod.fst (markField heap) x o (Scanning start m heap os done head x o) := by
  refine ⟨fun k s hs => ?_, fun k s hs i w _ hw => ?_, fun k s w hs hw hodd => ?_, fun k s w hs hw _ => ?_⟩
  · exact (hs.only.object hx (hheap.objects _ _ hx)).toHeaderAt
  · exact (hs.only.object hx (hheap.objects _ _ hx)).pointers i w hw
  · refine hs.pass hw fun b o' hb hmem => ?_
    rw [(hheap.valid hmem hb).2] at hodd
    cases hodd
  · have hload : load64 s.1 (fieldIt x o k).curField = w :=
      (hs.only.object hx (hheap.objects _ _ hx)).pointers k w hw
    rw [markField, hload]
    cases hvalid : isValidHeapPointer heap w with
    | false =>
      refine ⟨s, rfl, hs.pass hw fun b o' hb hmem => ?_⟩
      rw [(hheap.valid hmem hb).1] at hvalid
      cases hvalid
    | true =>
      obtain ⟨b, o', hb, hwb⟩ := hsane x o w hreach hx (List.mem_of_getElem? hw) hvalid
      by_cases hdone : Marked s.1 b ∨ Enqueued s.1 b
      · refine ⟨s, ?_, hs.pass hw fun c oc hc _ => ?_⟩
        · have hskip : (!true || isMarked s.1 w.toNat || isEnqueued s.1 w.toNat) = true := by
            rw [hwb]
            rcases hdone with h | h
            · rw [Marked] at h
              rw [h]
              rfl
            · rw [Enqueued] at h
              rw [h, Bool.or_true]
          rw [if_pos hskip]
          rfl
        · obtain rfl : c = b := by omega
          exact ⟨⟨o', hb⟩, hdone⟩
      · obtain ⟨hmarked, henqueued⟩ := not_or.mp hdone
        have hgo : (!true || isMarked s.1 w.toNat || isEnqueued s.1 w.toNat) = false := by
          rw [hwb, Bool.eq_false_iff.mpr hmarked, Bool.eq_false_iff.mpr henqueued]
          rfl
        rw [hgo, if_neg Bool.false_ne_true]
        exact hs.discover hheap hx hreach hw hb hwb hmarked henqueued

end Scanning

/-! ### A call of `mark` -/

/-- Before and after calls of `mark`: what is marked is reached from `start`, and so is all it points to;
    nothing is enqueued. -/
structure MarkedSoFar (start : ℕ → Prop) (m₀ : ByteMemory) (heap : MemoryChunk) (os : List Obj)
    (m : ByteMemory) : Prop where
  only : OnlyForwards (laid room heap.begin os) m₀ m
  work : WorklistInv start (Points (laid room heap.begin os)) (fun _ => True)
    (Discovered (laid room heap.begin os) m) fun _ => False
  empty : ∀ j o, (j, o) ∈ laid room heap.begin os → ¬ Enqueued m j

section Mark

variable {start : ℕ → Prop} {m₀ m : ByteMemory} {heap : MemoryChunk} {os : List Obj} {done q : List ℕ}
  {head tail x b : ℕ} {o : Obj} {w : Word} {fuel : ℕ}

/-- `queue_dequeue` and `mark_object` -/
theorem Queue.dequeue (hheap : HeapAt m heap os) (hq : Queue m heap os done (x :: q) head tail) :
    ∃ head' m', queueDequeue m head = .ok (x + dataHeaderSz, makeDequeued m (x + dataHeaderSz), head') ∧
      m' = markObject (makeDequeued m (x + dataHeaderSz)) (x + dataHeaderSz) ∧
      Queue m' heap os (done ++ [x]) q head' tail ∧ OnlyForwards (laid room heap.begin os) m m' ∧
      (∀ k o, (k, o) ∈ laid room heap.begin os → (Marked m' k ↔ Marked m k ∨ k = x)) ∧
      (∀ k o, (k, o) ∈ laid room heap.begin os → (Enqueued m' k ↔ Enqueued m k ∧ k ≠ x)) := by
  obtain ⟨as, bs, cs, hos, hhead, htail, hlen, hforall⟩ := hq.split
  obtain ⟨ox, hx⟩ := hq.objects x (List.mem_append_right _ List.mem_cons_self)
  cases bs with
  | nil => cases hforall
  | cons c bs =>
    rw [laid_cons] at hforall
    obtain ⟨haddr, hrest⟩ := List.forall₂_cons.mp hforall
    dsimp only at haddr
    have hc : (head, c) ∈ laid room heap.begin os := by
      rw [hos]
      exact laid_part (hhead ▸ List.mem_cons_self)
    have hdeq : Updates (laid room heap.begin os) m (makeDequeued m (x + dataHeaderSz)) x MAKE_DEQUEUED :=
      updates_forward hx
    have hmrk : Updates (laid room heap.begin os) (makeDequeued m (x + dataHeaderSz))
      (markObject (makeDequeued m (x + dataHeaderSz)) (x + dataHeaderSz)) x SET_MARK_BIT := updates_forward hx
    have honly := hdeq.only.trans hmrk.only
    have hmarked : ∀ k o, (k, o) ∈ laid room heap.begin os →
        (Marked (markObject (makeDequeued m (x + dataHeaderSz)) (x + dataHeaderSz)) k ↔ Marked m k ∨ k = x) := by
      intro k o' hk
      by_cases hne : k = x
      · subst hne
        refine ⟨fun _ => .inr rfl, fun _ => ?_⟩
        rw [Marked, isMarked_eq, hmrk.self, markBit_mark]
      · rw [marked_congr (hmrk.other k o' hk hne), hdeq.marked (fun _ => markBit_dequeue) hk]
        exact ⟨.inl, fun h => h.resolve_right hne⟩
    have henqueued : ∀ k o, (k, o) ∈ laid room heap.begin os →
        (Enqueued (markObject (makeDequeued m (x + dataHeaderSz)) (x + dataHeaderSz)) k ↔
          Enqueued m k ∧ k ≠ x) := by
      intro k o' hk
      rw [hmrk.enqueued (fun _ => enqueuedBit_mark) hk]
      by_cases hne : k = x
      · subst hne
        rw [Enqueued, isEnqueued_eq, hdeq.self, enqueuedBit_dequeue]
        exact ⟨fun h => absurd h Bool.false_ne_true, fun h => absurd rfl h.2⟩
      · rw [enqueued_congr (hdeq.other k o' hk hne)]
        exact ⟨fun h => ⟨h, hne⟩, And.left⟩
    refine ⟨head + room c, _, ?_, rfl, ⟨?_, ?_, fun y hy => ?_, fun y o' hy => ?_, fun y hy => ?_⟩, honly,
      hmarked, henqueued⟩
    · rw [queueDequeue, (hheap.objects _ _ hc).content, except_ok_bind]
      dsimp only
      rw [haddr, (hdeq.only.object hc (hheap.objects _ _ hc)).next]
      rfl
    · refine ⟨as ++ [c], bs, cs, by rw [hos]; simp, ?_, by rw [htail]; rfl, by simp [hlen], ?_⟩
      · rw [laidEnd_append, ← hhead]
        rfl
      · refine ((List.forall₂_and_left _ q).mpr ⟨fun p hp => hp, hrest⟩).imp ?_
        rintro ⟨k, o'⟩ y ⟨hk, hy⟩
        have hk' : (k, o') ∈ laid room heap.begin os := by
          rw [hos]
          exact laid_part (hhead ▸ List.mem_cons_of_mem _ hk)
        rw [hmrk.address (fun _ => address_mark) hk', hdeq.address (fun _ => address_dequeue) hk']
        exact hy
    · rw [List.append_assoc]
      exact hq.nodup
    · rw [List.append_assoc] at hy
      exact hq.objects y hy
    · rw [henqueued y o' hy, hq.enqueued y o' hy]
      have hnot : x ∉ q := (List.nodup_cons.mp (List.nodup_append.mp hq.nodup).2.1).1
      constructor
      · rintro ⟨hmem, hne⟩
        exact (List.mem_cons.mp hmem).resolve_left hne
      · intro hmem
        exact ⟨List.mem_cons_of_mem _ hmem, fun h => hnot (h ▸ hmem)⟩
    · obtain ⟨o', hy'⟩ := hq.objects y (by
        rcases List.mem_append.mp hy with hy | hy
        · exact List.mem_append_left _ hy
        · rw [List.mem_singleton.mp hy]
          exact List.mem_append_right _ List.mem_cons_self)
      refine (hmarked y o' hy').mpr ?_
      rcases List.mem_append.mp hy with hy | hy
      · exact .inl (hq.marked y hy)
      · exact .inr (List.mem_singleton.mp hy)

/-- The state of the loop of `mark`. -/
structure MarkLoop (start : ℕ → Prop) (m₀ : ByteMemory) (heap : MemoryChunk) (os : List Obj) (m : ByteMemory)
    (done q : List ℕ) (head tail : ℕ) : Prop where
  only : OnlyForwards (laid room heap.begin os) m₀ m
  queue : Queue m heap os done q head tail
  work : WorklistInv start (Points (laid room heap.begin os)) (fun _ => True)
    (Discovered (laid room heap.begin os) m) (Pending (laid room heap.begin os) m)

/-- A turn takes an object from the queue, marks it and enqueues what it points to. -/
theorem MarkLoop.turn (hheap : HeapAt m₀ heap os) (hsane : PointersSane start heap os)
    (hfuel : ∀ o ∈ os, o.pointers.length < fuel) (h : MarkLoop start m₀ heap os m done (x :: q) head tail) :
    ∃ m' q' head' tail', (∀ turns, markLoop heap fuel (turns + 1) m head tail =
        markLoop heap fuel turns m' head' tail') ∧
      MarkLoop start m₀ heap os m' (done ++ [x]) q' head' tail' ∧
      ∀ j, Discovered (laid room heap.begin os) m j → Discovered (laid room heap.begin os) m' j := by
  have hq := h.queue
  have hne : head ≠ tail := by
    obtain ⟨as, bs, cs, -, -, htail, -, hforall⟩ := hq.split
    cases bs with
    | nil => cases hforall
    | cons c bs =>
      have := le_laidEnd room bs (head + room c)
      have := room_pos c
      rw [laidEnd_cons] at htail
      omega
  obtain ⟨o, hx⟩ := hq.objects x (List.mem_append_right _ List.mem_cons_self)
  have hpending : Pending (laid room heap.begin os) m x :=
    ⟨⟨o, hx⟩, (hq.enqueued x o hx).mpr List.mem_cons_self⟩
  have hreach := h.work.reach x (h.work.pending_marked x hpending)
  obtain ⟨head', m₁, hdequeue, hm₁, hq₁, honly₁, hmarked, henqueued⟩ := hq.dequeue (hheap.forwards h.only)
  have hheap₁ := hheap.forwards (h.only.trans honly₁)
  have hsame : ∀ j, Discovered (laid room heap.begin os) m₁ j ↔ Discovered (laid room heap.begin os) m j := by
    refine fun j => and_congr_right ?_
    rintro ⟨oj, hj⟩
    rw [hmarked j oj hj, henqueued j oj hj]
    by_cases hjx : j = x
    · subst hjx
      exact ⟨fun _ => .inr hpending.2, fun _ => .inl (.inr rfl)⟩
    · simp [hjx]
  have hstart : Scanning start m₁ heap os (done ++ [x]) head' x o 0 (m₁, tail) := by
    refine ⟨.refl _ _, ⟨q, hq₁⟩, ?_, fun i hi => absurd hi (Nat.not_lt_zero i), fun j hj => hj⟩
    refine ⟨fun a ha => h.work.reach a ((hsame a).mp ha), fun a ha => (hsame a).mpr ?_, fun a ha => ?_⟩
    · rcases ha with ⟨⟨oa, hoa⟩, ha⟩ | rfl
      · exact ⟨⟨oa, hoa⟩, .inr ((henqueued a oa hoa).mp ha).1⟩
      · exact h.work.pending_marked _ hpending
    · rcases h.work.closed a ((hsame a).mp ha) with ⟨⟨oa, hoa⟩, hp⟩ | ⟨-, hclosed⟩
      · by_cases hax : a = x
        · exact .inl (.inr hax)
        · exact .inl (.inl ⟨⟨oa, hoa⟩, (henqueued a oa hoa).mpr ⟨hp, hax⟩⟩)
      · exact .inr ⟨trivial, fun b hb => (hsame b).mpr (hclosed b hb)⟩
  obtain ⟨s, hfields, hdone⟩ := forPtrFields_rule (scanning_loop hheap₁ hsane hx hreach) hstart
    (hfuel o (mem_of_laid hx))
  obtain ⟨q', hq'⟩ := hdone.queue
  refine ⟨s.1, q', head', s.2, fun turns => ?_, ⟨h.only.trans (honly₁.trans hdone.only), hq', ?_⟩,
    fun j hj => hdone.keeps j ((hsame j).mpr hj)⟩
  · rw [markLoop, if_neg hne, hdequeue, except_ok_bind]
    dsimp only
    rw [← hm₁, (hheap₁.objects _ _ hx).headerPtr, except_ok_bind, hfields]
    rfl
  · refine hdone.work.finish (a := x) trivial ?_ (fun b hb => hb.symm) fun b hb => .inl hb
    rintro b ⟨o', w, ob, hx', hw, hwb, hb⟩
    obtain rfl := laid_unique room_pos hx hx'
    obtain ⟨i, hi⟩ := List.mem_iff_getElem?.mp hw
    exact hdone.scanned i (List.getElem?_eq_some_iff.mp hi).1 w b ob hi hwb hb

/-- The loop of `mark` returns, with all that was discovered or can be reached from it marked. -/
theorem markLoop_rule (hheap : HeapAt m₀ heap os) (hsane : PointersSane start heap os)
    (hfuel : ∀ o ∈ os, o.pointers.length < fuel) (turns : ℕ)
    (h : MarkLoop start m₀ heap os m done q head tail) (hturns : os.length < done.length + turns) :
    ∃ m', markLoop heap fuel turns m head tail = .ok m' ∧ MarkedSoFar start m₀ heap os m' ∧
      ∀ j, Discovered (laid room heap.begin os) m j → Discovered (laid room heap.begin os) m' j := by
  induction turns generalizing m done q head tail with
  | zero =>
    have hle := length_le_of_headers (List.Nodup.of_append_left h.queue.nodup)
      fun y hy => h.queue.objects y (List.mem_append_left _ hy)
    omega
  | succ turns ih =>
    cases q with
    | nil =>
      obtain ⟨as, bs, cs, -, -, htail, -, hforall⟩ := h.queue.split
      have hbs : bs = [] := by
        have := hforall.length_eq
        rw [laid_length] at this
        exact List.eq_nil_of_length_eq_zero this
      have hempty : ∀ j o, (j, o) ∈ laid room heap.begin os → ¬ Enqueued m j :=
        fun j o hj he => List.not_mem_nil ((h.queue.enqueued j o hj).mp he)
      rw [markLoop, htail, hbs, laidEnd_nil, if_pos rfl]
      refine ⟨m, rfl, ⟨h.only, ⟨h.work.reach, fun a ha => absurd ha not_false, fun a ha => ?_⟩, hempty⟩,
        fun j hj => hj⟩
      refine (h.work.closed a ha).imp ?_ id
      rintro ⟨⟨o, ho⟩, he⟩
      exact hempty a o ho he
    | cons x q =>
      obtain ⟨m₁, q', head', tail', hturn, hloop, hkeep⟩ := h.turn hheap hsane hfuel
      obtain ⟨m', hrun, hsofar, hkeep'⟩ := ih hloop (by rw [List.length_append, List.length_singleton]; omega)
      exact ⟨m', (hturn turns).trans hrun, hsofar, fun j hj => hkeep' j (hkeep j hj)⟩

/-- A call of `mark` on a word returns, with the object it points to marked. -/
theorem mark_rule (hheap : HeapAt m₀ heap os) (hsane : PointersSane start heap os)
    (hfuel : ∀ o ∈ os, o.pointers.length < fuel) (hturns : os.length < fuel) (h : MarkedSoFar start m₀ heap os m)
    (hw : Sane heap os w)
    (hstart : ∀ b o, (b, o) ∈ laid room heap.begin os → w.toNat = b + dataHeaderSz → start b) :
    ∃ m', mark heap fuel m w = .ok m' ∧ MarkedSoFar start m₀ heap os m' ∧
      (∀ j, Discovered (laid room heap.begin os) m j → Discovered (laid room heap.begin os) m' j) ∧
      ∀ b o, (b, o) ∈ laid room heap.begin os → w.toNat = b + dataHeaderSz →
        Discovered (laid room heap.begin os) m' b := by
  rw [mark]
  cases hvalid : isValidHeapPointer heap w with
  | false =>
    refine ⟨m, rfl, h, fun j hj => hj, fun b o hb hwb => ?_⟩
    rw [(hheap.valid hb hwb).1] at hvalid
    cases hvalid
  | true =>
    obtain ⟨b, o, hb, hwb⟩ := hw hvalid
    have hsame : ∀ c oc, (c, oc) ∈ laid room heap.begin os → w.toNat = c + dataHeaderSz → c = b :=
      fun c oc _ hwc => by omega
    rw [hwb]
    by_cases hmarked : Marked m b
    · have hskip : (!true || isMarked m (b + dataHeaderSz)) = true := by
        rw [Marked] at hmarked
        rw [hmarked]
        rfl
      rw [if_pos hskip]
      refine ⟨m, rfl, h, fun j hj => hj, fun c oc hc hwc => ?_⟩
      rw [hsame c oc hc (hwb.trans hwc)]
      exact ⟨⟨o, hb⟩, .inl hmarked⟩
    · have hgo : (!true || isMarked m (b + dataHeaderSz)) = false := by
        rw [Bool.eq_false_iff.mpr hmarked]
        rfl
      have hempty : Queue m heap os [] [] heap.begin heap.begin :=
        ⟨⟨[], [], os, rfl, rfl, rfl, rfl, .nil⟩, List.nodup_nil, fun _ hx => absurd hx List.not_mem_nil,
          fun x o hx => ⟨fun he => absurd he (h.empty x o hx), fun hx => absurd hx List.not_mem_nil⟩,
          fun _ hx => absurd hx List.not_mem_nil⟩
      obtain ⟨m₁, tail, henq, hq, honly, hmark, hmake⟩ :=
        hempty.enqueue (hheap.forwards h.only) hb hmarked (h.empty b o hb)
      have hkeep : ∀ j, Discovered (laid room heap.begin os) m j → Discovered (laid room heap.begin os) m₁ j := by
        rintro j ⟨⟨oj, hj⟩, hd⟩
        exact ⟨⟨oj, hj⟩, hd.imp (hmark j oj hj).mpr fun he => (hmake j oj hj).mpr (.inl he)⟩
      have hloop : MarkLoop start m₀ heap os m₁ [] [b] heap.begin tail := by
        refine ⟨h.only.trans honly, hq, h.work.mark hkeep ?_ (fun j hj => absurd hj not_false) ?_⟩
        · rintro j ⟨⟨oj, hj⟩, hm | he⟩
          · exact .inl ⟨⟨oj, hj⟩, .inl ((hmark j oj hj).mp hm)⟩
          · rcases (hmake j oj hj).mp he with he' | rfl
            · exact absurd he' (h.empty j oj hj)
            · exact .inr ⟨.start (hstart j o hb hwb), ⟨oj, hj⟩, he⟩
        · rintro j ⟨hj, he⟩
          exact ⟨hj, .inr he⟩
      obtain ⟨m', hrun, hsofar, hkeep'⟩ := markLoop_rule hheap hsane hfuel fuel hloop (by simpa using hturns)
      refine ⟨m', ?_, hsofar, fun j hj => hkeep' j (hkeep j hj), fun c oc hc hwc => ?_⟩
      · rw [hgo, if_neg Bool.false_ne_true, henq, except_ok_bind]
        exact hrun
      · rw [hsame c oc hc (hwb.trans hwc)]
        exact hkeep' b ⟨⟨o, hb⟩, .inr ((hmake b o hb).mpr (.inr rfl))⟩

end Mark

/-! ### The mark phase -/

/-- The words the mark phase calls `mark` on. -/
def scannedWords (g : Globals) : List Word := (rootAddresses g).map (load64 g.mem)

/-- The object with its header at `b` is the target of a scanned word. -/
def IsRoot (g : Globals) (os : List Obj) (b : ℕ) : Prop :=
  ∃ w ∈ scannedWords g, ∃ o, (b, o) ∈ laid room g.heap.begin os ∧ w.toNat = b + dataHeaderSz

/-- The object with its header at `b` can be reached from the scanned words. -/
def Reachable (g : Globals) (os : List Obj) : ℕ → Prop :=
  Reach (IsRoot g os) (Points (laid room g.heap.begin os))

/-- What a collection needs: the objects lie end to end, no flag is set, the scanned words lie outside the
    heap, and scanned words and pointers of reachable objects that pass for pointers into the heap are
    addresses of objects. -/
structure Collectable (g : Globals) (os : List Obj) : Prop where
  heap : HeapAt g.mem g.heap os
  clean : ∀ j o, (j, o) ∈ laid room g.heap.begin os → ¬ Marked g.mem j ∧ ¬ Enqueued g.mem j
  apart : ∀ p ∈ rootAddresses g, p + 8 ≤ g.heap.begin ∨ g.heap.current ≤ p
  roots : ∀ w ∈ scannedWords g, Sane g.heap os w
  pointers : PointersSane (IsRoot g os) g.heap os

section MarkPhase

variable {g : Globals} {os : List Obj} {fuel : ℕ} {m : ByteMemory} {p : ℕ}

/-- A word outside the heap is not changed by marking. -/
theorem OnlyForwards.outside {ps : List (ℕ × Obj)} {m₀ : ByteMemory} {lo hi : ℕ}
    (h : OnlyForwards ps m₀ m) (hps : ∀ j o, (j, o) ∈ ps → lo ≤ j ∧ j + 16 ≤ hi) {a n : ℕ}
    (ha : a + n ≤ lo ∨ hi ≤ a) : Copied m₀ a m a n := by
  intro k hk
  refine h (a + k) fun j o hj => ?_
  have := hps j o hj
  unfold dataHeaderSz
  omega

theorem HeapAt.inside {m₀ : ByteMemory} {heap : MemoryChunk} (h : HeapAt m₀ heap os) {j : ℕ} {o : Obj}
    (hj : (j, o) ∈ laid room heap.begin os) : heap.begin ≤ j ∧ j + 16 ≤ heap.current := by
  have := h.place hj
  have := room_ge o
  omega

/-- A heap has no more objects and an object no more pointers than it has bytes. -/
theorem HeapAt.enough {m₀ : ByteMemory} {heap : MemoryChunk} (h : HeapAt m₀ heap os)
    (hfuel : heap.current - heap.begin < fuel) :
    os.length < fuel ∧ ∀ o ∈ os, o.pointers.length < fuel := by
  constructor
  · have hle : ∀ (os : List Obj) (i : ℕ), i + os.length ≤ laidEnd room i os := by
      intro os
      induction os with
      | nil => exact fun i => Nat.le_refl _
      | cons o os ih =>
        intro i
        have := ih (i + room o)
        have := room_pos o
        rw [laidEnd_cons, List.length_cons]
        omega
    have := hle os heap.begin
    rw [h.current] at this
    omega
  · intro o ho
    rw [← laid_map_snd room os heap.begin] at ho
    obtain ⟨⟨j, o'⟩, hj, rfl⟩ := List.mem_map.mp ho
    have := h.place hj
    have := objSize_eq o'
    have := objSize_le_room o'
    dsimp only
    omega

theorem markRoots_rule (hg : Collectable g os) (hturns : os.length < fuel)
    (hfuel : ∀ o ∈ os, o.pointers.length < fuel) : ∀ (l : List ℕ), l ⊆ rootAddresses g → ∀ {m : ByteMemory},
    MarkedSoFar (IsRoot g os) g.mem g.heap os m →
    ∃ m', l.foldlM (fun m p => mark g.heap fuel m (load64 m p)) m = .ok m' ∧
      MarkedSoFar (IsRoot g os) g.mem g.heap os m' ∧
      (∀ j, Discovered (laid room g.heap.begin os) m j → Discovered (laid room g.heap.begin os) m' j) ∧
      ∀ p ∈ l, ∀ b o, (b, o) ∈ laid room g.heap.begin os → (load64 g.mem p).toNat = b + dataHeaderSz →
        Discovered (laid room g.heap.begin os) m' b
  | [], _, m, h => ⟨m, rfl, h, fun j hj => hj, fun p hp => absurd hp List.not_mem_nil⟩
  | p :: l, hl, m, h => by
    have hp : p ∈ rootAddresses g := hl List.mem_cons_self
    have hmem : load64 g.mem p ∈ scannedWords g := List.mem_map_of_mem hp
    have hload : load64 m p = load64 g.mem p :=
      (h.only.outside (fun _ _ hj => hg.heap.inside hj) (hg.apart p hp)).load64
    obtain ⟨m₁, hmark, h₁, hkeep₁, hroot⟩ := mark_rule hg.heap hg.pointers hfuel hturns h
      (hg.roots _ hmem) fun b o hb hwb => ⟨_, hmem, o, hb, hwb⟩
    obtain ⟨m', hrest, h', hkeep, hroots⟩ := markRoots_rule hg hturns hfuel l
      (fun _ hx => hl (List.mem_cons_of_mem _ hx)) h₁
    refine ⟨m', ?_, h', fun j hj => hkeep j (hkeep₁ j hj), fun q hq b o hb hwb => ?_⟩
    · rw [List.foldlM_cons, hload, hmark, except_ok_bind]
      exact hrest
    · rcases List.mem_cons.mp hq with rfl | hq
      · exact hkeep b (hroot b o hb hwb)
      · exact hroots q hq b o hb hwb

/-- The mark phase returns with exactly the reachable objects marked, has used the forward words of
    objects only, and leaves the queue empty. A turn for every object is enough, and one for every pointer
    of an object inside. -/
theorem markPhase_exact (hg : Collectable g os) (hturns : os.length < fuel)
    (hfields : ∀ o ∈ os, o.pointers.length < fuel) :
    ∃ m, markPhase fuel g = .ok { g with mem := m } ∧ OnlyForwards (laid room g.heap.begin os) g.mem m ∧
      ∀ j o, (j, o) ∈ laid room g.heap.begin os → (Marked m j ↔ Reachable g os j) ∧ ¬ Enqueued m j := by
  have hnone : ∀ j, ¬ Discovered (laid room g.heap.begin os) g.mem j := by
    rintro j ⟨⟨o, hj⟩, hm | he⟩
    · exact (hg.clean j o hj).1 hm
    · exact (hg.clean j o hj).2 he
  have hinit : MarkedSoFar (IsRoot g os) g.mem g.heap os g.mem :=
    ⟨.refl _ _, ⟨fun a ha => absurd ha (hnone a), fun a ha => absurd ha not_false,
      fun a ha => absurd ha (hnone a)⟩, fun j o hj => (hg.clean j o hj).2⟩
  obtain ⟨m, hrun, hm, -, hroots⟩ := markRoots_rule hg hturns hfields _ (fun _ h => h) hinit
  refine ⟨m, by rw [markPhase, hrun]; rfl, hm.only, fun j o hj => ⟨?_, hm.empty j o hj⟩⟩
  have hexact := hm.work.exact (fun b hb => ?_) (fun _ h => h) j
  · rw [← Reachable] at hexact
    rw [← hexact]
    exact ⟨fun h => ⟨⟨o, hj⟩, .inl h⟩, fun h => h.2.resolve_right (hm.empty j o hj)⟩
  · obtain ⟨w, hw, o', hb, hwb⟩ := hb
    obtain ⟨p, hp, rfl⟩ := List.mem_map.mp hw
    exact hroots p hp b o' hb hwb

end MarkPhase

end Gc
end LamaSM
