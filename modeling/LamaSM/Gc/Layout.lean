import LamaSM.Gc.Objects
import LamaSM.Lib.Packing
import Mathlib.Data.Nat.Bitwise

/-! What the functions on headers, forward words and fields compute where an object lies in memory.

    `HeaderAt` is the header word alone, which nothing rewrites before objects are moved; `ObjAt` adds the
    contents. A loop over pointers is summed up in one rule, `forPtrFields_rule`. -/

namespace LamaSM
namespace Gc
open Lib

/-! ### Header and forward words -/

section Words

variable {x a : Word} {t n : ℕ}

theorem mask_getLsbD (k i : ℕ) (hi : i < 64) : (BitVec.ofNat 64 (2 ^ k - 1)).getLsbD i = decide (i < k) := by
  rw [BitVec.getLsbD_ofNat, Nat.testBit_two_pow_sub_one]
  simp only [hi, decide_true, Bool.true_and]

theorem tag_eq (h : Word) : tag h = h.toNat % 8 := by
  rw [tag, BitVec.toNat_and]
  exact Nat.and_two_pow_sub_one_eq_mod _ 3

theorem len_eq (h : Word) : len h = h.toNat / 8 := by
  have hmask : (h &&& ~~~7#64) >>> 3 = h >>> 3 := by
    apply BitVec.eq_of_getLsbD_eq
    intro i hi
    simp only [BitVec.getLsbD_ushiftRight, BitVec.getLsbD_and, BitVec.getLsbD_not]
    by_cases h64 : 3 + i < 64
    · rw [show (7#64) = BitVec.ofNat 64 (2 ^ 3 - 1) from rfl, mask_getLsbD _ _ h64]
      simp [h64]
    · rw [BitVec.getLsbD_of_ge _ _ (by omega)]
      rfl
  rw [len, hmask, BitVec.toNat_ushiftRight, Nat.shiftRight_eq_div_pow]

theorem headerOf_toNat (ht : t < 8) (hn : n < 2 ^ 61) : (headerOf t n).toNat = t + 8 * n := by
  rw [headerOf, BitVec.toNat_or, BitVec.toNat_shiftLeft, BitVec.toNat_ofNat, BitVec.toNat_ofNat,
    Nat.mod_eq_of_lt (by omega : t < 2 ^ 64), Nat.mod_eq_of_lt (by omega : n < 2 ^ 64),
    Nat.mod_eq_of_lt (by rw [Nat.shiftLeft_eq]; omega), Nat.or_comm,
    ← Nat.shiftLeft_add_eq_or_of_lt (by omega : t < 2 ^ 3), Nat.shiftLeft_eq]
  omega

theorem and_one_ne (x : Word) : (x &&& 1#64 != 0) = x.getLsbD 0 := by
  rw [show (1#64) = BitVec.twoPow 64 0 from rfl, BitVec.and_twoPow]
  cases x.getLsbD 0 <;> decide

theorem and_two_ne (x : Word) : (x &&& 2#64 != 0) = x.getLsbD 1 := by
  rw [show (2#64) = BitVec.twoPow 64 1 from rfl, BitVec.and_twoPow]
  cases x.getLsbD 1 <;> decide

end Words

/-- The forward word of the object with contents at `obj`. -/
def forwardWord (m : ByteMemory) (obj : ℕ) : Word := load64 m (forwardPtr obj)

/-- The two flags of a forward word. -/
def markBit (x : Word) : Bool := x.getLsbD 0
def enqueuedBit (x : Word) : Bool := x.getLsbD 1

section Flags

variable {x a : Word} {m : ByteMemory} {obj : ℕ}

theorem isMarked_eq : isMarked m obj = markBit (forwardWord m obj) := and_one_ne _

theorem isEnqueued_eq : isEnqueued m obj = enqueuedBit (forwardWord m obj) := and_two_ne _

@[simp] theorem markBit_mark : markBit (SET_MARK_BIT x) = true := by simp [markBit, SET_MARK_BIT]
@[simp] theorem enqueuedBit_mark : enqueuedBit (SET_MARK_BIT x) = enqueuedBit x := by
  simp [enqueuedBit, SET_MARK_BIT]
@[simp] theorem markBit_unmark : markBit (RESET_MARK_BIT x) = false := by simp [markBit, RESET_MARK_BIT]
@[simp] theorem enqueuedBit_unmark : enqueuedBit (RESET_MARK_BIT x) = enqueuedBit x := by
  simp [enqueuedBit, RESET_MARK_BIT]
@[simp] theorem markBit_enqueue : markBit (MAKE_ENQUEUED x) = markBit x := by simp [markBit, MAKE_ENQUEUED]
@[simp] theorem enqueuedBit_enqueue : enqueuedBit (MAKE_ENQUEUED x) = true := by
  simp [enqueuedBit, MAKE_ENQUEUED]
@[simp] theorem markBit_dequeue : markBit (MAKE_DEQUEUED x) = markBit x := by simp [markBit, MAKE_DEQUEUED]
@[simp] theorem enqueuedBit_dequeue : enqueuedBit (MAKE_DEQUEUED x) = false := by
  simp [enqueuedBit, MAKE_DEQUEUED]

/-- The flags do not disturb the address and the address not the flags, as it is a multiple of four. -/
theorem getLsbD_of_aligned (h : a.toNat % 4 = 0) : a.getLsbD 0 = false ∧ a.getLsbD 1 = false := by
  rw [BitVec.getLsbD, BitVec.getLsbD, Nat.testBit_zero, Nat.testBit_succ, Nat.testBit_zero]
  constructor <;> simp <;> omega

theorem markBit_forward (h : a.toNat % 4 = 0) : markBit (SET_FORWARD_ADDRESS x a) = markBit x := by
  rw [markBit, markBit, SET_FORWARD_ADDRESS, BitVec.getLsbD_or, (getLsbD_of_aligned h).1, Bool.or_false,
    BitVec.getLsbD_and, show (3#64).getLsbD 0 = true from rfl, Bool.and_true]

theorem enqueuedBit_forward (h : a.toNat % 4 = 0) :
    enqueuedBit (SET_FORWARD_ADDRESS x a) = enqueuedBit x := by
  rw [enqueuedBit, enqueuedBit, SET_FORWARD_ADDRESS, BitVec.getLsbD_or, (getLsbD_of_aligned h).2,
    Bool.or_false, BitVec.getLsbD_and, show (3#64).getLsbD 1 = true from rfl, Bool.and_true]

theorem address_eq (h : a.toNat % 4 = 0) : GET_FORWARD_ADDRESS a = a := by
  obtain ⟨h0, h1⟩ := getLsbD_of_aligned h
  apply BitVec.eq_of_getLsbD_eq
  intro i hi
  rw [GET_FORWARD_ADDRESS, BitVec.getLsbD_and, BitVec.getLsbD_not,
    show (3#64) = BitVec.ofNat 64 (2 ^ 2 - 1) from rfl, mask_getLsbD _ _ hi]
  rcases i with _ | _ | i
  · rw [h0, Bool.false_and]
  · rw [h1, Bool.false_and]
  · simp; omega

theorem address_congr {y : Word} (h : ∀ i, 2 ≤ i → i < 64 → x.getLsbD i = y.getLsbD i) :
    GET_FORWARD_ADDRESS x = GET_FORWARD_ADDRESS y := by
  apply BitVec.eq_of_getLsbD_eq
  intro i hi
  rw [GET_FORWARD_ADDRESS, GET_FORWARD_ADDRESS, BitVec.getLsbD_and, BitVec.getLsbD_and, BitVec.getLsbD_not,
    show (3#64) = BitVec.ofNat 64 (2 ^ 2 - 1) from rfl, mask_getLsbD _ _ hi]
  by_cases h2 : i < 2
  · simp [h2]
  · rw [h i (by omega) hi]

theorem address_forward (h : a.toNat % 4 = 0) : GET_FORWARD_ADDRESS (SET_FORWARD_ADDRESS x a) = a := by
  rw [← address_eq h]
  refine address_congr fun i h2 hi => ?_
  rw [SET_FORWARD_ADDRESS, BitVec.getLsbD_or, BitVec.getLsbD_and,
    show (3#64) = BitVec.ofNat 64 (2 ^ 2 - 1) from rfl, mask_getLsbD _ _ hi, address_eq h]
  simp [show ¬ i < 2 by omega]

theorem flag_getLsbD {k i : ℕ} (hk : k < 2) (hi : 2 ≤ i) : (BitVec.twoPow 64 k).getLsbD i = false := by
  rw [BitVec.getLsbD_twoPow]
  simp only [Bool.and_eq_false_imp, decide_eq_true_eq, decide_eq_false_iff_not]
  omega

@[simp] theorem address_mark : GET_FORWARD_ADDRESS (SET_MARK_BIT x) = GET_FORWARD_ADDRESS x := by
  refine address_congr fun i h2 _ => ?_
  rw [SET_MARK_BIT, show (1#64) = BitVec.twoPow 64 0 from rfl, BitVec.getLsbD_or,
    flag_getLsbD (by omega) h2, Bool.or_false]

@[simp] theorem address_enqueue : GET_FORWARD_ADDRESS (MAKE_ENQUEUED x) = GET_FORWARD_ADDRESS x := by
  refine address_congr fun i h2 _ => ?_
  rw [MAKE_ENQUEUED, show (2#64) = BitVec.twoPow 64 1 from rfl, BitVec.getLsbD_or,
    flag_getLsbD (by omega) h2, Bool.or_false]

@[simp] theorem address_dequeue : GET_FORWARD_ADDRESS (MAKE_DEQUEUED x) = GET_FORWARD_ADDRESS x := by
  refine address_congr fun i h2 hi => ?_
  rw [MAKE_DEQUEUED, show (2#64) = BitVec.twoPow 64 1 from rfl, BitVec.getLsbD_and, BitVec.getLsbD_not,
    flag_getLsbD (by omega) h2]
  simp [hi]

end Flags

section Forwards

variable {m : ByteMemory} {obj other addr : ℕ} {f : Word → Word}

theorem forwardWord_update : forwardWord (updateForward m obj f) obj = f (forwardWord m obj) :=
  load64_store64

/-- Another forward word stays as it is. -/
theorem forwardWord_update_of_ne (h : forwardPtr other + 8 ≤ forwardPtr obj ∨ forwardPtr obj + 8 ≤ forwardPtr other) :
    forwardWord (updateForward m obj f) other = forwardWord m other := load64_store64_of_disjoint h

theorem updateForward_of_not_mem {b : ℕ} (h : b < forwardPtr obj ∨ forwardPtr obj + 8 ≤ b) :
    updateForward m obj f b = m b := store64_of_not_mem h

end Forwards

/-! ### Objects -/

/-- The kind of an object. -/
def kind : Obj → LamaType
  | .string _ => .string
  | .array _ => .array
  | .sexp _ _ => .sexp
  | .closure _ _ => .closure

/-- The tag in the header of a kind of object. -/
def kindTag : LamaType → ℕ
  | .string => stringTag
  | .array => arrayTag
  | .sexp => sexpTag
  | .closure => closureTag

/-- The bytes of an object, its header and forward word included. -/
def objSize : Obj → ℕ
  | .string contents => dataHeaderSz + contents.length
  | .array elems => dataHeaderSz + 8 * elems.length
  | .sexp _ fields => dataHeaderSz + 8 * (fields.length + 1)
  | .closure _ captured => dataHeaderSz + 8 * (captured.length + 1)

/-- The bytes it takes up, in whole words. -/
def room (o : Obj) : ℕ := 8 * ((objSize o + 7) / 8)

/-- The offset of its first pointer from its header. -/
def fieldOffset : Obj → ℕ
  | .string contents => dataHeaderSz + contents.length
  | .array _ => dataHeaderSz
  | .sexp _ _ | .closure _ _ => dataHeaderSz + 8

/-- The words from `a` on. -/
def WordsAt (m : ByteMemory) (a : ℕ) (ws : List Word) : Prop :=
  ∀ k w, ws[k]? = some w → load64 m (a + 8 * k) = w

/-- The contents of the object from `a` on. -/
def ContentsAt (m : ByteMemory) (a : ℕ) : Obj → Prop
  | .string contents => bytesFrom m a contents.length = contents
  | .array elems => WordsAt m a elems
  | .sexp tag fields => WordsAt m a (tag :: fields)
  | .closure entry captured => WordsAt m a (entry :: captured)

/-- The header of the object at `j`. A string has at least its NUL, and the length fits the header. -/
structure HeaderAt (m : ByteMemory) (j : ℕ) (o : Obj) : Prop where
  header : load64 m j = headerOf (kindTag (kind o)) o.len
  closed : o ≠ .string []
  fits : objSize o < 2 ^ 61

/-- The object lies at `j`. -/
structure ObjAt (m : ByteMemory) (j : ℕ) (o : Obj) : Prop extends HeaderAt m j o where
  contents : ContentsAt m (j + dataHeaderSz) o

section Objects

variable {m m' : ByteMemory} {j j' : ℕ} {o : Obj} {f : Word → Word}

theorem objSize_eq (o : Obj) : objSize o = fieldOffset o + 8 * o.pointers.length := by
  cases o <;> simp only [objSize, fieldOffset, Obj.pointers, List.length_nil, dataHeaderSz] <;> omega

theorem objSize_ge (o : Obj) : 16 ≤ objSize o := by
  cases o <;> simp only [objSize, dataHeaderSz] <;> omega

theorem fieldOffset_ge (o : Obj) : 16 ≤ fieldOffset o := by
  cases o <;> simp only [fieldOffset, dataHeaderSz] <;> omega

theorem objSize_le_room (o : Obj) : objSize o ≤ room o := by
  unfold room
  omega

theorem room_ge (o : Obj) : 16 ≤ room o := (objSize_ge o).trans (objSize_le_room o)

theorem room_mod (o : Obj) : room o % 8 = 0 := by
  unfold room
  omega

/-- Rewriting pointers keeps the shape of an object. -/
@[simp] theorem kind_map : kind (o.map f) = kind o := by cases o <;> rfl
@[simp] theorem len_map : (o.map f).len = o.len := by cases o <;> simp [Obj.map, Obj.len]
@[simp] theorem objSize_map : objSize (o.map f) = objSize o := by cases o <;> simp [Obj.map, objSize]
@[simp] theorem room_map : room (o.map f) = room o := by rw [room, room, objSize_map]

theorem HeaderAt.map (h : HeaderAt m j o) : HeaderAt m j (o.map f) := by
  refine ⟨by rw [h.header, kind_map, len_map], fun hs => h.closed ?_, by rw [objSize_map]; exact h.fits⟩
  cases o <;> cases hs
  rfl

theorem HeaderAt.copied (h : HeaderAt m j o) (hc : Copied m j m' j' 8) : HeaderAt m' j' o :=
  ⟨by rw [hc.load64, h.header], h.closed, h.fits⟩

theorem WordsAt.copied {a b : ℕ} {ws : List Word} (h : WordsAt m a ws)
    (hc : Copied m a m' b (8 * ws.length)) : WordsAt m' b ws := by
  intro k w hk
  obtain ⟨hlt, -⟩ := List.getElem?_eq_some_iff.mp hk
  rw [hc.load64_at (by omega), h k w hk]

theorem ContentsAt.copied {a b : ℕ} (h : ContentsAt m a o) (hc : Copied m a m' b (objSize o - dataHeaderSz)) :
    ContentsAt m' b o := by
  cases o with
  | string contents => exact (Copied.bytesFrom (hc.mono (by simp [objSize]))).trans h
  | array elems => exact WordsAt.copied h (hc.mono (by simp [objSize]))
  | sexp tag fields => exact WordsAt.copied h (hc.mono (by simp [objSize]))
  | closure entry captured => exact WordsAt.copied h (hc.mono (by simp [objSize]))

/-- An object is copied with its bytes, the forward word not among them. -/
theorem ObjAt.copied (h : ObjAt m j o) (hheader : Copied m j m' j' 8)
    (hcontents : Copied m (j + dataHeaderSz) m' (j' + dataHeaderSz) (objSize o - dataHeaderSz)) :
    ObjAt m' j' o := ⟨h.toHeaderAt.copied hheader, h.contents.copied hcontents⟩

theorem ObjAt.moved (h : ObjAt m j o) (hc : Copied m j m' j' (objSize o)) : ObjAt m' j' o := by
  have hsize := objSize_ge o
  have hd : dataHeaderSz = 16 := rfl
  exact h.copied (hc.mono (by omega)) (hc.sub (by omega))

/-- The pointers of an object are the words from its first field on. -/
theorem ObjAt.pointers (h : ObjAt m j o) : WordsAt m (j + fieldOffset o) o.pointers := by
  have hc := h.contents
  cases o with
  | string contents => exact fun k w hk => by cases hk
  | array elems => exact hc
  | sexp tag fields | closure entry captured =>
    intro k w hk
    have hword := hc (k + 1) w hk
    rw [show j + fieldOffset _ + 8 * k = j + dataHeaderSz + 8 * (k + 1) by
      simp only [fieldOffset]; omega]
    exact hword

theorem kindTag_lt (type : LamaType) : kindTag type < 8 := by cases type <;> decide

theorem HeaderAt.len_lt (h : HeaderAt m j o) : o.len < 2 ^ 61 := by
  have := h.fits
  cases o <;> simp only [objSize, dataHeaderSz, Obj.len] at this ⊢ <;> omega

theorem HeaderAt.type (h : HeaderAt m j o) : getTypeHeaderPtr m j = .ok (kind o) := by
  have htag : tag (load64 m j) = kindTag (kind o) := by
    have hlt := kindTag_lt (kind o)
    rw [tag_eq, h.header, headerOf_toNat hlt h.len_lt]
    omega
  rw [getTypeHeaderPtr, htag]
  cases o <;> rfl

theorem HeaderAt.len (h : HeaderAt m j o) : Gc.len (load64 m j) = o.len := by
  have hlt := kindTag_lt (kind o)
  rw [len_eq, h.header, headerOf_toNat hlt h.len_lt]
  omega

theorem sizeT_of_lt {n : ℕ} (h : n < 2 ^ 64) : sizeT n = n := Nat.mod_eq_of_lt h

theorem HeaderAt.size (h : HeaderAt m j o) : objSizeHeaderPtr m j = .ok (objSize o) := by
  have hfits := h.fits
  rw [objSizeHeaderPtr, h.type, except_ok_bind, h.len]
  cases o with
  | string contents =>
    have hpos : contents ≠ [] := fun hs => h.closed (by rw [hs])
    have hlen := List.length_pos_iff.mpr hpos
    simp only [objSize] at hfits
    have : stringSize (contents.length - 1) = dataHeaderSz + contents.length := by
      rw [stringSize, getHeaderSize, sizeT_of_lt (by omega)]
      omega
    exact congrArg Except.ok this
  | array elems | sexp tag fields | closure entry captured =>
    exact congrArg Except.ok (sizeT_of_lt (Nat.lt_trans hfits (by decide)))

theorem HeaderAt.content (h : HeaderAt m j o) : getObjectContentPtr m j = .ok (j + dataHeaderSz) := by
  rw [getObjectContentPtr, h.type]
  rfl

theorem HeaderAt.headerPtr (h : HeaderAt m j o) : getObjHeaderPtr m (j + dataHeaderSz) = .ok j := by
  rw [getObjHeaderPtr, getTypeRowPtr, toData, Nat.add_sub_cancel, h.type]
  exact congrArg Except.ok (Nat.add_sub_cancel j dataHeaderSz)

theorem HeaderAt.objEnd (h : HeaderAt m j o) : getEndOfObj m j = .ok (j + objSize o) := by
  rw [getEndOfObj, h.size]
  rfl

theorem bytesToWords_eq {n : ℕ} (h0 : 0 < n) (h : n < 2 ^ 64) : bytesToWords n = (n + 7) / 8 := by
  unfold bytesToWords sizeT wordSize
  omega

theorem HeaderAt.next (h : HeaderAt m j o) : heapNextObjIterator m j = .ok (j + room o) := by
  have hsize := objSize_ge o
  have hfits := h.fits
  rw [heapNextObjIterator, h.size, except_ok_bind, bytesToWords_eq (by omega) (by omega), wordsToBytes, room,
    wordSize, Nat.mul_comm]
  rfl

end Objects

/-! ### The heap -/

/-- The objects of the heap lie end to end from `begin` up to `current`. -/
structure HeapAt (m : ByteMemory) (heap : MemoryChunk) (os : List Obj) : Prop where
  objects : ∀ j o, (j, o) ∈ laid room heap.begin os → ObjAt m j o
  current : laidEnd room heap.begin os = heap.current
  aligned : heap.begin % 8 = 0
  lt : heap.current < 2 ^ 64

/-- The memories differ in forward words of the objects only. -/
def OnlyForwards (ps : List (ℕ × Obj)) (m m' : ByteMemory) : Prop :=
  ∀ b, (∀ j o, (j, o) ∈ ps → b < j + 8 ∨ j + dataHeaderSz ≤ b) → m' b = m b

section Heap

variable {m m' m'' : ByteMemory} {heap : MemoryChunk} {os : List Obj} {j k : ℕ} {o o' : Obj} {f : Word → Word}

theorem room_pos (o : Obj) : 0 < room o := Nat.lt_of_lt_of_le (by decide) (room_ge o)

theorem room_dvd (o : Obj) : 8 ∣ room o := Nat.dvd_of_mod_eq_zero (room_mod o)

theorem HeapAt.place (h : HeapAt m heap os) (hj : (j, o) ∈ laid room heap.begin os) :
    j % 8 = 0 ∧ heap.begin ≤ j ∧ j + room o ≤ heap.current := by
  obtain ⟨hlow, hhigh⟩ := laid_bounds hj
  rw [h.current] at hhigh
  exact ⟨Nat.mod_eq_zero_of_dvd (laid_dvd room_dvd (Nat.dvd_of_mod_eq_zero h.aligned) hj), hlow, hhigh⟩

/-- Two objects of a heap are one or lie apart. -/
theorem laid_room_apart {i : ℕ} (hj : (j, o) ∈ laid room i os) (hk : (k, o') ∈ laid room i os) :
    (j = k ∧ o = o') ∨ j + 16 ≤ k ∨ k + 16 ≤ j := by
  have := room_ge o
  have := room_ge o'
  rcases laid_apart hj hk with h | h | h
  · exact .inl h
  · exact .inr (.inl (by omega))
  · exact .inr (.inr (by omega))

theorem OnlyForwards.refl (ps : List (ℕ × Obj)) (m : ByteMemory) : OnlyForwards ps m m := fun _ _ => rfl

theorem OnlyForwards.trans {ps : List (ℕ × Obj)} (h : OnlyForwards ps m m') (h' : OnlyForwards ps m' m'') :
    OnlyForwards ps m m'' := fun b hb => (h' b hb).trans (h b hb)

theorem OnlyForwards.update {ps : List (ℕ × Obj)} (hj : (j, o) ∈ ps) :
    OnlyForwards ps m (updateForward m (j + dataHeaderSz) f) := by
  intro b hb
  have hb := hb j o hj
  unfold dataHeaderSz at hb
  refine updateForward_of_not_mem ?_
  unfold forwardPtr toData wordSize dataHeaderSz
  omega

/-- Forward words lie outside headers and contents. -/
theorem OnlyForwards.object (h : OnlyForwards (laid room heap.begin os) m m') (hj : (j, o) ∈ laid room heap.begin os)
    (ho : ObjAt m j o) : ObjAt m' j o := by
  refine ho.copied (copied_between (fun b hlow hhigh => h b fun k o' hk => ?_) (Nat.le_refl _) (Nat.le_refl _))
    (copied_between (fun b hlow hhigh => h b fun k o' hk => ?_) (Nat.le_refl _) (Nat.le_refl _))
  · unfold dataHeaderSz
    rcases laid_room_apart hj hk with ⟨rfl, -⟩ | h | h <;> omega
  · have hsize := objSize_ge o
    have hroom := objSize_le_room o
    unfold dataHeaderSz at *
    rcases laid_apart hj hk with ⟨rfl, -⟩ | h | h
    · omega
    · omega
    · have := room_ge o'
      omega

theorem HeapAt.forwards (h : HeapAt m heap os) (hm : OnlyForwards (laid room heap.begin os) m m') :
    HeapAt m' heap os :=
  ⟨fun _ _ hj => hm.object hj (h.objects _ _ hj), h.current, h.aligned, h.lt⟩

end Heap

/-! ### Loops over pointers -/

/-- The iterator at the `k`-th pointer of the object. -/
def fieldIt (j : ℕ) (o : Obj) (k : ℕ) : ObjFieldIterator := ⟨kind o, j, j + fieldOffset o + 8 * k⟩

section Iterators

variable {m : ByteMemory} {j : ℕ} {o : Obj}

theorem HeaderAt.isDone (h : HeaderAt m j o) (k : ℕ) :
    fieldIsDoneIterator m (fieldIt j o k) = .ok (decide (o.pointers.length ≤ k)) := by
  have hsize := objSize_eq o
  rw [fieldIsDoneIterator, fieldIt, h.objEnd, except_ok_bind]
  refine congrArg Except.ok (decide_eq_decide.mpr ?_)
  dsimp only
  omega

theorem HeaderAt.fieldBegin (h : HeaderAt m j o) : fieldBeginIterator m j = .ok (fieldIt j o 0) := by
  rw [fieldBeginIterator, h.type, except_ok_bind, h.content, except_ok_bind]
  cases o with
  | string contents =>
    show (getEndOfObj m j >>= fun objEnd => _) = _
    rw [h.objEnd]
    rfl
  | array elems | sexp tag fields | closure entry captured => rfl

end Iterators

section Rule

variable {σ : Type} {mem : σ → ByteMemory} {body : σ → ObjFieldIterator → Result σ} {j : ℕ} {o : Obj}
  {I : ℕ → σ → Prop} {s : σ}

/-- What the invariant `I` of a loop over the pointers of `o` gives and what the body does for it: `I k`
    holds when the first `k` pointers are done. -/
structure FieldLoop (mem : σ → ByteMemory) (body : σ → ObjFieldIterator → Result σ) (j : ℕ) (o : Obj)
    (I : ℕ → σ → Prop) : Prop where
  header : ∀ k s, I k s → HeaderAt (mem s) j o
  later : ∀ k s, I k s → ∀ i w, k ≤ i → o.pointers[i]? = some w →
    load64 (mem s) (j + fieldOffset o + 8 * i) = w
  skip : ∀ k s w, I k s → o.pointers[k]? = some w → isValidPointer w = false → I (k + 1) s
  turn : ∀ k s w, I k s → o.pointers[k]? = some w → isValidPointer w = true →
    ∃ s', body s (fieldIt j o k) = .ok s' ∧ I (k + 1) s'

/-- The iterator goes on to the next pointer, or to the end. -/
theorem FieldLoop.next (hloop : FieldLoop mem body j o I) : ∀ (fuel k : ℕ), I (k + 1) s →
    k < o.pointers.length → o.pointers.length ≤ k + fuel → ∃ k', k < k' ∧ k' ≤ o.pointers.length ∧ I k' s ∧
      objNextPtrFieldIterator (mem s) fuel (fieldIt j o k) = .ok (fieldIt j o k') ∧
      (∀ w, o.pointers[k']? = some w → isValidPointer w = true)
  | 0, k, _, hlt, hle => absurd hlt (by omega)
  | fuel + 1, k, hI, hlt, hle => by
    have hnext : objNextFieldIterator (fieldIt j o k) = fieldIt j o (k + 1) := by
      simp only [objNextFieldIterator, fieldIt, memberSize]
      congr 1
    rw [objNextPtrFieldIterator, hnext, (hloop.header _ _ hI).isDone, except_ok_bind]
    cases hw : o.pointers[k + 1]? with
    | none =>
      have hend := List.getElem?_eq_none_iff.mp hw
      rw [decide_eq_true hend, Bool.true_or, if_pos rfl]
      exact ⟨k + 1, by omega, by omega, hI, rfl, fun w h => by rw [hw] at h; cases h⟩
    | some w =>
      obtain ⟨hin, -⟩ := List.getElem?_eq_some_iff.mp hw
      have hload : load64 (mem s) (fieldIt j o (k + 1)).curField = w :=
        hloop.later _ _ hI (k + 1) w (Nat.le_refl _) hw
      rw [decide_eq_false (by omega), Bool.false_or, hload]
      cases hvalid : isValidPointer w with
      | true =>
        exact ⟨k + 1, by omega, by omega, hI, rfl, fun w' h => by
          rw [hw] at h
          cases h
          exact hvalid⟩
      | false =>
        obtain ⟨k', hlt', hle', hrest⟩ :=
          FieldLoop.next hloop fuel (k + 1) (hloop.skip _ _ _ hI hw hvalid) hin (by omega)
        exact ⟨k', by omega, hle', hrest⟩

theorem FieldLoop.loop (hloop : FieldLoop mem body j o I) : ∀ (fuel k : ℕ) (s : σ), I k s →
    k ≤ o.pointers.length → o.pointers.length < k + fuel →
    (∀ w, o.pointers[k]? = some w → isValidPointer w = true) →
    ∃ s', ptrFieldLoop mem body fuel s (fieldIt j o k) = .ok s' ∧ I o.pointers.length s'
  | 0, k, _, _, hle, hlt, _ => absurd hlt (by omega)
  | fuel + 1, k, s, hI, hle, hlt, hvalid => by
    rw [ptrFieldLoop, (hloop.header _ _ hI).isDone, except_ok_bind]
    cases hw : o.pointers[k]? with
    | none =>
      have hend := List.getElem?_eq_none_iff.mp hw
      obtain rfl : k = o.pointers.length := by omega
      rw [decide_eq_true hend]
      exact ⟨s, rfl, hI⟩
    | some w =>
      obtain ⟨hin, -⟩ := List.getElem?_eq_some_iff.mp hw
      obtain ⟨s₁, hbody, hI₁⟩ := hloop.turn _ _ _ hI hw (hvalid w hw)
      obtain ⟨k', hlt', hle', hI', hnext, hvalid'⟩ := hloop.next fuel k hI₁ hin (by omega)
      obtain ⟨s', hrest, hdone⟩ := FieldLoop.loop hloop fuel k' s₁ hI' hle' (by omega) hvalid'
      refine ⟨s', ?_, hdone⟩
      rw [decide_eq_false (by omega)]
      show (body s (fieldIt j o k) >>= fun s => _) = _
      rw [hbody, except_ok_bind, hnext, except_ok_bind]
      exact hrest

/-- A loop over the pointers of an object returns and keeps its invariant. -/
theorem forPtrFields_rule (hloop : FieldLoop mem body j o I) {fuel : ℕ} (hI : I 0 s)
    (hfuel : o.pointers.length < fuel) :
    ∃ s', forPtrFields mem body fuel s j = .ok s' ∧ I o.pointers.length s' := by
  have hheader := hloop.header _ _ hI
  rw [forPtrFields, ptrFieldBeginIterator, hheader.fieldBegin, except_ok_bind, hheader.isDone, except_ok_bind]
  cases hw : o.pointers[0]? with
  | none =>
    have hend := List.getElem?_eq_none_iff.mp hw
    rw [decide_eq_true hend]
    exact hloop.loop fuel 0 s hI (Nat.zero_le _) (by omega) fun w h => by rw [hw] at h; cases h
  | some w =>
    obtain ⟨hin, -⟩ := List.getElem?_eq_some_iff.mp hw
    have hload : load64 (mem s) (fieldIt j o 0).curField = w := hloop.later _ _ hI 0 w (Nat.le_refl _) hw
    rw [decide_eq_false (by omega), if_neg Bool.false_ne_true, hload]
    cases hvalid : isValidPointer w with
    | true =>
      rw [if_pos rfl, show (pure (fieldIt j o 0) : Result _) = .ok (fieldIt j o 0) from rfl, except_ok_bind]
      refine hloop.loop fuel 0 s hI (Nat.zero_le _) (by omega) fun w' h => ?_
      rw [hw] at h
      cases h
      exact hvalid
    | false =>
      obtain ⟨k', -, hle', hI', hnext, hvalid'⟩ :=
        hloop.next fuel 0 (hloop.skip _ _ _ hI hw hvalid) hin (by omega)
      rw [if_neg Bool.false_ne_true, hnext, except_ok_bind]
      exact hloop.loop fuel k' s hI' hle' (by omega) hvalid'

end Rule

end Gc
end LamaSM
