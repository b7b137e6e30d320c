import LamaSM.Gc.Strings
import LamaSM.HeapSteps

/-! What the functions of the runtime read and write through the address of an object
    (`runtime/runtime.c`).

    Where the model of such a function finds an object and what it asks of it, the memory that represents
    the state has it at the same address. Beyond the end of an object the code reads whatever lies there; the
    model stops, and nothing is said. -/

namespace LamaSM
namespace Gc
open Lib

/-! ### The code -/

/-- The address of the element at `i`, of the given size; pointers have 64 bits. -/
def element (p : Word) (size : ℕ) (i : ℤ) : ℕ := (p + BitVec.ofInt 64 (size * i)).toNat

section Code

variable (m : ByteMemory)

/-- `TO_DATA (x)->data_header` -/
def dataHeader (x : Word) : Word := load64 m (toData x.toNat)

/-- `Llength` -/
def Llength (p : Word) : Word := boxInt (len (dataHeader m p))

/-- `Belem` -/
def Belem (p i : Word) : Word :=
  let i := unbox i
  if tag (dataHeader m p) = stringTag then boxInt (signedChar (m (element p 1 i)))
  else if tag (dataHeader m p) = sexpTag then load64 m (element p memberSize (i + 1))
  else load64 m (element p memberSize i)

/-- `Bsta`, with the memory it leaves -/
def Bsta (x i v : Word) : Word × ByteMemory :=
  if isBoxedInt i then
    let i := unbox i
    if tag (dataHeader m x) = stringTag then
      (v, storeBytes m (element x 1 i) [UInt8.ofNat (unbox v % 256).toNat])
    else if tag (dataHeader m x) = sexpTag then (v, store64 m (element x memberSize (i + 1)) v)
    else (v, store64 m (element x memberSize i) v)
  else (v, store64 m x.toNat v)

/-- `Btag` -/
def Btag (d t n : Word) : Word :=
  if isBoxedInt d then boxInt 0
  else boxBool (tag (dataHeader m d) == sexpTag && load64 m d.toNat == BitVec.ofInt 64 (unbox t) &&
    BitVec.ofNat 64 (len (dataHeader m d)) == BitVec.ofInt 64 (unbox n))

/-- `Barray_patt`, which its caller declares with an `int` second argument. -/
def BarrayPatt (d n : Word) : Word :=
  if isBoxedInt d then boxInt 0
  else boxBool (tag (dataHeader m d) == arrayTag &&
    (len (dataHeader m d) : ℤ) == unbox (BitVec.ofInt 64 (toI32 n.toInt)))

/-- `LtagHash`; `fuel` bounds the characters that are looked at. -/
def LtagHash (fuel : ℕ) (s : Word) : Result Word :=
  match cString m fuel s.toNat with
  | none => throw .timeout
  | some name => tagHash name

/-- `Bstring_patt`; none where the characters run past the bytes that are looked at. -/
def BstringPatt (fuel : ℕ) (x y : Word) : Option Word :=
  if isBoxedInt x then some (boxInt 0)
  else if tag (dataHeader m x) ≠ stringTag then some (boxInt 0)
  else (strcmpEq (bytesFrom m x.toNat fuel) (bytesFrom m y.toNat fuel)).map boxBool

/-- `Bclosure_tag_patt`, `Barray_tag_patt`, `Bstring_tag_patt` and `Bsexp_tag_patt` -/
def tagPatt (type : ℕ) (x : Word) : Word :=
  if isBoxedInt x then boxInt 0 else boxBool (tag (dataHeader m x) == type)

/-- `Bclosure_tag_patt` -/
def BclosureTagPatt : Word → Word := tagPatt m closureTag

/-- `Barray_tag_patt` -/
def BarrayTagPatt : Word → Word := tagPatt m arrayTag

/-- `Bstring_tag_patt` -/
def BstringTagPatt : Word → Word := tagPatt m stringTag

/-- `Bsexp_tag_patt` -/
def BsexpTagPatt : Word → Word := tagPatt m sexpTag

end Code

/-! ### Objects in memory -/

section Objects

variable {M : Machine} {s s' : State} {g : Globals} {os : List Obj} {a j : ℕ} {o : Obj} {p w : Word} {m : ByteMemory}
  {ws : List Word} {i : ℤ}

/-- An object of the state lies in memory where its address says. -/
structure Found (g : Globals) (os : List Obj) (p : Word) (j : ℕ) (o : Obj) : Prop where
  mem : (j, o) ∈ laid room g.heap.begin os
  address : p.toNat = j + dataHeaderSz
  object : ObjAt g.mem j o
  lt : j + objSize o < 2 ^ 63
  size : objSize o ≤ g.heap.current - g.heap.begin

theorem Represents.found (h : Represents M s g os) (ho : s.heap p = some o) : ∃ j, Found g os p j o := by
  rw [h.heap] at ho
  obtain ⟨j, hj, hp⟩ := heapOf_eq_some.mp ho
  have hplace := h.layout.place hj
  have hroom := objSize_le_room o
  have hlt := h.placed.lt
  have hfilled := h.placed.chunk.filled
  exact ⟨j, hj, hp, h.layout.objects j o hj, by omega, by omega⟩

theorem Found.dataHeader (h : Found g os p j o) : dataHeader g.mem p = headerOf (kindTag (kind o)) o.len := by
  rw [Gc.dataHeader, h.address, toData, Nat.add_sub_cancel, h.object.header]

theorem Found.tag (h : Found g os p j o) : tag (Gc.dataHeader g.mem p) = kindTag (kind o) := by
  rw [h.dataHeader, tag_eq, headerOf_toNat (kindTag_lt _) h.object.len_lt]
  have := kindTag_lt (kind o)
  omega

theorem Found.len (h : Found g os p j o) : len (Gc.dataHeader g.mem p) = o.len := by
  rw [h.dataHeader, len_eq, headerOf_toNat (kindTag_lt _) h.object.len_lt]
  have := kindTag_lt (kind o)
  omega

/-- Elements of an object lie behind its address. -/
theorem element_eq {size : ℕ} (hi : 0 ≤ i) (hlt : p.toNat + size * i.toNat < 2 ^ 64) :
    element p size i = p.toNat + size * i.toNat := by
  obtain ⟨k, rfl⟩ := Int.eq_ofNat_of_zero_le hi
  rw [Int.toNat_natCast] at hlt ⊢
  have hoffset : (BitVec.ofInt 64 (size * (k : ℤ)) : Word).toNat = size * k := by
    rw [BitVec.toNat_ofInt]
    omega
  rw [element, BitVec.toNat_add, hoffset]
  exact Nat.mod_eq_of_lt hlt

theorem Found.element {size k : ℕ} (h : Found g os p j o) (hk : size * k ≤ objSize o) :
    element p size k = j + dataHeaderSz + size * k := by
  have hlt := h.lt
  have haddress := h.address
  have hd : dataHeaderSz = 16 := rfl
  rw [element_eq (Int.natCast_nonneg k) (by rw [Int.toNat_natCast]; omega), Int.toNat_natCast, haddress]

theorem Found.byte {contents : List UInt8} {k : ℕ} {c : UInt8} (h : Found g os p j (.string contents))
    (hc : contents[k]? = some c) : g.mem (Gc.element p 1 k) = c := by
  obtain ⟨hk, rfl⟩ := List.getElem?_eq_some_iff.mp hc
  have hcontents : bytesFrom g.mem (j + dataHeaderSz) contents.length = contents := h.object.contents
  have hbyte := bytesFrom_getElem? (m := g.mem) contents.length (j + dataHeaderSz) k hk
  rw [hcontents] at hbyte
  rw [h.element (by rw [objSize]; omega), Nat.one_mul]
  exact Option.some_inj.mp (hbyte.symm.trans hc)

/-- The words of the contents of an object that is no string. -/
def contentWords : Obj → List Word
  | .string _ => []
  | .array elems => elems
  | .sexp tag fields => tag :: fields
  | .closure entry captured => entry :: captured

theorem objSize_words (ho : kind o ≠ .string) : objSize o = dataHeaderSz + 8 * (contentWords o).length := by
  cases o <;> first | rfl | exact absurd rfl ho

theorem len_congr {o' : Obj} (ho : kind o ≠ .string) (hkind : kind o' = kind o)
    (hlength : (contentWords o').length = (contentWords o).length) : o'.len = o.len := by
  cases o <;> cases o' <;> simp_all [kind, contentWords, Obj.len]

theorem contentsAt_words {a : ℕ} (ho : kind o ≠ .string) : ContentsAt m a o ↔ WordsAt m a (contentWords o) := by
  cases o <;> first | rfl | exact absurd rfl ho

theorem Found.words (h : Found g os p j o) : WordsAt g.mem (j + dataHeaderSz) (contentWords o) := by
  have hcontents := h.object.contents
  cases o with
  | string contents => exact fun k w hk => by simp [contentWords] at hk
  | array elems => exact hcontents
  | sexp tag fields => exact hcontents
  | closure entry captured => exact hcontents

theorem Found.word {k : ℕ} (h : Found g os p j o) (hk : (contentWords o)[k]? = some w) :
    load64 g.mem (Gc.element p memberSize k) = w := by
  have ho : kind o ≠ .string := by
    cases o with
    | string contents => cases hk
    | array | sexp | closure => nofun
  have hlt := (List.getElem?_eq_some_iff.mp hk).1
  rw [h.element (by rw [objSize_words ho, memberSize]; omega)]
  exact h.words k w hk

/-- One word of an array of words is written. -/
theorem wordsAt_set (h : WordsAt m a ws) (k : ℕ) : WordsAt (store64 m (a + 8 * k) w) a (ws.set k w) := by
  intro l x hl
  rw [List.getElem?_set] at hl
  split at hl
  · rename_i heq
    subst heq
    split at hl
    · cases hl
      exact load64_store64
    · cases hl
  · rename_i hne
    rw [load64_store64_of_disjoint (by omega)]
    exact h l x hl

/-- The object at an address is filled with other words. -/
theorem Represents.setWord (h : Represents M s g os) (hj : Found g os p j o) {o' : Obj} {k : ℕ}
    (ho : kind o ≠ .string) (hkind : kind o' = kind o) (hk : k < (contentWords o).length)
    (hwords : contentWords o' = (contentWords o).set k w) :
    ∃ os', Represents M { s with heap := Function.update s.heap p (some o') }
      { g with mem := store64 g.mem (Gc.element p memberSize k) w } os' := by
  have hsize := objSize_words ho
  have hsize' : objSize o' = objSize o := by
    rw [hsize, objSize_words (hkind ▸ ho), hwords, List.length_set]
  have haddress : Gc.element p memberSize k = j + dataHeaderSz + 8 * k :=
    hj.element (by rw [hsize, memberSize]; omega)
  refine ⟨_, h.fill hj.mem hkind ?_ ?_ hsize' (fun b hb => ?_) ?_ hj.address⟩
  · exact len_congr ho hkind (by rw [hwords, List.length_set])
  · rintro rfl
    exact ho hkind.symm
  · rw [haddress]
    exact store64_of_not_mem (by omega)
  · rw [contentsAt_words (hkind ▸ ho), haddress, hwords]
    exact wordsAt_set hj.words k

/-- The bytes of a string are overwritten. -/
theorem Represents.setBytes {contents : List UInt8} (h : Represents M s g os)
    (hj : Found g os p j (.string contents)) (bs : List UInt8) (k : ℕ) (hpos : 0 < contents.length) (hk : k + bs.length ≤ contents.length) :
    ∃ os', Represents M
      { s with
        heap := Function.update s.heap p (some (.string (contents.take k ++ bs ++ contents.drop (k + bs.length)))) }
      { g with mem := storeBytes g.mem (Gc.element p 1 k) bs } os' := by
  have haddress : Gc.element p 1 k = j + dataHeaderSz + k := by
    rw [hj.element (by rw [objSize]; omega), Nat.one_mul]
  have hlength : (contents.take k ++ bs ++ contents.drop (k + bs.length)).length = contents.length := by
    simp
    omega
  refine ⟨_, h.fill hj.mem rfl ?_ ?_ ?_ (fun b hb => ?_) ?_ hj.address⟩
  · rw [Obj.len, Obj.len, hlength]
  · intro heq
    rw [Obj.string.inj heq] at hlength
    exact Nat.ne_of_lt hpos hlength
  · rw [objSize, objSize, hlength]
  · rw [haddress]
    rw [objSize] at hb
    exact storeBytes_of_not_mem (by omega)
  · rw [haddress, ContentsAt, hlength]
    exact bytesFrom_storeBytes_at hj.object.contents hk

end Objects

/-! ### Reading -/

section Reading

variable {M : Machine} {s s' : State} {g : Globals} {os : List Obj} {j : ℕ} {o : Obj} {p i d t n w : Word}

theorem Represents.llength (h : Represents M s g os) (hrun : LamaSM.Llength p s = .ok w s') :
    s' = s ∧ Llength g.mem p = w := by
  obtain ⟨o, s₁, hget, hret⟩ := exec_bind_ok.mp hrun
  obtain ⟨rfl, ho⟩ := getObj_ok hget
  obtain ⟨j, hj⟩ := h.found ho
  cases hret
  exact ⟨rfl, by rw [Llength, hj.len]⟩

theorem Represents.belem (h : Represents M s g os) (hrun : LamaSM.Belem p i s = .ok w s') :
    s' = s ∧ Belem g.mem p i = w := by
  obtain ⟨rfl, o, ho, helem⟩ := Belem_ok hrun
  obtain ⟨j, hj⟩ := h.found ho
  refine ⟨rfl, ?_⟩
  have hneg : ¬ unbox i < 0 := fun hneg => by
    rw [Obj.elem.eq_def, if_pos hneg] at helem
    cases helem
  rw [Obj.elem.eq_def, if_neg hneg] at helem
  rw [Belem, hj.tag]
  generalize unbox i = k at *
  obtain ⟨k, rfl⟩ := Int.eq_ofNat_of_zero_le (Int.not_lt.mp hneg)
  rw [Int.toNat_natCast] at helem
  cases o with
  | string contents =>
    obtain ⟨c, hc, rfl⟩ := Option.map_eq_some_iff.mp helem
    exact (if_pos rfl).trans (by rw [hj.byte hc])
  | array elems => exact hj.word helem
  | sexp tag fields => exact hj.word (k := k + 1) helem
  | closure entry captured => exact hj.word helem

/-- A question about an object the memory answers as well. -/
theorem Represents.patt (h : Represents M s g os) {answer : Obj → Exec Word} {b : Bool}
    (hanswer : ∀ o j, Found g os d j o → answer o = pure (boxBool b))
    (hrun : (if isBoxedInt d then pure (boxInt 0) else getObj d >>= answer) s = .ok w s') :
    s' = s ∧ (if isBoxedInt d then boxInt 0 else boxBool b) = w := by
  split at hrun
  · rename_i hboxed
    cases hrun
    exact ⟨rfl, if_pos hboxed⟩
  · rename_i hboxed
    obtain ⟨o, s₁, hget, hret⟩ := exec_bind_ok.mp hrun
    obtain ⟨rfl, ho⟩ := getObj_ok hget
    obtain ⟨j, hj⟩ := h.found ho
    rw [hanswer o j hj] at hret
    cases hret
    exact ⟨rfl, if_neg hboxed⟩

theorem Represents.btag (h : Represents M s g os) (hrun : LamaSM.Btag d t n s = .ok w s') :
    s' = s ∧ Btag g.mem d t n = w := by
  refine h.patt (fun o j hj => ?_) hrun
  have hlen := hj.object.len_lt
  rw [hj.tag, hj.len]
  cases o with
  | sexp tag fields =>
    have hword : load64 g.mem d.toNat = tag := by
      rw [hj.address]
      exact hj.words 0 tag rfl
    have hlength : (BitVec.ofNat 64 fields.length == BitVec.ofInt 64 (unbox n)) =
        ((fields.length : ℤ) == unbox n) := by
      obtain ⟨hlow, hhigh⟩ := fits63_unbox n
      rw [Obj.len] at hlen
      rw [Bool.eq_iff_iff, beq_iff_eq, beq_iff_eq, ← BitVec.toNat_inj, BitVec.toNat_ofNat, BitVec.toNat_ofInt]
      omega
    rw [hword, Obj.len, hlength]
    rfl
  | string | array | closure => rfl

theorem Represents.barrayPatt (h : Represents M s g os) (hrun : LamaSM.BarrayPatt d n s = .ok w s') :
    s' = s ∧ BarrayPatt g.mem d n = w := by
  refine h.patt (fun o j hj => ?_) hrun
  rw [hj.tag, hj.len]
  cases o <;> rfl

/-- The four tests of the tag. -/
theorem Represents.tagPatt (h : Represents M s g os) (type : LamaType) {test : Obj → Bool}
    (htest : ∀ o, test o = (kindTag (kind o) == kindTag type)) (hrun : LamaSM.tagPatt test d s = .ok w s') :
    s' = s ∧ tagPatt g.mem (kindTag type) d = w := by
  refine h.patt (fun o j hj => ?_) hrun
  rw [hj.tag, htest]

/-- The address of a slot. -/
theorem slotAddress_of_slotOf {k : ℤ} (hk : M.slotOf p = some k) (hr : 0 ≤ k ∧ k < M.maxStack) :
    k.toNat < M.maxStack ∧ p.toNat = slotAddress M k.toNat := by
  rw [Machine.slotOf] at hk
  split at hk
  · cases hk
    unfold slotAddress
    omega
  · cases hk

/-- A word of a string, filled up with the slack behind the contents -/
theorem Found.stringWord {contents : List UInt8} {k : ℕ} (h : Found g os p j (.string contents))
    {slack : Word → ℕ → UInt8} (hslack : SlackAt g.mem g.heap.begin os slack) (hk : 8 * k < contents.length) :
    load64 g.mem (p.toNat + 8 * k) =
      wordOfBytes (firstBytes (contents.drop (8 * k)) fun i => slack p (8 * k + i)) := by
  have haddress := h.address
  have hcontents : bytesFrom g.mem (j + dataHeaderSz) contents.length = contents := h.object.contents
  have hbytes : firstBytes (contents.drop (8 * k)) (fun i => slack p (8 * k + i)) = bytesFrom g.mem (p.toNat + 8 * k) 8 := by
    refine List.ext_getElem? fun i => ?_
    by_cases hi : i < 8
    · rw [getElem?_firstBytes _ _ hi, bytesFrom_getElem? 8 _ i hi, List.getD_eq_getElem?_getD, List.getElem?_drop,
        haddress, Nat.add_assoc]
      by_cases hlen : 8 * k + i < contents.length
      · have hbyte := bytesFrom_getElem? (m := g.mem) contents.length (j + dataHeaderSz) (8 * k + i) hlen
        rw [hcontents] at hbyte
        rw [hbyte]
        rfl
      · have hroom : dataHeaderSz + (8 * k + i) < room (.string contents) := by
          rw [room, objSize]
          unfold dataHeaderSz
          omega
        rw [List.getElem?_eq_none (by omega), hslack j contents h.mem p haddress (8 * k + i) (by omega) hroom]
        rfl
    · rw [List.getElem?_eq_none (by simpa using hi), List.getElem?_eq_none (by rw [bytesFrom_length]; omega)]
  rw [hbytes, wordOfBytes_eq]
  rfl

/-- The first word of an object. -/
theorem Found.firstWord (h : Found g os p j o) {slack : Word → ℕ → UInt8}
    (hslack : SlackAt g.mem g.heap.begin os slack) (hw : o.firstWord (slack p) = some w) :
    load64 g.mem p.toNat = w := by
  have haddress := h.address
  cases o with
  | string contents =>
    cases contents with
    | nil => cases hw
    | cons b bs =>
      have hfirst := h.stringWord hslack (k := 0) (Nat.zero_lt_succ _)
      simp only [Nat.mul_zero, Nat.add_zero, Nat.zero_add, List.drop_zero] at hfirst
      exact hfirst.trans (Option.some.inj hw)
  | array elems =>
    cases elems with
    | nil => cases hw
    | cons x xs => exact haddress ▸ h.words 0 w hw
  | sexp tag fields => exact haddress ▸ h.words 0 w hw
  | closure entry captured => exact haddress ▸ h.words 0 w hw

/-- `*ptr` -/
theorem Represents.loadWord (h : Represents M s g os) (hrun : LamaSM.loadWord M p s = .ok w s') :
    s' = s ∧ load64 g.mem p.toNat = w := by
  rw [loadWord_eq] at hrun
  cases target M s p with
  | @slot k hk hr =>
    rw [wordAt_slot hk hr] at hrun
    cases hrun
    obtain ⟨hlt, haddress⟩ := slotAddress_of_slotOf hk hr
    rw [haddress, h.stack _ hlt, Int.toNat_of_nonneg hr.1]
    exact ⟨rfl, rfl⟩
  | object hno ho hw =>
    rw [wordAt_object hno, ho, Option.bind_some, hw] at hrun
    cases hrun
    obtain ⟨j, hj⟩ := h.found ho
    exact ⟨rfl, hj.firstWord h.slack hw⟩
  | nothing hno hnone =>
    rw [wordAt_object hno, hnone] at hrun
    cases hrun

theorem wordBytes_load64 (m : ByteMemory) (a : ℕ) : wordBytes (load64 m a) = bytesFrom m a 8 := by
  rw [load64, ← wordOfBytes_eq, wordBytes_wordOfBytes (bytesFrom_length 8 a)]

theorem bytesFrom_words {m : ByteMemory} : ∀ {ws : List Word} {a : ℕ}, WordsAt m a ws →
    bytesFrom m a (8 * ws.length) = ws.flatMap wordBytes
  | [], _, _ => rfl
  | w :: ws, a, h => by
    have hhead : load64 m a = w := h 0 w rfl
    have htail : WordsAt m (a + 8) ws := fun k x hk => by
      have hword := h (k + 1) x hk
      rwa [Nat.mul_succ, Nat.add_comm _ 8, ← Nat.add_assoc] at hword
    rw [List.length_cons, Nat.mul_succ, Nat.add_comm _ 8, bytesFrom_add, bytesFrom_words htail, ← wordBytes_load64, hhead]
    rfl

theorem length_words (ws : List Word) : (ws.flatMap wordBytes).length = 8 * ws.length := by
  induction ws with
  | nil => rfl
  | cons w ws ih =>
    rw [List.flatMap_cons, List.length_append, ih, List.length_cons, wordBytes, List.length_map, List.length_range]
    omega

theorem objSize_bytes (o : Obj) : objSize o = dataHeaderSz + o.bytes.length := by
  cases o with
  | string contents => rfl
  | array elems => rw [objSize, Obj.bytes, length_words]
  | sexp tag fields => rw [objSize, Obj.bytes, length_words, List.length_cons]
  | closure entry captured => rw [objSize, Obj.bytes, length_words, List.length_cons]

/-- The bytes of an object. -/
theorem Found.bytes (h : Found g os p j o) : bytesFrom g.mem p.toNat o.bytes.length = o.bytes := by
  rw [h.address]
  cases o with
  | string contents => exact h.object.contents
  | array elems => exact length_words elems ▸ bytesFrom_words h.words
  | sexp tag fields => exact length_words (tag :: fields) ▸ bytesFrom_words h.words
  | closure entry captured => exact length_words (entry :: captured) ▸ bytesFrom_words h.words

/-- More bytes than the heap has begin with them. -/
theorem Found.bytes_append (h : Found g os p j o) {fuel : ℕ} (hfuel : g.heap.current - g.heap.begin < fuel) :
    ∃ rest, bytesFrom g.mem p.toNat fuel = o.bytes ++ rest := by
  have hsize := h.size
  rw [objSize_bytes] at hsize
  obtain ⟨k, rfl⟩ := Nat.exists_eq_add_of_le (show o.bytes.length ≤ fuel by omega)
  exact ⟨_, by rw [bytesFrom_add, h.bytes]⟩

/-- `LtagHash` -/
theorem Represents.ltagHash (h : Represents M s g os) {fuel : ℕ} (hfuel : g.heap.current - g.heap.begin < fuel)
    (hrun : LamaSM.LtagHash p s = .ok w s') : s' = s ∧ LtagHash g.mem fuel p = .ok w := by
  obtain ⟨o, s₁, hget, hrest⟩ := exec_bind_ok.mp hrun
  obtain ⟨rfl, ho⟩ := getObj_ok hget
  obtain ⟨j, hj⟩ := h.found ho
  obtain ⟨rest, hbytes⟩ := hj.bytes_append hfuel
  split at hrest
  · cases hrest
  rename_i hzero
  rw [LtagHash, cString_of_bytes hbytes (Decidable.not_not.mp hzero)]
  dsimp only
  cases hhash : tagHash (o.bytes.takeWhile (· ≠ 0)) with
  | ok hash =>
    rw [hhash] at hrest
    cases hrest
    exact ⟨rfl, rfl⟩
  | error e =>
    rw [hhash] at hrest
    cases hrest

/-- Two C strings are compared alike when more bytes are looked at. -/
theorem strcmpEq_append : ∀ {as bs as' bs' : List UInt8} {b : Bool}, strcmpEq as bs = some b →
    strcmpEq (as ++ as') (bs ++ bs') = some b
  | [], _, _, _, _, h => by cases h
  | _ :: _, [], _, _, _, h => by cases h
  | x :: as, y :: bs, as', bs', b, h => by
    rw [strcmpEq] at h
    rw [List.cons_append, List.cons_append, strcmpEq]
    split_ifs at h ⊢ <;> first | exact h | exact strcmpEq_append h

theorem Represents.bstringPatt (h : Represents M s g os) {fuel : ℕ} (hfuel : g.heap.current - g.heap.begin < fuel)
    (hrun : LamaSM.BstringPatt p d s = .ok w s') : s' = s ∧ BstringPatt g.mem fuel p d = some w := by
  rw [LamaSM.BstringPatt] at hrun
  rw [BstringPatt]
  split at hrun
  · rename_i hboxed
    cases hrun
    exact ⟨rfl, if_pos hboxed⟩
  rename_i hboxed
  rw [if_neg hboxed]
  obtain ⟨o, s₁, hget, hrest⟩ := exec_bind_ok.mp hrun
  obtain ⟨rfl, ho⟩ := getObj_ok hget
  obtain ⟨j, hj⟩ := h.found ho
  rw [hj.tag]
  cases o with
  | string contents =>
    obtain ⟨ry, s₂, hget, hcompare⟩ := exec_bind_ok.mp hrest
    obtain ⟨rfl, hry⟩ := getObj_ok hget
    obtain ⟨k, hk⟩ := h.found hry
    rw [if_neg (by simp [kind, kindTag])]
    cases heq : strcmpEq contents ry.bytes with
    | none =>
      rw [heq] at hcompare
      cases hcompare
    | some b =>
      rw [heq] at hcompare
      cases hcompare
      obtain ⟨as', hx⟩ := hj.bytes_append hfuel
      obtain ⟨bs', hy⟩ := hk.bytes_append hfuel
      have hsame : strcmpEq (Obj.string contents).bytes ry.bytes = some b := heq
      rw [hx, hy, strcmpEq_append hsame]
      exact ⟨rfl, rfl⟩
  | array | sexp | closure =>
    cases hrest
    exact ⟨rfl, rfl⟩

end Reading

/-! ### Writing -/

section Writing

variable {M : Machine} {s s' : State} {g : Globals} {os : List Obj} {j : ℕ} {o : Obj} {p i v w : Word}

/-- What happens outside the heap leaves its objects alone. -/
theorem Represents.outHeap (h : Represents M s g os) {m' : ByteMemory}
    (hrest : ∀ b, g.heap.begin ≤ b → b < g.heap.end → m' b = g.mem b) :
    HeapAt m' g.heap os ∧ ∀ j o, (j, o) ∈ laid room g.heap.begin os → ¬ Marked m' j ∧ ¬ Enqueued m' j := by
  have hfilled := h.placed.chunk.filled
  refine ⟨⟨fun j o hj => ?_, h.layout.current, h.layout.aligned, h.layout.lt⟩, fun j o hj => ?_⟩
  · have hplace := h.layout.place hj
    have hsize := objSize_le_room o
    exact (h.layout.objects j o hj).moved fun i hi => hrest _ (by omega) (by omega)
  · have hplace := h.layout.place hj
    have hroom := room_ge o
    have hforward : Copied g.mem (j + 8) m' (j + 8) 8 := fun i hi => hrest _ (by omega) (by omega)
    obtain ⟨hm, he, -⟩ := flags_copied hforward
    exact ⟨by rw [Marked, hm]; exact (h.clean j o hj).1, by rw [Enqueued, he]; exact (h.clean j o hj).2⟩

/-- What happens on the stack leaves the rest alone. -/
theorem Represents.onStack (h : Represents M s g os) {stack : ℤ → Word} {m' : ByteMemory}
    (hrest : ∀ b, b < slotAddress M 0 ∨ slotAddress M M.maxStack ≤ b → m' b = g.mem b)
    (hstack : ∀ i < M.maxStack, load64 m' (slotAddress M i) = stack i) :
    Represents M { s with stack := stack } { g with mem := m' } os ∧
      ∀ q ∈ g.stackBottom :: wordsBetween g.startCustomData g.stopCustomData, load64 m' q = load64 g.mem q := by
  have hplaced := h.placed.stack
  have hfilled := h.placed.chunk.filled
  have hslots : slotAddress M 0 ≤ slotAddress M M.maxStack := by
    unfold slotAddress
    omega
  obtain ⟨hlayout, hclean⟩ := h.outHeap fun b hlow hhigh => hrest b (by omega)
  have hforeign : ∀ q ∈ g.stackBottom :: wordsBetween g.startCustomData g.stopCustomData,
      load64 m' q = load64 g.mem q := by
    intro q hq
    refine Copied.load64 fun k hk => hrest _ ?_
    have hcustom := h.placed.apart
    rcases List.mem_cons.mp hq with rfl | hq
    · rw [h.placed.bottom]
      omega
    · have hbounds := mem_custom hq
      omega
  have hslack : SlackAt m' g.heap.begin os s.slack := h.slack.kept fun j o hj b hlow hhigh => by
    have hplace := h.layout.place hj
    exact hrest b (by omega)
  refine ⟨⟨h.heap, hlayout, hclean, hstack, h.top, ?_, h.cells, ⟨h.placed.chunk, h.placed.lt, h.placed.zone,
    h.placed.bottom, h.placed.stack, h.placed.custom, h.placed.apart, fun q hq => ?_⟩, hslack⟩, hforeign⟩
  · refine h.roots.imp fun r p hr => ?_
    cases hr with
    | slot hlow hhigh => exact .slot hlow hhigh
    | cell helse hcontent =>
      refine .cell ⟨helse.stack, helse.custom, helse.heap⟩ ?_
      have hapart := helse.stack
      have hword : load64 m' p = load64 g.mem p := Copied.load64 fun k hk => hrest _ (by omega)
      dsimp only
      rw [hword]
      exact hcontent
  · dsimp only
    rw [hforeign q hq]
    exact h.placed.foreign q hq

theorem slotAddress_lt {k l : ℕ} (h : k < l) : slotAddress M k + 8 ≤ slotAddress M l := by
  unfold slotAddress
  omega

theorem slotAddress_le {k l : ℕ} (h : k ≤ l) : slotAddress M k ≤ slotAddress M l := by
  unfold slotAddress
  omega

/-- A word is written to the stack. -/
theorem Represents.write (h : Represents M s g os) {k : ℕ} (hk : k < M.maxStack) (w : Word) :
    Represents M { s with stack := Function.update s.stack k w } { g with mem := store64 g.mem (slotAddress M k) w }
      os ∧ ∀ q ∈ g.stackBottom :: wordsBetween g.startCustomData g.stopCustomData,
        load64 (store64 g.mem (slotAddress M k) w) q = load64 g.mem q := by
  have hlow := slotAddress_le (M := M) (Nat.zero_le k)
  have hhigh := slotAddress_lt (M := M) hk
  refine h.onStack (fun b hb => store64_of_not_mem (by omega)) fun i hi => ?_
  by_cases hik : i = k
  · subst hik
    rw [load64_store64, Function.update_self]
  · have hne : (i : ℤ) ≠ k := by omega
    rw [Function.update_of_ne hne, ← h.stack i hi]
    rcases Nat.lt_or_gt_of_ne hik with hlt | hgt
    · exact load64_store64_of_disjoint (.inl (slotAddress_lt hlt))
    · exact load64_store64_of_disjoint (.inr (slotAddress_lt hgt))

/-- The words from a slot on are turned round. -/
theorem Represents.reverse (h : Represents M s g os) {a n : ℕ} (ha : a + n ≤ M.maxStack) :
    Represents M
      { s with
        stack := fun i => if a ≤ i ∧ i < a + n then s.stack (2 * a + n - 1 - i) else s.stack i }
      { g with mem := reverseWords g.mem (slotAddress M a) n } os ∧
      ∀ q ∈ g.stackBottom :: wordsBetween g.startCustomData g.stopCustomData,
        load64 (reverseWords g.mem (slotAddress M a) n) q = load64 g.mem q := by
  have hlow := slotAddress_le (M := M) (Nat.zero_le a)
  have hhigh := slotAddress_le (M := M) ha
  have hend : slotAddress M (a + n) = slotAddress M a + 8 * n := slotAddress_add n
  refine h.onStack (fun b hb => reverseWords_of_not_mem (by omega)) fun i hi => ?_
  by_cases hin : a ≤ i ∧ i < a + n
  · obtain ⟨k, rfl⟩ := Nat.exists_eq_add_of_le hin.1
    rw [if_pos (by omega), slotAddress_add, memberSize, load64_reverseWords (by omega), ← memberSize,
      ← slotAddress_add, h.stack _ (by omega)]
    refine congrArg s.stack ?_
    omega
  · rw [if_neg (by omega), ← h.stack i hi]
    refine Copied.load64 fun k hk => reverseWords_of_not_mem ?_
    unfold slotAddress
    omega

/-- The bytes of a word that is written. -/
theorem getElem?_store64 {m : ByteMemory} {a k : ℕ} (hk : k < 8) :
    (wordBytes w)[k]? = some (store64 m a w (a + k)) := by
  have hbytes : bytesFrom (store64 m a w) a 8 = wordBytes w := by
    have hstore := bytesFrom_storeBytes m a (wordBytes w)
    rw [length_wordBytes, wordBytes_eq] at hstore
    rw [store64, hstore, wordBytes_eq]
  rw [← hbytes, bytesFrom_getElem? 8 a k hk]

/-- The first word of a string is overwritten, in its contents and in the slack behind them. -/
theorem Represents.setFirst_string {contents : List UInt8} (h : Represents M s g os)
    (hj : Found g os p j (.string contents)) (hpos : 0 < contents.length) :
    ∃ os', Represents M
      { s with
        heap := Function.update s.heap p (some (.string (putFirst w contents)))
        slack := Function.update s.slack p (putSlack w contents (s.slack p)) }
      { g with mem := store64 g.mem p.toNat w } os' := by
  have haddress := hj.address
  have hd : dataHeaderSz = 16 := rfl
  have hlen := length_putFirst w contents
  have hroom : room (.string contents) = 8 * ((16 + contents.length + 7) / 8) := rfl
  have hroom' : room (.string (putFirst w contents)) = room (.string contents) := by
    rw [room, room, objSize, objSize, hlen]
  have hkind : kind (.string (putFirst w contents)) = kind (.string contents) := rfl
  rw [haddress]
  refine ⟨_, h.refill hj.mem hkind ?_ ?_ ?_ (fun b hb => ?_) ?_ haddress fun cs hcs k hk hk' => ?_⟩
  · rw [Obj.len, Obj.len, hlen]
  · intro heq
    rw [Obj.string.inj heq, List.length_nil] at hlen
    omega
  · rw [objSize, objSize, hlen]
  · exact store64_of_not_mem (by omega)
  · refine List.ext_getElem? fun k => ?_
    by_cases hk : k < contents.length
    · rw [bytesFrom_getElem? _ _ k (by omega), putFirst, List.getElem?_take_of_lt hk]
      by_cases hfirst : k < 8
      · rw [List.getElem?_append_left (by simpa using hfirst), getElem?_store64 hfirst]
      · have hcontents : bytesFrom g.mem (j + dataHeaderSz) contents.length = contents := hj.object.contents
        have hbyte := bytesFrom_getElem? (m := g.mem) contents.length (j + dataHeaderSz) k hk
        rw [hcontents] at hbyte
        rw [List.getElem?_append_right (by simpa using hfirst), length_wordBytes, List.getElem?_drop,
          Nat.add_sub_cancel' (Nat.not_lt.mp hfirst), hbyte, store64_of_not_mem (by omega)]
    · rw [List.getElem?_eq_none (by rw [bytesFrom_length]; omega), List.getElem?_eq_none (by omega)]
  · obtain rfl := Obj.string.inj hcs
    have hbehind : contents.length ≤ k := by omega
    rw [putSlack, if_pos hbehind, List.getD_eq_getElem?_getD]
    by_cases hfirst : k < 8
    · rw [getElem?_store64 (m := g.mem) (a := j + dataHeaderSz) hfirst]
      rfl
    · rw [List.getElem?_eq_none (by simpa using hfirst), store64_of_not_mem (by omega)]
      exact h.slack j contents hj.mem p haddress k hbehind (by omega)

/-- The first word of an object is overwritten. -/
theorem Represents.setFirst (h : Represents M s g os) (hj : Found g os p j o) {x : Word}
    (hx : o.firstWord (s.slack p) = some x) :
    ∃ os', Represents M
      { s with
        heap := Function.update s.heap p (some (o.setFirst w))
        slack := Function.update s.slack p (o.setSlack w (s.slack p)) }
      { g with mem := store64 g.mem p.toNat w } os' := by
  have hkept : Function.update s.slack p (s.slack p) = s.slack := Function.update_eq_self p s.slack
  have hword : Gc.element p memberSize (0 : ℕ) = p.toNat := by
    rw [hj.element (Nat.zero_le _), hj.address]
    rfl
  cases o with
  | string contents =>
    cases contents with
    | nil => cases hx
    | cons b bs => exact h.setFirst_string hj (Nat.succ_pos _)
  | array elems =>
    cases elems with
    | nil => cases hx
    | cons y ys =>
      simp only [Obj.setSlack, hkept]
      exact hword ▸ h.setWord hj (fun heq => by cases heq) rfl (Nat.succ_pos _) rfl
  | sexp tag fields =>
    simp only [Obj.setSlack, hkept]
    exact hword ▸ h.setWord hj (fun heq => by cases heq) rfl (Nat.succ_pos _) rfl
  | closure entry captured =>
    simp only [Obj.setSlack, hkept]
    exact hword ▸ h.setWord hj (fun heq => by cases heq) rfl (Nat.succ_pos _) rfl

/-- `*ptr = w` -/
theorem Represents.storeWord (h : Represents M s g os) (hrun : LamaSM.storeWord M p w s = .ok () s') :
    ∃ os', Represents M s' { g with mem := store64 g.mem p.toNat w } os' := by
  cases target M s p with
  | @slot k hk hr =>
    rw [storeWord_slot hk hr] at hrun
    cases hrun
    obtain ⟨hlt, haddress⟩ := slotAddress_of_slotOf hk hr
    rw [haddress]
    have hwrite := (h.write hlt w).1
    rw [Int.toNat_of_nonneg hr.1] at hwrite
    exact ⟨os, hwrite⟩
  | object hno ho hw =>
    rw [storeWord_object hno ho hw] at hrun
    cases hrun
    obtain ⟨j, hj⟩ := h.found ho
    exact h.setFirst hj hw
  | nothing hno hnone =>
    rw [storeWord_nothing hno hnone] at hrun
    cases hrun

/-- An element of an object is replaced. -/
theorem Represents.put (h : Represents M s g os) (hj : Found g os p j o) (hi : isBoxedInt i = true) {o' : Obj}
    (hput : o.put (unbox i) v = some o') : (Bsta g.mem p i v).1 = v ∧ ∃ os',
      Represents M { s with heap := Function.update s.heap p (some o') } { g with mem := (Bsta g.mem p i v).2 } os' := by
  rw [Bsta, if_pos hi, hj.tag]
  generalize unbox i = k at *
  have hneg : ¬ k < 0 := fun hneg => by
    rw [Obj.put.eq_def, if_pos hneg] at hput
    cases hput
  rw [Obj.put.eq_def, if_neg hneg] at hput
  obtain ⟨k, rfl⟩ := Int.eq_ofNat_of_zero_le (Int.not_lt.mp hneg)
  rw [Int.toNat_natCast] at hput
  cases o with
  | string contents =>
    dsimp only at hput
    split at hput
    · rename_i hk
      cases hput
      have hset := h.setBytes hj [UInt8.ofNat (unbox v % 256).toNat] k (by omega) hk
      rw [List.append_assoc, List.singleton_append, List.length_singleton] at hset
      rw [List.set_eq_take_append_cons_drop, if_pos hk]
      exact ⟨rfl, hset⟩
    · cases hput
  | array elems =>
    dsimp only at hput
    split at hput
    · rename_i hk
      cases hput
      exact ⟨rfl, h.setWord hj (fun heq => by cases heq) rfl hk rfl⟩
    · cases hput
  | sexp tag fields =>
    dsimp only at hput
    split at hput
    · rename_i hk
      cases hput
      exact ⟨rfl, h.setWord hj (k := k + 1) (fun heq => by cases heq) rfl (Nat.succ_lt_succ hk) rfl⟩
    · cases hput
  | closure entry captured =>
    cases k with
    | zero =>
      cases hput
      exact ⟨rfl, h.setWord hj (fun heq => by cases heq) rfl (Nat.succ_pos _) rfl⟩
    | succ k =>
      dsimp only at hput
      split at hput
      · rename_i hk
        cases hput
        exact ⟨rfl, h.setWord hj (fun heq => by cases heq) rfl (Nat.succ_lt_succ hk) rfl⟩
      · cases hput

/-- `Bsta` -/
theorem Represents.bsta (h : Represents M s g os) (hrun : LamaSM.Bsta M p i v s = .ok w s') :
    (Bsta g.mem p i v).1 = w ∧ ∃ os', Represents M s' { g with mem := (Bsta g.mem p i v).2 } os' := by
  by_cases hi : isBoxedInt i = true
  · rw [LamaSM.Bsta, if_pos hi] at hrun
    obtain ⟨o, s₁, hget, hrest⟩ := exec_bind_ok.mp hrun
    obtain ⟨rfl, ho⟩ := getObj_ok hget
    obtain ⟨j, hj⟩ := h.found ho
    cases hput : o.put (unbox i) v with
    | none =>
      rw [hput] at hrest
      cases hrest
    | some o' =>
      rw [hput] at hrest
      cases hrest
      exact h.put hj hi hput
  · rw [LamaSM.Bsta, if_neg hi] at hrun
    obtain ⟨u, s₁, hstore, hret⟩ := exec_bind_ok.mp hrun
    cases hret
    rw [Bsta, if_neg hi]
    exact ⟨rfl, h.storeWord hstore⟩

/-- An assignment makes no root and is no allocation. -/
theorem Bsta_kept (hrun : LamaSM.Bsta M p i v s = .ok w s') :
    s'.extraRoots = s.extraRoots ∧ s'.allocs = s.allocs := by
  by_cases hi : isBoxedInt i = true
  · obtain ⟨o, o', -, -, rfl⟩ := Bsta_ok hi hrun
    exact ⟨rfl, rfl⟩
  · rw [LamaSM.Bsta, if_neg hi] at hrun
    obtain ⟨u, s₁, hstore, hret⟩ := exec_bind_ok.mp hrun
    cases hret
    cases target M s p with
    | slot hk hr =>
      rw [storeWord_slot hk hr] at hstore
      cases hstore
      exact ⟨rfl, rfl⟩
    | object hno ho hw =>
      rw [storeWord_object hno ho hw] at hstore
      cases hstore
      exact ⟨rfl, rfl⟩
    | nothing hno hnone =>
      rw [storeWord_nothing hno hnone] at hstore
      cases hstore

/-- Without objects the word is written to a slot. -/
theorem Represents.bsta_slot (h : Represents M s g []) (hrun : LamaSM.Bsta M p i v s = .ok w s') :
    ∃ k < M.maxStack, (Bsta g.mem p i v).2 = store64 g.mem (slotAddress M k) v := by
  have hnone : ∀ a, s.heap a = none := by
    intro a
    rw [h.heap]
    refine Option.eq_none_iff_forall_ne_some.mpr fun o ho => ?_
    obtain ⟨j, hj, -⟩ := heapOf_eq_some.mp ho
    exact List.not_mem_nil hj
  by_cases hi : isBoxedInt i = true
  · rw [LamaSM.Bsta, if_pos hi] at hrun
    obtain ⟨o, s₁, hget, -⟩ := exec_bind_ok.mp hrun
    obtain ⟨rfl, ho⟩ := getObj_ok hget
    rw [hnone] at ho
    cases ho
  · rw [LamaSM.Bsta, if_neg hi] at hrun
    obtain ⟨u, s₁, hstore, -⟩ := exec_bind_ok.mp hrun
    cases target M s p with
    | @slot k hk hr =>
      obtain ⟨hlt, haddress⟩ := slotAddress_of_slotOf hk hr
      exact ⟨_, hlt, by rw [Bsta, if_neg hi, haddress]⟩
    | object hno ho hw =>
      rw [hnone] at ho
      cases ho
    | nothing hno hnone =>
      rw [storeWord_nothing hno hnone] at hstore
      cases hstore

end Writing

end Gc
end LamaSM
