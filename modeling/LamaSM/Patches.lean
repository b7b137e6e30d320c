import LamaSM.Termination
import Mathlib.Data.List.Pairwise

/-! What the second pass of `verify` writes.

    `Linear` is the linear decode of the code as it is before the pass, offset by offset. Over it
    `closings` says, without touching the code, which BEGIN each END closes and with which depth. The
    pass refines this (`sweepLoop_closings`): it writes these depths, each behind its own BEGIN, and
    nothing else, since what it still has to decode lies behind everything it has written. -/

namespace LamaSM
open Lib

/-! ### The linear decode -/

/-- The instructions the linear decode from `o` on meets, each with its offset; it only moves
    forward, and ends where the code ends or at a byte 0xFF. -/
inductive Linear (bf : Bytefile) : ℕ → List (ℕ × InstructionType) → Prop
  | closed {o : ℕ} (ends : ¬ AtInstruction bf o) : Linear bf o []
  | next {o nxt : ℕ} {type : InstructionType} {l : List (ℕ × InstructionType)}
      (goesOn : AtInstruction bf o) (decoded : generalByterun bf o = .ok (nxt, type)) (lt : o < nxt)
      (rest : Linear bf nxt l) : Linear bf o ((o, type) :: l)

/-- The code from `o` on is the same in both files. -/
structure Agree (o : ℤ) (bf bf' : Bytefile) : Prop where
  codeSize : bf'.codeSize = bf.codeSize
  codePtr : bf'.codePtr = bf.codePtr
  code : ∀ k, o ≤ k → bf'.code k = bf.code k

section Agree

variable {bf bf' : Bytefile} {o : ℕ}

theorem agree_refl (o : ℤ) (bf : Bytefile) : Agree o bf bf := ⟨rfl, rfl, fun _ _ => rfl⟩

theorem Agree.mono {a b : ℤ} (h : Agree a bf bf') (hab : a ≤ b) : Agree b bf bf' :=
  ⟨h.codeSize, h.codePtr, fun k hk => h.code k (Int.le_trans hab hk)⟩

/-- A word of the code is given by its four bytes. -/
theorem code32_congr {k : ℤ} (h : ∀ j : ℤ, 0 ≤ j → j < 4 → bf'.code (k + j) = bf.code (k + j)) :
    bf'.code32 k = bf.code32 k := by
  have hbyte : ∀ j : ℤ, 0 ≤ j → j < 4 →
      bf'.byte (bf'.codePtr + k + j) = bf.byte (bf.codePtr + k + j) := by
    intro j h0 h4
    rw [Int.add_assoc, Int.add_assoc]
    exact h j h0 h4
  have h0 := hbyte 0 (by omega) (by omega)
  simp only [Int.add_zero] at h0
  simp only [Bytefile.code32, Bytefile.uint32, Bytefile.uint16, Int.add_assoc _ 2 1, Int.reduceAdd, h0,
    hbyte 1 (by omega) (by omega), hbyte 2 (by omega) (by omega), hbyte 3 (by omega) (by omega)]

theorem AtInstruction.lt_codeSize (h : AtInstruction bf o) (hsize : 0 ≤ bf.codeSize) :
    (o : ℤ) < bf.codeSize := by
  have hlt := h.lt
  have hbound := bf.codeSize_lt
  unfold toU32 at hlt
  omega

theorem Agree.atInstruction (h : Agree o bf bf') : AtInstruction bf' o ↔ AtInstruction bf o := by
  have hcode := h.code o (Int.le_refl _)
  constructor
  · rintro ⟨hlt, hbyte⟩
    exact ⟨h.codeSize ▸ hlt, hcode ▸ hbyte⟩
  · rintro ⟨hlt, hbyte⟩
    exact ⟨h.codeSize.symm ▸ hlt, hcode.symm ▸ hbyte⟩

theorem Agree.generalByterun (h : Agree o bf bf') : generalByterun bf' o = generalByterun bf o := by
  have hcount : bf'.code32 (o + 1 + 4) = bf.code32 (o + 1 + 4) :=
    code32_congr fun j _ _ => h.code _ (by omega)
  have htype : bf'.typeAt o = bf.typeAt o := by
    rw [Bytefile.typeAt, Bytefile.typeAt, h.code o (Int.le_refl _)]
  simp only [LamaSM.generalByterun, htype, hcount]

end Agree

/-! ### Writing into the upper half of an operand -/

section SetCode16

variable {bf : Bytefile} {o : ℤ} {v w : ℕ}

theorem setCode16_byte {j : ℤ} (h0 : 0 ≤ bf.codePtr + o) (hj : j ≠ bf.codePtr + o)
    (hj' : j ≠ bf.codePtr + o + 1) : (bf.setCode16 o v).byte j = bf.byte j := by
  simp only [Bytefile.byte, Bytefile.setCode16_bytes]
  split
  · rfl
  · rw [List.getElem?_set_ne (by omega), List.getElem?_set_ne (by omega)]

theorem setCode16_code {k : ℤ} (h0 : 0 ≤ bf.codePtr + o) (hk : k ≠ o) (hk' : k ≠ o + 1) :
    (bf.setCode16 o v).code k = bf.code k :=
  setCode16_byte (j := bf.codePtr + k) h0 (by omega) (by omega)

/-- The word written reads back. -/
theorem setCode16_written (hw : bf.code16 o = .ok w) :
    (bf.setCode16 o v).code o = .ok (v % 2 ^ 8) ∧
      (bf.setCode16 o v).code (o + 1) = .ok (v / 2 ^ 8 % 2 ^ 8) := by
  obtain ⟨b0, b1, hb0, hb1, -⟩ := Bytefile.uint16_ok hw
  obtain ⟨hlow, -, -⟩ := Bytefile.byte_ok hb0
  obtain ⟨-, hhigh, -⟩ := Bytefile.byte_ok hb1
  have hne : (bf.codePtr + o).toNat + 1 ≠ (bf.codePtr + o).toNat := by omega
  have hnext : (bf.codePtr + (o + 1)).toNat = (bf.codePtr + o).toNat + 1 := by omega
  constructor
  · show (bf.setCode16 o v).byte (bf.codePtr + o) = _
    rw [Bytefile.byte, if_neg (by omega), Bytefile.setCode16_bytes, List.getElem?_set_ne hne, List.getElem?_set_self (by omega)]
    simp
  · show (bf.setCode16 o v).byte (bf.codePtr + (o + 1)) = _
    rw [Bytefile.byte, if_neg (by omega), Bytefile.setCode16_bytes, hnext, List.getElem?_set_self (by simp only [List.length_set]; omega)]
    simp

theorem headerWord_set {file : List UInt8} {i n : ℕ} (b : UInt8) (h : i + 4 ≤ n) :
    headerWord (file.set n b) i = headerWord file i := by
  have hbytes : ((file.set n b).drop i).take 4 = (file.drop i).take 4 := by
    refine List.ext_getElem? fun j => ?_
    simp only [List.getElem?_take, List.getElem?_drop]
    split
    · rw [List.getElem?_set_ne (by omega)]
    · rfl
  rw [headerWord, headerWord, hbytes]

/-- A write behind the header leaves the header alone. -/
theorem setCode16_globalAreaSize (h : 12 ≤ bf.codePtr + o) :
    (bf.setCode16 o v).globalAreaSize = bf.globalAreaSize := by
  rw [Bytefile.globalAreaSize_eq, Bytefile.setCode16_bytes, headerWord_set _ (by omega),
    headerWord_set _ (by omega), ← Bytefile.globalAreaSize_eq]

/-- Writing back the zero that was there. -/
theorem setCode16_undo (hw : bf.code16 o = .ok 0) : (bf.setCode16 o v).setCode16 o 0 = bf := by
  obtain ⟨b0, b1, hb0, hb1, hzero⟩ := Bytefile.uint16_ok hw
  have hrange := (Bytefile.byte_ok hb0).1
  have hget : ∀ {j : ℤ} {b : ℕ}, bf.byte j = .ok b → b = 0 → bf.bytes[j.toNat]? = some 0 := by
    intro j b hb h0
    unfold Bytefile.byte at hb
    split at hb
    · cases hb
    · split at hb
      · rename_i x hx
        cases hb
        rw [hx, show x = 0 from UInt8.toNat_inj.mp h0]
      · cases hb
  have hlow := hget hb0 (by omega)
  have hhigh := hget hb1 (by omega)
  rw [show (bf.codePtr + o + 1).toNat = (bf.codePtr + o).toNat + 1 by omega] at hhigh
  have hbytes : ((bf.setCode16 o v).setCode16 o 0).bytes = bf.bytes := by
    refine List.ext_getElem? fun n => ?_
    simp only [Bytefile.setCode16_bytes, Bytefile.setCode16_codePtr, List.getElem?_set]
    grind
  show bf.withBytes ((bf.setCode16 o v).setCode16 o 0).bytes = bf
  rw [hbytes, Bytefile.withBytes_self]

/-- Writes at different places commute. -/
theorem setCode16_comm {o' : ℤ} {v' : ℕ} (h0 : 0 ≤ bf.codePtr + o) (h0' : 0 ≤ bf.codePtr + o')
    (h : o + 2 ≤ o' ∨ o' + 2 ≤ o) :
    (bf.setCode16 o v).setCode16 o' v' = (bf.setCode16 o' v').setCode16 o v := by
  have hbytes : ((bf.setCode16 o v).setCode16 o' v').bytes =
      ((bf.setCode16 o' v').setCode16 o v).bytes := by
    refine List.ext_getElem? fun n => ?_
    simp only [Bytefile.setCode16_bytes, Bytefile.setCode16_codePtr, List.getElem?_set, List.length_set]
    grind
  exact congrArg bf.withBytes hbytes

end SetCode16

/-! ### The functions opened and closed -/

/-- A BEGIN closed by an END: the offsets of both and the depth that is written. -/
structure Closing where
  opens : ℕ
  closes : ℕ
  depth : ℤ

/-- BEGIN or CBEGIN -/
def OpensFunction (type : InstructionType) : Prop := type = .begin ∨ type = .cbegin

instance (type : InstructionType) : Decidable (OpensFunction type) :=
  inferInstanceAs (Decidable (_ ∨ _))

/-- The functions the marked ENDs of a linear decode close, from a largest depth and the functions
    opened before. -/
def closings (visited : List ℤ) : ℤ → List ℕ → List (ℕ × InstructionType) → List Closing
  | _, _, [] => []
  | m, begins, (o, type) :: l =>
    let v := visited.getD o (-1)
    if v = -1 then closings visited m begins l
    else if type = .end then
      (begins.head?.map fun b => ⟨b, o, max m v⟩).toList ++ closings visited (-1) begins.tail l
    else if OpensFunction type then closings visited (max m v) (o :: begins) l
    else closings visited (max m v) begins l

/-- The file with the depths written. -/
def patched (bf : Bytefile) (cs : List Closing) : Bytefile :=
  cs.foldl (fun bf c => bf.setCode16 (c.opens + 1 + 2) (toU16 c.depth)) bf

/-- Two BEGINs do not overlap. -/
def Apart (b c : ℕ) : Prop := b + 9 ≤ c ∨ c + 9 ≤ b

section Closings

variable {bf : Bytefile} {visited : List ℤ} {l : List (ℕ × InstructionType)} {o : ℕ} {m : ℤ}
  {begins : List ℕ}

/-- BEGIN and CBEGIN take nine bytes. -/
theorem generalByterun_opens {nxt : ℕ} {type : InstructionType}
    (h : generalByterun bf o = .ok (nxt, type)) (htype : OpensFunction type)
    (hlt : (o : ℤ) < bf.codeSize) : nxt = o + 9 := by
  have hbound := bf.codeSize_lt
  have htypeAt := (generalByterun_typeAt h).1
  rw [generalByterun, htypeAt, except_ok_bind] at h
  rcases htype with rfl | rfl <;>
  · have hnext := (Prod.mk.inj (except_pure_ok.mp h)).1
    rw [← hnext]
    unfold toU32
    omega

/-- Later offsets of a linear decode. -/
theorem Linear.le (h : Linear bf o l) : ∀ a ∈ l, o ≤ a.1 := by
  induction h with
  | closed => exact fun _ ha => nomatch ha
  | next _ _ hlt _ ih =>
    intro a ha
    rcases List.mem_cons.mp ha with rfl | ha
    · exact Nat.le_refl _
    · have := ih a ha
      omega

theorem Linear.sorted (h : Linear bf o l) : (l.map Prod.fst).Pairwise (· < ·) := by
  induction h with
  | closed => exact .nil
  | next _ _ hlt hrest ih =>
    refine List.pairwise_cons.mpr ⟨fun x hx => ?_, ih⟩
    obtain ⟨a, ha, rfl⟩ := List.mem_map.mp hx
    exact Nat.lt_of_lt_of_le hlt (hrest.le a ha)

theorem Linear.typeAt (h : Linear bf o l) : ∀ a ∈ l, bf.typeAt a.1 = .ok a.2 := by
  induction h with
  | closed => exact fun _ ha => nomatch ha
  | next _ hdec _ _ ih =>
    intro a ha
    rcases List.mem_cons.mp ha with rfl | ha
    · exact (generalByterun_typeAt hdec).1
    · exact ih a ha

/-- A BEGIN and another instruction do not overlap. -/
theorem Linear.apart (hsize : 0 ≤ bf.codeSize) (h : Linear bf o l) : ∀ {a b : ℕ × InstructionType},
    a ∈ l → b ∈ l → OpensFunction a.2 → a.1 < b.1 → a.1 + 9 ≤ b.1 := by
  induction h with
  | closed => exact fun ha => nomatch ha
  | @next o nxt type l hat hdec hlt hrest ih =>
    intro a b ha hb hopens hab
    rcases List.mem_cons.mp ha with rfl | ha
    · rcases List.mem_cons.mp hb with rfl | hb
      · exact absurd hab (Nat.lt_irrefl _)
      · have hnine := generalByterun_opens hdec hopens (hat.lt_codeSize hsize)
        have hle := hrest.le b hb
        dsimp only
        omega
    · rcases List.mem_cons.mp hb with rfl | hb
      · have hle := hrest.le a ha
        dsimp only at hab
        omega
      · exact ih ha hb hopens hab

/-- Each BEGIN is closed at most once, and only a marked one. -/
theorem closings_apart (hsize : 0 ≤ bf.codeSize) (hl : Linear bf o l) :
    ∀ (m : ℤ) (begins : List ℕ), begins.Pairwise Apart → (∀ b ∈ begins, b + 9 ≤ o) →
      ((closings visited m begins l).map Closing.opens).Pairwise Apart ∧
        ∀ c ∈ closings visited m begins l, c.opens ∈ begins ∨
          ∃ type, (c.opens, type) ∈ l ∧ OpensFunction type ∧ visited.getD c.opens (-1) ≠ -1 := by
  induction hl with
  | closed => exact fun _ _ _ _ => ⟨.nil, fun _ hc => nomatch hc⟩
  | @next o nxt type l hat hdec hlt hrest ih =>
    intro m begins hpair hbefore
    have hlater : ∀ b ∈ begins, b + 9 ≤ nxt := fun b hb => by
      have := hbefore b hb
      omega
    have hkeep : ∀ {cs : List Closing} {bs : List ℕ}, (∀ c ∈ cs, c.opens ∈ bs ∨
        ∃ type, (c.opens, type) ∈ l ∧ OpensFunction type ∧ visited.getD c.opens (-1) ≠ -1) →
        ∀ c ∈ cs, c.opens ∈ bs ∨ ∃ t, (c.opens, t) ∈ (o, type) :: l ∧ OpensFunction t ∧
          visited.getD c.opens (-1) ≠ -1 := by
      intro cs bs h c hc
      exact (h c hc).imp id fun ⟨t, hmem, ht⟩ => ⟨t, List.mem_cons_of_mem _ hmem, ht⟩
    rw [closings]
    split
    · obtain ⟨hp, hmem⟩ := ih m begins hpair hlater
      exact ⟨hp, hkeep hmem⟩
    · rename_i hmarked
      split
      · cases begins with
        | nil =>
          obtain ⟨hp, hmem⟩ := ih (-1) [] hpair hlater
          exact ⟨hp, hkeep hmem⟩
        | cons b begins =>
          obtain ⟨hb, hpair⟩ := List.pairwise_cons.mp hpair
          obtain ⟨hp, hmem⟩ := ih (-1) begins hpair fun c hc => hlater c (List.mem_cons_of_mem b hc)
          refine ⟨List.pairwise_cons.mpr ⟨fun x hx => ?_, hp⟩, fun c hc => ?_⟩
          · obtain ⟨c, hc, rfl⟩ := List.mem_map.mp hx
            rcases hmem c hc with hc | ⟨t, hc, -⟩
            · exact hb _ hc
            · have hle := hrest.le _ hc
              have hb := hlater b List.mem_cons_self
              exact .inl (Nat.le_trans hb hle)
          · rcases List.mem_cons.mp hc with rfl | hc
            · exact .inl List.mem_cons_self
            · exact (hkeep hmem c hc).imp (List.mem_cons_of_mem b) id
      · split
        · rename_i hopens
          have hnine := generalByterun_opens hdec hopens (hat.lt_codeSize hsize)
          obtain ⟨hp, hmem⟩ := ih (max m (visited.getD o (-1))) (o :: begins)
            (List.pairwise_cons.mpr ⟨fun b hb => .inr (hbefore b hb), hpair⟩)
            (fun b hb => by
              rcases List.mem_cons.mp hb with rfl | hb
              · omega
              · exact hlater b hb)
          refine ⟨hp, fun c hc => ?_⟩
          rcases hkeep hmem c hc with hc | hc
          · rcases List.mem_cons.mp hc with hc | hc
            · exact .inr ⟨type, by rw [hc]; exact List.mem_cons_self, hopens, by rw [hc]; exact hmarked⟩
            · exact .inl hc
          · exact .inr hc
        · obtain ⟨hp, hmem⟩ := ih (max m (visited.getD o (-1))) begins hpair hlater
          exact ⟨hp, hkeep hmem⟩

/-! ### The pass -/

theorem patched_cons (bf : Bytefile) (c : Closing) (cs : List Closing) :
    patched bf (c :: cs) = patched (bf.setCode16 (c.opens + 1 + 2) (toU16 c.depth)) cs := rfl

/-- A word behind another BEGIN stays. -/
theorem code16_setCode16 {b c : ℕ} {v : ℕ} (h : Apart b c) (h0 : 0 ≤ bf.codePtr + ((b : ℤ) + 1 + 2)) :
    (bf.setCode16 (b + 1 + 2) v).code16 (c + 1 + 2) = bf.code16 (c + 1 + 2) := by
  have hcode : ∀ k : ℤ, k = (c : ℤ) + 1 + 2 ∨ k = (c : ℤ) + 1 + 2 + 1 →
      (bf.setCode16 (b + 1 + 2) v).byte (bf.codePtr + k) = bf.byte (bf.codePtr + k) := by
    intro k hk
    refine setCode16_byte h0 ?_ ?_ <;> rcases h with h | h <;> omega
  have hlow := hcode _ (.inl rfl)
  have hhigh := hcode _ (.inr rfl)
  rw [← Int.add_assoc] at hhigh
  show (bf.setCode16 (b + 1 + 2) v).uint16 (bf.codePtr + _) = bf.uint16 _
  rw [Bytefile.uint16, Bytefile.uint16, hlow, hhigh]

/-- The pass has come to `o`: from there on the code is as it was, and the functions it has opened lie
    before. -/
structure Ahead (bf : Bytefile) (o : ℕ) (st : Sweep) : Prop where
  symbolOffset : st.symbolOffset = o
  agree : Agree o bf st.bf
  before : ∀ b ∈ st.beginOffsets, b + 9 ≤ o

section Ahead

variable {st st' : Sweep} {nxt : ℕ} {type : InstructionType}

theorem Ahead.inLoop (h : Ahead bf o st) : InLoop st ↔ AtInstruction bf o := by
  rw [InLoop, h.symbolOffset]
  exact h.agree.atInstruction

theorem Ahead.generalByterun (h : Ahead bf o st) :
    generalByterun st.bf st.symbolOffset = generalByterun bf o := by
  rw [h.symbolOffset, h.agree.generalByterun]

/-- A turn leads to the next instruction. -/
theorem Ahead.step (hsize : 0 ≤ bf.codeSize) (h : Ahead bf o st) (hat : AtInstruction bf o)
    (hdec : LamaSM.generalByterun bf o = .ok (nxt, type)) (hlt : o < nxt)
    (hstep : SweepStep visited st st') : Ahead bf nxt st' := by
  obtain ⟨nxt', type', hdec', v, -, hmove⟩ := sweepInstruction_ok hstep
  rw [h.generalByterun, hdec] at hdec'
  cases hdec'
  have hlater : ∀ b ∈ st.beginOffsets, b + 9 ≤ nxt := fun b hb =>
    Nat.le_trans (h.before b hb) (Nat.le_of_lt hlt)
  have hagree : Agree nxt bf st.bf := h.agree.mono (by omega)
  rcases hmove with ⟨-, rfl⟩ | ⟨-, w, hchecks, rfl⟩
  · exact ⟨rfl, hagree, hlater⟩
  · have hchecked := sweepChecks_ok hchecks
    refine ⟨rfl, ?_, fun b hb => ?_⟩
    · rcases hchecked.bf with hbf | ⟨b, hb, v, h0, hbf⟩
      · show Agree nxt bf w.bf
        rw [hbf]
        exact hagree
      · show Agree nxt bf w.bf
        rw [hbf]
        refine ⟨hagree.codeSize, hagree.codePtr, fun k hk => ?_⟩
        have := hlater b hb
        rw [setCode16_code h0 (by omega) (by omega)]
        exact hagree.code k hk
    · rcases hchecked.begins b hb with hb | ⟨hopens, rfl⟩
      · exact hlater b hb
      · have hnine := generalByterun_opens hdec hopens (hat.lt_codeSize hsize)
        show st.symbolOffset + 9 ≤ nxt
        exact Nat.le_of_eq (by rw [h.symbolOffset, hnine])

end Ahead

/-- A pass that returns and never meets a CLOSURE that leads backwards has a linear decode. -/
theorem linear_of_forward (hsize : 0 ≤ bf.codeSize) {fuel : ℕ} {st st' : Sweep}
    (hok : sweepLoop visited fuel st = .ok st') (h : Ahead bf o st)
    (hforward : ∀ u, Run (SweepStep visited) InLoop st u → InLoop u → Forward u) :
    ∃ l, Linear bf o l := by
  induction fuel generalizing st o with
  | zero => cases hok
  | succ fuel ih =>
    rcases sweepLoop_ok hok with ⟨hout, -⟩ | ⟨hin, u, hstep, hok⟩
    · exact ⟨[], .closed fun hat => hout (h.inLoop.mpr hat)⟩
    · have hat := h.inLoop.mp hin
      obtain ⟨nxt, type, hdec, -⟩ := sweepInstruction_ok hstep
      have hbound := bf.codeSize_lt
      have hlt := hat.lt_codeSize hsize
      have hnext := generalByterun_lt (by rw [h.symbolOffset]; omega) (hforward st (Run.refl st) hin) hdec
      rw [h.generalByterun] at hdec
      rw [h.symbolOffset] at hnext
      obtain ⟨l, hl⟩ := ih hok (h.step hsize hat hdec hnext hstep)
        fun w hw => hforward w ((Run.single hin hstep).trans hw)
      exact ⟨(o, type) :: l, .next hat hdec hnext hl⟩

/-- The second pass writes what `closings` says, each word where a zero was. -/
theorem sweepLoop_closings (hsize : 0 ≤ bf.codeSize) (hl : Linear bf o l) :
    ∀ {fuel : ℕ} {st st' : Sweep}, sweepLoop visited fuel st = .ok st' → Ahead bf o st →
      st.beginOffsets.Pairwise Apart →
        st'.bf = patched st.bf (closings visited st.maxStack st.beginOffsets l) ∧
          ∀ c ∈ closings visited st.maxStack st.beginOffsets l,
            st.bf.code16 (c.opens + 1 + 2) = .ok 0 := by
  induction hl with
  | closed hends =>
    intro fuel st st' hok h _
    cases fuel with
    | zero => cases hok
    | succ fuel =>
      rcases sweepLoop_ok hok with ⟨-, rfl⟩ | ⟨hin, -⟩
      · exact ⟨rfl, fun _ hc => nomatch hc⟩
      · exact absurd (h.inLoop.mp hin) hends
  | @next o nxt type l hat hdec hlt hrest ih =>
    intro fuel st st' hok h hpair
    cases fuel with
    | zero => cases hok
    | succ fuel =>
      rcases sweepLoop_ok hok with ⟨hout, -⟩ | ⟨-, u, hstep, hok⟩
      · exact absurd (h.inLoop.mpr hat) hout
      have hu := h.step hsize hat hdec hlt hstep
      obtain ⟨nxt', type', hdec', v, hv, hmove⟩ := sweepInstruction_ok hstep
      rw [h.generalByterun, hdec] at hdec'
      cases hdec'
      have hget : visited.getD o (-1) = v := by
        rw [List.getD_eq_getElem?_getD, ← h.symbolOffset, hv]
        rfl
      rw [closings, hget]
      rcases hmove with ⟨rfl, rfl⟩ | ⟨hmarked, w, hchecks, rfl⟩
      · rw [if_pos rfl]
        have hrec := ih hok hu hpair
        exact hrec
      · rw [if_neg hmarked]
        cases sweepChecks_checking hchecks with
        | @close _ b rest hback hzero =>
          have h0 := code16_range hzero
          rw [show st.beginOffsets = b :: rest from hback] at hpair ⊢
          obtain ⟨hb, hpair⟩ := List.pairwise_cons.mp hpair
          have hbefore : b + 9 ≤ nxt := by
            have := h.before b (by rw [hback]; exact List.mem_cons_self)
            omega
          obtain ⟨hbf, hall⟩ := ih hok hu hpair
          rw [if_pos rfl]
          refine ⟨hbf, fun c hc => ?_⟩
          rcases List.mem_cons.mp hc with rfl | hc
          · exact hzero
          · have hapart : Apart b c.opens := by
              rcases (closings_apart hsize hrest _ _ hpair hu.before).2 c hc with hmem | ⟨t, hmem, -⟩
              · exact hb _ hmem
              · exact .inl (Nat.le_trans hbefore (hrest.le _ hmem))
            exact (code16_setCode16 hapart h0).symm.trans (hall c hc)
        | enter hopens =>
          have hne : type ≠ .end := by rintro rfl; simp at hopens
          have hopens : OpensFunction type := hopens
          rw [if_neg hne, if_pos hopens, ← h.symbolOffset]
          refine ih hok hu (List.pairwise_cons.mpr ⟨fun b hb => ?_, hpair⟩)
          exact .inr (h.symbolOffset ▸ h.before b hb)
        | same hend hbegin hcbegin =>
          have hne : ¬ OpensFunction type := fun h => h.elim hbegin hcbegin
          rw [if_neg hend, if_neg hne]
          have hrec := ih hok hu hpair
          exact hrec

end Closings

/-! ### The file afterwards -/

/-- The words to write lie apart, and each is zero. -/
structure Unwritten (bf : Bytefile) (cs : List Closing) : Prop where
  apart : (cs.map Closing.opens).Pairwise Apart
  zero : ∀ c ∈ cs, bf.code16 (c.opens + 1 + 2) = .ok 0

/-- The file with zeros in the upper half of the first operand of these BEGINs. -/
def cleared (bf : Bytefile) (bs : List ℕ) : Bytefile :=
  bs.foldl (fun bf (b : ℕ) => bf.setCode16 (b + 1 + 2) 0) bf

section Patched

variable {bf : Bytefile} {cs : List Closing}

theorem Unwritten.tail {c : Closing} (h : Unwritten bf (c :: cs)) :
    Unwritten (bf.setCode16 (c.opens + 1 + 2) (toU16 c.depth)) cs := by
  obtain ⟨hc, hpair⟩ := List.pairwise_cons.mp h.apart
  refine ⟨hpair, fun d hd => ?_⟩
  rw [code16_setCode16 (hc _ (List.mem_map_of_mem hd)) (code16_range (h.zero c List.mem_cons_self))]
  exact h.zero d (List.mem_cons_of_mem c hd)

theorem Apart.symm {b c : ℕ} (h : Apart b c) : Apart c b := Or.symm h

theorem Unwritten.of_ne (h : Unwritten bf cs) {c d : Closing} (hc : c ∈ cs) (hd : d ∈ cs) (hdc : d ≠ c) :
    Apart c.opens d.opens := by
  have hsymm : Std.Symm fun c d : Closing => Apart c.opens d.opens := ⟨fun _ _ => Apart.symm⟩
  exact (List.pairwise_map.mp h.apart).forall hc hd hdc.symm

/-- All other bytes stay. -/
theorem patched_byte : ∀ {cs : List Closing} {bf : Bytefile}, Unwritten bf cs → ∀ {j : ℤ},
    (∀ c ∈ cs, j ≠ bf.codePtr + (c.opens + 1 + 2) ∧ j ≠ bf.codePtr + (c.opens + 1 + 2) + 1) →
      (patched bf cs).byte j = bf.byte j
  | [], _, _, _, _ => rfl
  | c :: cs, bf, h, j, hj => by
    obtain ⟨hlow, hhigh⟩ := hj c List.mem_cons_self
    rw [patched_cons, patched_byte h.tail fun d hd => hj d (List.mem_cons_of_mem c hd)]
    exact setCode16_byte (code16_range (h.zero c List.mem_cons_self)) hlow hhigh

theorem patched_codePtr : ∀ (cs : List Closing) (bf : Bytefile), (patched bf cs).codePtr = bf.codePtr
  | [], _ => rfl
  | _ :: cs, _ => patched_codePtr cs _

theorem patched_codeSize : ∀ (cs : List Closing) (bf : Bytefile), (patched bf cs).codeSize = bf.codeSize
  | [], _ => rfl
  | _ :: cs, _ => patched_codeSize cs _

theorem patched_code {k : ℤ} (h : Unwritten bf cs)
    (hk : ∀ c ∈ cs, k ≠ c.opens + 1 + 2 ∧ k ≠ c.opens + 1 + 2 + 1) :
    (patched bf cs).code k = bf.code k := by
  rw [Bytefile.code, patched_codePtr]
  refine patched_byte h fun c hc => ?_
  obtain ⟨h0, h1⟩ := hk c hc
  omega

/-- The depth of each function is behind its BEGIN. -/
theorem patched_written : ∀ {cs : List Closing} {bf : Bytefile}, Unwritten bf cs → ∀ c ∈ cs,
    (patched bf cs).code (c.opens + 1 + 2) = .ok (toU16 c.depth % 2 ^ 8) ∧
      (patched bf cs).code (c.opens + 1 + 2 + 1) = .ok (toU16 c.depth / 2 ^ 8 % 2 ^ 8)
  | [], _, _, _, hc => nomatch hc
  | d :: cs, bf, h, c, hc => by
    rw [patched_cons]
    rcases List.mem_cons.mp hc with rfl | hc
    · have hapart := (List.pairwise_cons.mp h.apart).1
      have haside : ∀ e ∈ cs, Apart c.opens e.opens := fun e he => hapart _ (List.mem_map_of_mem he)
      obtain ⟨hlow, hhigh⟩ := setCode16_written (v := toU16 c.depth) (h.zero c List.mem_cons_self)
      rw [patched_code h.tail, patched_code h.tail]
      · exact ⟨hlow, hhigh⟩
      · intro e he
        rcases haside e he with h | h <;> omega
      · intro e he
        rcases haside e he with h | h <;> omega
    · exact patched_written h.tail c hc

/-- A write apart from the others may be made last. -/
theorem patched_setCode16 : ∀ {cs : List Closing} {bf : Bytefile}, Unwritten bf cs → ∀ {b v : ℕ},
    0 ≤ bf.codePtr + ((b : ℤ) + 1 + 2) → (∀ c ∈ cs, Apart b c.opens) →
      (patched bf cs).setCode16 (b + 1 + 2) v = patched (bf.setCode16 (b + 1 + 2) v) cs
  | [], _, _, _, _, _, _ => rfl
  | c :: cs, bf, h, b, v, h0, hb => by
    have hc := hb c List.mem_cons_self
    rw [patched_cons, patched_cons,
      patched_setCode16 h.tail h0 fun d hd => hb d (List.mem_cons_of_mem c hd),
      setCode16_comm (code16_range (h.zero c List.mem_cons_self)) h0]
    rcases hc with h | h <;> omega

/-- Zeroing what was written gives the file back. -/
theorem cleared_patched : ∀ {cs : List Closing} {bf : Bytefile}, Unwritten bf cs →
    cleared (patched bf cs) (cs.map Closing.opens) = bf
  | [], _, _ => rfl
  | c :: cs, bf, h => by
    have hzero := h.zero c List.mem_cons_self
    obtain ⟨hc, -⟩ := List.pairwise_cons.mp h.apart
    have hlast : (patched bf (c :: cs)).setCode16 (c.opens + 1 + 2) 0 = patched bf cs := by
      have h0 : 0 ≤ bf.codePtr + ((c.opens : ℤ) + 1 + 2) := code16_range hzero
      rw [patched_cons, patched_setCode16 h.tail h0 fun d hd => hc _ (List.mem_map_of_mem hd),
        setCode16_undo hzero]
    show cleared ((patched bf (c :: cs)).setCode16 (c.opens + 1 + 2) 0) (cs.map Closing.opens) = bf
    rw [hlast]
    exact cleared_patched ⟨(List.pairwise_cons.mp h.apart).2,
      fun d hd => h.zero d (List.mem_cons_of_mem c hd)⟩

end Patched

theorem ahead_start (bf : Bytefile) : Ahead bf 0 ⟨bf, 0, 0, []⟩ :=
  ⟨rfl, agree_refl 0 bf, fun _ hb => nomatch hb⟩

/-- An accepted file whose second pass meets no CLOSURE that leads backwards is decoded forward. -/
theorem verify_linear {bf bf' : Bytefile} {fuel : ℕ} (hok : verify fuel bf = .ok bf')
    (hforward : ∀ st, SweepReaches bf st → Forward st) : ∃ l, Linear bf 0 l := by
  obtain ⟨visited, hmarks, hok⟩ := except_bind_ok.mp hok
  obtain ⟨st, hsweep, -⟩ := except_bind_ok.mp hok
  have hsize : 0 ≤ bf.codeSize := by
    have := (collectMarksBy_ok List.Perm.refl hmarks).length
    omega
  exact linear_of_forward hsize hsweep (ahead_start bf) fun u hu hin => hforward u ⟨visited, hmarks, hu, hin⟩

/-- Patches behind the header leave the header alone. -/
theorem patched_globalAreaSize : ∀ {bf : Bytefile} (_ : 12 ≤ bf.codePtr) (cs : List Closing),
    (patched bf cs).globalAreaSize = bf.globalAreaSize
  | _, _, [] => rfl
  | _, h, c :: cs => by
    rw [patched_cons, @patched_globalAreaSize (Bytefile.setCode16 _ _ _) h cs,
      setCode16_globalAreaSize (by omega)]

/-- An accepted file that is decoded forward comes out with the depths of its closed functions
    written, where zeros were, and nothing else changed. -/
theorem verify_patched {bf bf' : Bytefile} {fuel : ℕ} {visited : List ℤ}
    {l : List (ℕ × InstructionType)} (hmarks : collectMarks bf = .ok visited)
    (hok : verify fuel bf = .ok bf') (hl : Linear bf 0 l) :
    bf' = patched bf (closings visited 0 [] l) ∧ Unwritten bf (closings visited 0 [] l) := by
  have hsize : 0 ≤ bf.codeSize := by
    have := (collectMarksBy_ok List.Perm.refl hmarks).length
    omega
  rw [verify, hmarks, except_ok_bind] at hok
  obtain ⟨st, hsweep, hbf⟩ := except_bind_ok.mp hok
  obtain ⟨hpatched, hzero⟩ := sweepLoop_closings hsize hl hsweep (ahead_start bf) .nil
  exact ⟨(except_pure_ok.mp hbf).symm.trans hpatched,
    (closings_apart hsize hl _ _ .nil fun _ hb => by cases hb).1, hzero⟩

end LamaSM
