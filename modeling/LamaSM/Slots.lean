import LamaSM.Acceptance
import LamaSM.Rewrites
import LamaSM.Variables

/-! Which slots the instructions of an accepted file touch.

    `verify` looks a variable up in the BEGIN its second pass has opened last (`Encloses`), a run in the
    activation it is in. Beside the state a run keeps here the BEGINs each activation has executed. When
    these are the same functions and calls pass the arguments declared (`Foreseen`), an accepted file
    touches the locals, arguments and globals there are. Captured variables it touches unchecked, and
    all globals when `global_area_size` is negative, since it is compared unsigned. -/

namespace LamaSM
open Lib

/-! ### The function an instruction is checked in -/

/-- `collect_marks` comes to the offset. -/
def Reached (bf : Bytefile) (o : ℕ) : Prop := ∃ d, DepthReach bf (o, d)

/-- Over instructions from `o` on, the BEGINs opened and not closed become `bs'` where they were `bs`.
    Only instructions reached count. -/
inductive Opening (bf : Bytefile) : ℕ → List ℕ → List Instruction → List ℕ → Prop
  | nil {o : ℕ} {bs : List ℕ} : Opening bf o bs [] bs
  | skip {o : ℕ} {bs bs' : List ℕ} {i : Instruction} {is : List Instruction}
      (unreached : ¬ Reached bf o) (rest : Opening bf (o + i.length) bs is bs') :
      Opening bf o bs (i :: is) bs'
  | opens {o : ℕ} {bs bs' : List ℕ} {i : Instruction} {is : List Instruction}
      (reached : Reached bf o) (type : OpensFunction i.type)
      (rest : Opening bf (o + i.length) (o :: bs) is bs') : Opening bf o bs (i :: is) bs'
  | closes {o : ℕ} {bs bs' : List ℕ} {i : Instruction} {is : List Instruction}
      (reached : Reached bf o) (type : i.type = .end) (rest : Opening bf (o + i.length) bs.tail is bs') :
      Opening bf o bs (i :: is) bs'
  | stays {o : ℕ} {bs bs' : List ℕ} {i : Instruction} {is : List Instruction}
      (reached : Reached bf o) (not_opens : ¬ OpensFunction i.type) (not_end : i.type ≠ .end)
      (rest : Opening bf (o + i.length) bs is bs') : Opening bf o bs (i :: is) bs'

/-- `o` starts an instruction of the linear decode that is reached, and the BEGIN at `b` is the last one
    open there. -/
def Encloses (bf : Bytefile) (o b : ℕ) : Prop :=
  ∃ pre i post bs, Decodes bf 0 (pre ++ i :: post) ∧ o = finish 0 pre ∧ Reached bf o ∧
    Opening bf 0 [] pre (b :: bs)

section Opening

variable {bf bf' : Bytefile} {o : ℕ} {bs bs' : List ℕ} {i : Instruction} {pre is : List Instruction}
  {visited : List ℤ}

/-- An open BEGIN is an instruction of the decode. -/
theorem Opening.mem (h : Opening bf o bs is bs') : ∀ b ∈ bs', b ∈ bs ∨
    ∃ pre j post, is = pre ++ j :: post ∧ b = finish o pre ∧ OpensFunction j.type := by
  induction h with
  | nil => exact fun b hb => .inl hb
  | skip _ _ ih | stays _ _ _ _ ih =>
    intro b hb
    rcases ih b hb with hb | ⟨pre, j, post, rfl, rfl, htype⟩
    · exact .inl hb
    · exact .inr ⟨_ :: pre, j, post, rfl, rfl, htype⟩
  | @opens o bs bs' i is _ htype _ ih =>
    intro b hb
    rcases ih b hb with hb | ⟨pre, j, post, rfl, rfl, htype'⟩
    · rcases List.mem_cons.mp hb with rfl | hb
      · exact .inr ⟨[], i, is, rfl, rfl, htype⟩
      · exact .inl hb
    · exact .inr ⟨_ :: pre, j, post, rfl, rfl, htype'⟩
  | closes _ _ _ ih =>
    intro b hb
    rcases ih b hb with hb | ⟨pre, j, post, rfl, rfl, htype⟩
    · exact .inl (List.mem_of_mem_tail hb)
    · exact .inr ⟨_ :: pre, j, post, rfl, rfl, htype⟩

/-- The decode behind the first instructions. -/
theorem Decodes.drop : ∀ {pre : List Instruction} {o : ℕ}, Decodes bf o (pre ++ is) →
    Decodes bf (finish o pre) is
  | [], _, h => h
  | _ :: _, _, h => h.tail.drop

/-- An instruction of the decode and what `verify` leaves of it. -/
theorem RewrittenAll.at {post : List Instruction} : ∀ {pre all : List Instruction} {o : ℕ},
    RewrittenAll visited o (pre ++ i :: post) all → Decodes bf' o all →
      ∃ i', Placed bf' (finish o pre) i'.encode ∧ Rewritten visited (finish o pre) i i'
  | [], _, _, .cons head _, hdec => ⟨_, hdec.head.1, head⟩
  | j :: pre, _, _, .cons head tail, hdec => by
    have hrest := hdec.tail
    rw [head.length_eq] at hrest
    exact tail.at hrest

/-- The pass has come to `o`, with the BEGINs `bs` open; each of them still reads as in the file. -/
structure Comes (bf : Bytefile) (o : ℕ) (bs : List ℕ) (st : Sweep) : Prop where
  ahead : Ahead bf o st
  begins : st.beginOffsets = bs
  apart : bs.Pairwise Apart
  kept : ∀ b ∈ bs, ∀ k : ℤ, (b : ℤ) ≤ k → k < b + 9 → st.bf.code k = bf.code k
  globals : st.bf.globalAreaSize = bf.globalAreaSize

theorem MarksExact.reached (hv : MarksExact bf visited) {v : ℤ} (h : visited[o]? = some v) :
    Reached bf o ↔ v ≠ -1 := by
  constructor
  · rintro ⟨d, hd⟩ rfl
    obtain ⟨hget, hne⟩ := (hv.marked o d).mpr hd
    rw [h] at hget
    exact hne (Option.some.inj hget).symm
  · exact fun hne => ⟨v, (hv.marked o v).mp ⟨h, hne⟩⟩

/-- A turn opens and closes as `Opening` says. -/
theorem Comes.step {st st' : Sweep} {bs'' : List ℕ} (hbehind : 12 ≤ bf.codePtr) (hv : MarksExact bf visited)
    (hst : Comes bf o bs st) (hplaced : Placed bf o i.encode) (hin : (o : ℤ) + i.length ≤ bf.codeSize)
    (hstep : SweepStep visited st st') (hopening : Opening bf o bs (i :: is) bs'') :
    ∃ bs', Opening bf (o + i.length) bs' is bs'' ∧ Comes bf (o + i.length) bs' st' := by
  have hsize := bf.codeSize_lt
  have hpos := i.length_pos
  have hdec := Instruction.generalByterun_eq hplaced (by omega)
  have hat : AtInstruction bf o := ⟨by unfold toU32; omega, _, hplaced.1, i.opcode_ne⟩
  have hahead := hst.ahead.step (by omega) hat hdec (by omega) hstep
  obtain ⟨nxt, type, hdec', v, hget, hmove⟩ := sweepInstruction_ok hstep
  rw [hst.ahead.generalByterun, hdec] at hdec'
  cases hdec'
  rw [hst.ahead.symbolOffset] at hget
  have hreached := hv.reached hget
  rcases hmove with ⟨hunmarked, rfl⟩ | ⟨hmarked, u, hchecks, rfl⟩
  · have hnot : ¬ Reached bf o := fun h => hreached.mp h hunmarked
    cases hopening with
    | skip _ rest => exact ⟨bs, rest, hahead, hst.begins, hst.apart, hst.kept, hst.globals⟩
    | opens reached => exact absurd reached hnot
    | closes reached => exact absurd reached hnot
    | stays reached => exact absurd reached hnot
  · have hmarked := hreached.mpr hmarked
    have hbegins := hst.begins
    have hchecking := sweepChecks_checking hchecks
    cases hopening with
    | skip unreached => exact absurd hmarked unreached
    | opens _ htype rest =>
      refine ⟨o :: bs, rest, ?_⟩
      generalize i.type = type at hchecking htype
      cases hchecking with
      | close => rcases htype with h | h <;> cases h
      | same _ hbegin hcbegin => exact absurd htype fun h => h.elim hbegin hcbegin
      | enter =>
        refine ⟨hahead, ?_, List.pairwise_cons.mpr ⟨fun b hb => ?_, hst.apart⟩, fun b hb k h0 h9 => ?_,
          hst.globals⟩
        · show st.symbolOffset :: st.beginOffsets = o :: bs
          rw [hst.ahead.symbolOffset, hbegins]
        · exact .inr (hst.ahead.before b (hbegins ▸ hb))
        · rcases List.mem_cons.mp hb with rfl | hb
          · exact hst.ahead.agree.code k h0
          · exact hst.kept b hb k h0 h9
    | closes _ htype rest =>
      refine ⟨bs.tail, rest, ?_⟩
      generalize i.type = type at hchecking htype
      cases hchecking with
      | enter htype' =>
        rw [htype] at htype'
        rcases htype' with h | h <;> cases h
      | same hend => exact absurd htype hend
      | @close _ b rest hback hzero =>
        have hbs : bs = b :: rest := hbegins.symm.trans hback
        have hapart := hst.apart
        rw [hbs] at hapart ⊢
        obtain ⟨hb, hrest⟩ := List.pairwise_cons.mp hapart
        have hptr := hst.ahead.agree.codePtr
        have hglobals : (st.bf.setCode16 ((b : ℤ) + 1 + 2) (toU16 (max st.maxStack v))).globalAreaSize =
            bf.globalAreaSize := (setCode16_globalAreaSize (by omega)).trans hst.globals
        refine ⟨hahead, rfl, hrest, fun c hc k h0 h9 => ?_, hglobals⟩
        have hcb := hb c hc
        have hkeep := hst.kept c (hbs ▸ List.mem_cons_of_mem b hc) k h0 h9
        refine (setCode16_code (code16_range hzero) ?_ ?_).trans hkeep <;> rcases hcb with h | h <;> omega
    | stays _ hopens hend rest =>
      refine ⟨bs, rest, ?_⟩
      generalize i.type = type at hchecking hopens hend
      cases hchecking with
      | close => exact absurd rfl hend
      | enter htype => exact absurd htype hopens
      | same => exact ⟨hahead, hbegins, hst.apart, hst.kept, hst.globals⟩

/-- A pass that accepts comes to every instruction of the decode. -/
theorem Comes.walk {st' : Sweep} {post : List Instruction} (hbehind : 12 ≤ bf.codePtr)
    (hv : MarksExact bf visited) :
    ∀ (pre : List Instruction) {o fuel : ℕ} {bs : List ℕ} {st : Sweep}, Decodes bf o (pre ++ i :: post) →
      Opening bf o bs pre bs' → Comes bf o bs st → sweepLoop visited fuel st = .ok st' →
      ∃ u u', Comes bf (finish o pre) bs' u ∧ SweepStep visited u u'
  | [], o, fuel, bs, st, hdec, hopening, hst, hok => by
    cases hopening
    obtain ⟨hplaced, hin⟩ := hdec.head
    have hsize := bf.codeSize_lt
    have hpos := i.length_pos
    have hat : AtInstruction bf o := ⟨by unfold toU32; omega, _, hplaced.1, i.opcode_ne⟩
    cases fuel with
    | zero => cases hok
    | succ fuel =>
      rcases sweepLoop_ok hok with ⟨hout, -⟩ | ⟨-, u, hstep, -⟩
      · exact absurd (hst.ahead.inLoop.mpr hat) hout
      · exact ⟨st, u, hst, hstep⟩
  | j :: pre, o, fuel, bs, st, hdec, hopening, hst, hok => by
    obtain ⟨hplaced, hin⟩ := hdec.head
    have hsize := bf.codeSize_lt
    have hpos := j.length_pos
    have hat : AtInstruction bf o := ⟨by unfold toU32; omega, _, hplaced.1, j.opcode_ne⟩
    cases fuel with
    | zero => cases hok
    | succ fuel =>
      rcases sweepLoop_ok hok with ⟨hout, -⟩ | ⟨-, u, hstep, hok⟩
      · exact absurd (hst.ahead.inLoop.mpr hat) hout
      · obtain ⟨bs₁, hrest, hu⟩ := hst.step hbehind hv hplaced hin hstep hopening
        exact Comes.walk hbehind hv pre hdec.tail hrest hu hok

end Opening

/-! ### The variables of an instruction -/

/-- The variables an instruction designates. -/
def Instruction.designations (i : Instruction) : List Designation :=
  match i.type with
  | .ld | .st | .lda => [⟨MemVar.ofByte (lowBits i.opcode.toNat), (i.args.getD 0 0).toNat⟩]
  | .closure => i.captures.map fun c => ⟨MemVar.ofByte c.1.toNat, c.2.toNat⟩
  | _ => []

section Validated

variable {bf bf' : Bytefile} {o b nArgs nLocals : ℕ} {i : Instruction} {d : Designation} {st u : Sweep}
  {type : InstructionType}

theorem designates_iff {a : ℤ} (h : Placed bf a i.encode) : Designates bf a d ↔ d ∈ i.designations := by
  have htype := Instruction.typeAt h
  have hlow := Instruction.lowBitsAt h
  constructor
  · rintro (⟨htype', haccess, hlow', hindex⟩ | ⟨htype', hcount, hk, hd⟩)
    · obtain rfl := Except.ok.inj (htype.symm.trans htype')
      obtain rfl := Except.ok.inj (hlow.symm.trans hlow')
      obtain ⟨x, hx⟩ := i.args_one (by rcases haccess with ht | ht | ht <;> rw [ht] <;> rfl)
      have hindex' := Instruction.operand h (k := 0) (w := x) (by rw [hx]; rfl)
      rw [show a + 1 + 4 * ((0 : ℕ) : ℤ) = a + 1 by omega, hindex] at hindex'
      rw [Except.ok.inj hindex', Instruction.designations]
      rcases haccess with ht | ht | ht <;> rw [ht, hx] <;> exact List.mem_singleton.mpr rfl
    · have ht := Except.ok.inj (htype.symm.trans htype')
      obtain ⟨entry, count, hpair, hlen⟩ := i.closure_args ht
      have hcount' := Instruction.operand h (k := 1) (w := count) (by rw [hpair]; rfl)
      rw [show a + 1 + 4 * ((1 : ℕ) : ℤ) = a + 1 + 4 by omega, hcount] at hcount'
      obtain rfl := Except.ok.inj hcount'
      have hcaptured := Instruction.captured h
      rw [hpair, show a + 1 + 4 * (([entry, count] : List UInt32).length : ℕ) = a + 1 + 4 + 4 by
        simp only [List.length_cons, List.length_nil]; omega] at hcaptured
      rw [← hlen] at hk
      have hget := List.getElem?_eq_getElem hk
      rw [hcaptured.designations hget] at hd
      rw [Instruction.designations, ht, ← Except.ok.inj hd]
      exact List.mem_map_of_mem (List.mem_of_getElem? hget)
  · intro hmem
    rw [Instruction.designations] at hmem
    split at hmem
    case h_1 ht | h_2 ht | h_3 ht =>
      rw [List.mem_singleton.mp hmem]
      obtain ⟨x, hx⟩ := i.args_one (by rw [ht]; rfl)
      have hindex := Instruction.operand h (k := 0) (w := x) (by rw [hx]; rfl)
      rw [show a + 1 + 4 * ((0 : ℕ) : ℤ) = a + 1 by omega] at hindex
      rw [hx]
      exact .operand htype (by rw [ht]; decide) hlow hindex
    case h_4 ht =>
      obtain ⟨c, hc, rfl⟩ := List.mem_map.mp hmem
      obtain ⟨k, hk⟩ := List.mem_iff_getElem?.mp hc
      obtain ⟨entry, count, hpair, hlen⟩ := i.closure_args ht
      have hcount := Instruction.operand h (k := 1) (w := count) (by rw [hpair]; rfl)
      rw [show a + 1 + 4 * ((1 : ℕ) : ℤ) = a + 1 + 4 by omega] at hcount
      have hcaptured := Instruction.captured h
      rw [hpair, show a + 1 + 4 * (([entry, count] : List UInt32).length : ℕ) = a + 1 + 4 + 4 by
        simp only [List.length_cons, List.length_nil]; omega] at hcaptured
      obtain ⟨hlt, -⟩ := List.getElem?_eq_some_iff.mp hk
      exact .capture (ht ▸ htype) hcount (by omega) (hcaptured.designations hk)
    case h_5 => cases hmem

theorem validateDesignations_ok : ∀ {n : ℕ} {ptr : ℤ},
    validateDesignations bf nArgs nLocals n ptr = .ok () → ∀ k < n, ∀ d,
      bf.designation (ptr + 5 * k) = .ok d → validateVariable bf d.memVar d.value nArgs nLocals = .ok ()
  | 0, _, _, k, hk, _, _ => absurd hk (Nat.not_lt_zero k)
  | n + 1, ptr, h, k, hk, d, hd => by
    obtain ⟨d₀, hd₀, h⟩ := except_bind_ok.mp h
    obtain ⟨_, hvalid, h⟩ := except_bind_ok.mp h
    cases k with
    | zero =>
      rw [show ptr + 5 * ((0 : ℕ) : ℤ) = ptr by omega, hd₀] at hd
      cases hd
      exact hvalid
    | succ k =>
      rw [show ptr + 5 * ((k + 1 : ℕ) : ℤ) = ptr + 5 + 5 * k by omega] at hd
      exact validateDesignations_ok h k (Nat.lt_of_succ_lt_succ hk) d hd

/-- The checks of an instruction validate its variables. -/
theorem sweepChecks_validated {rest : List ℕ} (h : sweepChecks type st = .ok u)
    (hback : st.beginOffsets = b :: rest) (hargs : st.bf.code32 (b + 1) = .ok nArgs)
    (hlocals : st.bf.code32 (b + 1 + 4) = .ok nLocals)
    (htype : st.bf.typeAt st.symbolOffset = .ok type) (hd : Designates st.bf st.symbolOffset d) :
    validateVariable st.bf d.memVar d.value nArgs nLocals = .ok () := by
  have hback' : st.back = .ok b := by
    rw [Sweep.back, hback]
    rfl
  cases hd with
  | @operand type' low index htype' haccess hlow hindex =>
    obtain rfl := Except.ok.inj (htype.symm.trans htype')
    have hvalid : sweepChecks .ld st = .ok u := by rcases haccess with rfl | rfl | rfl <;> exact h
    rw [sweepChecks, hback', except_ok_bind, hargs, except_ok_bind, hlocals, except_ok_bind, hindex,
      except_ok_bind, hlow, except_ok_bind] at hvalid
    obtain ⟨⟨⟩, hvalid, -⟩ := except_bind_ok.mp hvalid
    exact hvalid
  | @capture n k _ htype' hcount hk hd =>
    obtain rfl := Except.ok.inj (htype.symm.trans htype')
    rw [sweepChecks, hback', except_ok_bind, hargs, except_ok_bind, hlocals, except_ok_bind, hcount,
      except_ok_bind] at h
    obtain ⟨⟨⟩, hvalid, -⟩ := except_bind_ok.mp h
    exact validateDesignations_ok hvalid k hk d hd

theorem declared_of_validate (hglobals : d.memVar = .global → 0 ≤ bf.globalAreaSize)
    (h : validateVariable bf d.memVar d.value nArgs nLocals = .ok ()) : d.Declared bf nArgs nLocals := by
  unfold Designation.Declared
  cases hvar : d.memVar <;> rw [hvar, validateVariable] at h
  case global =>
    have hnonneg := hglobals hvar
    split at h
    · cases h
    · rename_i hlt
      unfold toU32 at hlt
      show (d.value : ℤ) < bf.globalAreaSize
      omega
  case «local» | argument =>
    split at h
    · cases h
    · rename_i hlt
      exact Nat.lt_of_not_le hlt
  case closure => trivial
  case other => cases h

/-- A variable of an accepted file is declared by the BEGIN that encloses its instruction. -/
theorem Encloses.declared {fuel : ℕ} (hverify : verify fuel bf = .ok bf')
    (hbehind : 12 ≤ bf.codePtr) (h : Encloses bf o b) (hd : Designates bf' o d)
    (hglobals : d.memVar = .global → 0 ≤ bf'.globalAreaSize) :
    ∃ nArgs nLocals, bf.code32 (b + 1) = .ok nArgs ∧ bf'.code32 (b + 1 + 4) = .ok nLocals ∧
      d.Declared bf' nArgs nLocals := by
  obtain ⟨pre, i, post, bs, hdec, rfl, hreached, hopening⟩ := h
  obtain ⟨visited, hmarks, hok⟩ := except_bind_ok.mp hverify
  obtain ⟨st', hsweep, -⟩ := except_bind_ok.mp hok
  have hv : MarksExact bf visited := collectMarksBy_ok List.Perm.refl hmarks
  have hpatched : bf'.globalAreaSize = bf.globalAreaSize := by
    obtain ⟨hbf', hcs⟩ := verify_patched hmarks hverify hdec.linear
    rw [hbf']
    exact patched_globalAreaSize hbehind _
  obtain ⟨all, hdec', hall⟩ := verify_decodes hmarks hverify hdec
  -- the instruction, as the run reads it, is the one laid out
  obtain ⟨i', hplaced', hrewritten⟩ := hall.at hdec'
  have hmem := (designates_iff hplaced').mp hd
  obtain rfl : i' = i := by
    refine hrewritten.only.resolve_right fun h => ?_
    have htype : i'.type = i.type := by rw [Instruction.type, hrewritten.opcode, Instruction.type]
    rw [Instruction.designations, htype] at hmem
    rcases h.1 with ht | ht <;> rw [ht] at hmem <;> cases hmem
  -- the BEGIN, before and after
  obtain ⟨before, j, between, rfl, rfl, hopens⟩ :=
    (hopening.mem b List.mem_cons_self).resolve_left (List.not_mem_nil)
  have hsplit : before ++ j :: between ++ i' :: post = before ++ j :: (between ++ i' :: post) := by simp
  rw [hsplit] at hdec hall
  obtain ⟨j', hj', hrewritten'⟩ := hall.at hdec'
  have hj := hdec.drop.head.1
  obtain ⟨x, y, hxy⟩ := j.args_two (by rcases hopens with h | h <;> rw [h] <;> rfl)
  have hx := Instruction.operand hj (k := 0) (w := x) (by rw [hxy]; rfl)
  have hy := Instruction.operand hj (k := 1) (w := y) (by rw [hxy]; rfl)
  have hy' := Instruction.operand hj' (k := 1) (w := y) (by
    have htail := hrewritten'.operands
    rw [hxy] at htail
    rw [← List.getElem?_tail, htail]
    rfl)
  rw [show ((finish 0 before : ℕ) : ℤ) + 1 + 4 * ((0 : ℕ) : ℤ) = finish 0 before + 1 by omega] at hx
  rw [show ((finish 0 before : ℕ) : ℤ) + 1 + 4 * ((1 : ℕ) : ℤ) = finish 0 before + 1 + 4 by omega] at hy hy'
  refine ⟨x.toNat, y.toNat, hx, hy', ?_⟩
  -- the pass comes to the instruction and validates it
  rw [← hsplit] at hdec
  obtain ⟨u, u', hu, hstep⟩ := Comes.walk hbehind hv _ hdec hopening
    ⟨ahead_start bf, rfl, .nil, fun _ hb => absurd hb List.not_mem_nil, rfl⟩ hsweep
  have hplaced := hdec.drop.head.1
  have hplacedu : Placed u.bf (finish 0 (before ++ j :: between)) i'.encode :=
    placed_congr (fun k hk _ => hu.ahead.agree.code k hk) hplaced
  have hkept : ∀ k : ℤ, ((finish 0 before : ℕ) : ℤ) ≤ k → k + 4 ≤ finish 0 before + 9 →
      u.bf.code32 k = bf.code32 k := fun k h0 h9 =>
    code32_congr fun n hn hn4 => hu.kept _ List.mem_cons_self (k + n) (by omega) (by omega)
  obtain ⟨nxt, type, hgen, v, hget, hmove⟩ := sweepInstruction_ok hstep
  rw [hu.ahead.symbolOffset] at hget
  rcases hmove with ⟨hunmarked, -⟩ | ⟨-, w, hchecks, -⟩
  · exact absurd hunmarked ((hv.reached hget).mp hreached)
  · have htype := (generalByterun_typeAt hgen).1
    have hvalid := sweepChecks_validated (d := d) hchecks hu.begins
      ((hkept _ (by omega) (by omega)).trans hx) ((hkept _ (by omega) (by omega)).trans hy) htype
      (by rw [hu.ahead.symbolOffset]; exact (designates_iff hplacedu).mpr hmem)
    have hdeclared := declared_of_validate (by rw [hu.globals, ← hpatched]; exact hglobals) hvalid
    unfold Designation.Declared at hdeclared ⊢
    dsimp only at hdeclared
    rwa [hpatched, ← hu.globals]

end Validated

/-! ### The slots an instruction touches -/

/-- A captured variable the instruction at `code_ptr` designates is one the running closure has. -/
def CapturesExist (M : Machine) (s : State) : Prop :=
  ∀ d, Designates M.bf s.codePtr d → d.memVar = .closure → InRange M s d.memVar d.value

/-- It designates no global when the number of globals is negative. -/
def GlobalsCounted (M : Machine) (s : State) : Prop :=
  ∀ d, Designates M.bf s.codePtr d → d.memVar = .global → 0 ≤ M.bf.globalAreaSize

/-- Every variable it designates is one of the running activation, or a global there is. -/
def SlotsExist (M : Machine) (s : State) : Prop :=
  ∀ d, Designates M.bf s.codePtr d → InRange M s d.memVar d.value

/-- The BEGINs each activation has executed, the running one first, after an instruction at `pc`. -/
def begunAfter (pc : ℤ) (type : InstructionType) (g : List (List ℤ)) : List (List ℤ) :=
  match type with
  | .begin | .cbegin => match g with
    | [] => []
    | bs :: g => (pc :: bs) :: g
  | .call | .callc => [] :: g
  | .end => g.tail
  | _ => g

/-- A turn, with the BEGINs each activation has executed. -/
structure Begins {M : Machine} (E : Env M) (p q : State × List (List ℤ)) : Prop where
  step : Step E p.1 q.1
  begun : ∀ type, At M p.1 type → q.2 = begunAfter p.1.codePtr type p.2

/-- The verifier has looked at the instruction as it is executed: what encloses a local, argument or
    global is a BEGIN the running activation has executed, and a BEGIN declares no more arguments than
    were passed. -/
structure Foreseen (bf : Bytefile) (M : Machine) (p : State × List (List ℤ)) : Prop where
  enclosed : ∀ d, Designates M.bf p.1.codePtr d → d.memVar ≠ .closure →
    ∃ o b : ℕ, p.1.codePtr = o ∧ Encloses bf o b ∧ (b : ℤ) ∈ p.2.headD []
  arity : ∀ type, At M p.1 type → OpensFunction type → ∀ n, bf.code32 (p.1.codePtr + 1) = .ok n →
    n ≤ p.1.passed

/-- The activation has reserved the locals of each BEGIN it has executed, and was passed its
    arguments. -/
structure Begun (bf bf' : Bytefile) (a : Activation) (bs : List ℤ) : Prop where
  locals : ∀ b ∈ bs, ∀ n, bf'.code32 (b + 1 + 4) = .ok n → n ≤ a.reserved
  arguments : ∀ b ∈ bs, ∀ n, bf.code32 (b + 1) = .ok n → n ≤ a.nargs

section Runs

variable {bf : Bytefile} {M : Machine} {E : Env M} {p q : State × List (List ℤ)}

theorem begun_nil (bf bf' : Bytefile) (a : Activation) : Begun bf bf' a [] :=
  ⟨fun _ hb => absurd hb List.not_mem_nil, fun _ hb => absurd hb List.not_mem_nil⟩

/-- BEGIN reserves its locals on top of those reserved before. -/
theorem Begun.reserve {bf' : Bytefile} {a : Activation} {bs : List ℤ} (h : Begun bf bf' a bs) {pc : ℤ}
    {nLocals : ℕ} (hlocals : bf'.code32 (pc + 1 + 4) = .ok nLocals)
    (hargs : ∀ n, bf.code32 (pc + 1) = .ok n → n ≤ a.nargs) :
    Begun bf bf' { a with reserved := a.reserved + nLocals } (pc :: bs) := by
  constructor
  · intro b hb n hn
    dsimp only
    rcases List.mem_cons.mp hb with rfl | hb
    · obtain rfl := Except.ok.inj (hlocals.symm.trans hn)
      omega
    · have := h.locals b hb n hn
      omega
  · intro b hb n hn
    rcases List.mem_cons.mp hb with rfl | hb
    · exact hargs n hn
    · exact h.arguments b hb n hn

theorem begun_step (h : List.Forall₂ (Begun bf M.bf) p.1.activations p.2) (hg : Foreseen bf M p)
    (hstep : Begins E p q) : List.Forall₂ (Begun bf M.bf) q.1.activations q.2 := by
  obtain ⟨type, hat, hd⟩ := (turn_ok E).mp hstep.step
  have hbegun := hstep.begun type hat
  cases hplain : type.isPlain with
  | true =>
    obtain ⟨-, pc', -, hkeeps, -, -⟩ := (dispatch_plain E type hplain p.1).of_ok rfl hd
    have hsame : begunAfter p.1.codePtr type p.2 = p.2 := by cases type <;> first | rfl | cases hplain
    rw [hkeeps.activations, hbegun, hsame]
    exact h
  | false =>
    have enter : OpensFunction type → List.Forall₂ (Begun bf M.bf) q.1.activations q.2 := by
      intro hopens
      have harity := hg.arity type hat hopens
      obtain ⟨-, arg, nLocals, -, hlocals, -, hq⟩ := begin_ok hopens hd
      have hafter : begunAfter p.1.codePtr type p.2 = begunAfter p.1.codePtr .begin p.2 := by
        rcases hopens with rfl | rfl <;> rfl
      have hact : q.1.activations = Activation.reserve nLocals p.1.activations := by rw [hq]
      unfold State.passed at harity
      rw [hact, hbegun, hafter]
      revert harity h
      generalize p.1.activations = as
      generalize p.2 = g
      intro h harity
      cases h with
      | nil => exact .nil
      | cons hhead htail => exact .cons (hhead.reserve hlocals harity) htail
    cases type
    case «begin» => exact enter (.inl rfl)
    case cbegin => exact enter (.inr rfl)
    case call =>
      obtain ⟨-, target, n, -, -, hp⟩ := call_ok hd
      rw [hp.activations, hbegun]
      exact .cons (begun_nil _ _ _) h
    case callc =>
      obtain ⟨-, n, elem, -, -, -, hp⟩ := callc_ok hd
      rw [hp.activations, hbegun]
      exact .cons (begun_nil _ _ _) h
    case «end» =>
      have hret := end_ok hd
      rw [hret.activations, hbegun]
      show List.Forall₂ _ p.1.activations.tail p.2.tail
      revert h
      generalize p.1.activations = as
      generalize p.2 = g
      intro h
      cases h with
      | nil => exact .nil
      | cons _ htail => exact htail
    all_goals cases hplain

/-- At the start one activation runs, and it has begun nothing. -/
theorem begun_start {s : State} (hstart : Starts E s) : List.Forall₂ (Begun bf M.bf) s.activations [[]] := by
  obtain ⟨_, s₁, hctor, hpush⟩ := exec_bind_ok.mp hstart
  rw [(pushStackFrame_ok hpush).activations, (frameStack_registers hctor).2.2.1]
  exact .cons (begun_nil _ _ _) .nil

/-- A variable of an instruction enclosed by a BEGIN the running activation has executed is there. -/
theorem Encloses.inRange {fuel o b : ℕ} {s : State} {g : List (List ℤ)} {d : Designation}
    (hencloses : Encloses bf o b) (hverify : verify fuel bf = .ok M.bf) (hbehind : 12 ≤ bf.codePtr)
    (hbegun : List.Forall₂ (Begun bf M.bf) s.activations g) (hb : (b : ℤ) ∈ g.headD [])
    (hd : Designates M.bf o d) (hclosure : d.memVar ≠ .closure)
    (hcounted : d.memVar = .global → 0 ≤ M.bf.globalAreaSize) : InRange M s d.memVar d.value := by
  obtain ⟨nArgs, nLocals, hargs, hlocals, hdeclared⟩ :=
    hencloses.declared hverify hbehind hd hcounted
  have hreserved : nLocals ≤ s.reserved ∧ nArgs ≤ s.passed := by
    unfold State.reserved State.passed
    cases hact : s.activations with
    | nil =>
      rw [hact] at hbegun
      cases hbegun
      cases hb
    | cons a as =>
      rw [hact] at hbegun
      cases hbegun with
      | cons hhead _ => exact ⟨hhead.locals _ hb _ hlocals, hhead.arguments _ hb _ hargs⟩
  unfold Designation.Declared at hdeclared
  cases hvar : d.memVar <;> rw [hvar] at hdeclared
  case global => exact hdeclared
  case «local» => exact Nat.lt_of_lt_of_le hdeclared hreserved.1
  case argument => exact Nat.lt_of_lt_of_le hdeclared hreserved.2
  case closure => exact absurd hvar hclosure
  case other => exact hdeclared

/-- In every run of an accepted file whose turns are all foreseen, the instruction about to be executed
    touches slots that exist, exactly as far as the parts go that are not checked: captured variables,
    and globals when their number is negative. -/
theorem slots_exist_iff {fuel : ℕ} (M : Machine) (hverify : verify fuel bf = .ok M.bf)
    (hbehind : 12 ≤ bf.codePtr) (E : Env M) {s₀ s : State} {g : List (List ℤ)}
    (hstart : Starts E s₀) (hrun : Run (Begins E) (Foreseen bf M) (s₀, [[]]) (s, g))
    (hlast : Foreseen bf M (s, g)) : SlotsExist M s ↔ CapturesExist M s ∧ GlobalsCounted M s := by
  constructor
  · intro hslots
    refine ⟨fun d hd _ => hslots d hd, fun d hd hvar => ?_⟩
    have hrange := hslots d hd
    rw [hvar] at hrange
    simp only [InRange] at hrange
    omega
  rintro ⟨hcaptures, hglobals⟩ d hd
  by_cases hclosure : d.memVar = .closure
  · exact hcaptures d hd hclosure
  have hbegun : List.Forall₂ (Begun bf M.bf) s.activations g :=
    Run.invariant (fun p q h hg hstep => begun_step h hg hstep) (begun_start hstart) hrun
  obtain ⟨o, b, ho, hencloses, hb⟩ := hlast.enclosed d hd hclosure
  dsimp only at ho
  have hcounted := hglobals d hd
  rw [ho] at hd
  exact hencloses.inRange hverify hbehind hbegun hb hd hclosure hcounted

end Runs

/-! ### A function that loads its argument -/

/-- `main` passes 7 to a function that returns its argument. -/
def slotFile : Bytefile := .ofMain 0
  [0x52, 0, 0, 0, 0, 0, 0, 0, 0, 0x10, 7, 0, 0, 0, 0x56, 24, 0, 0, 0, 1, 0, 0, 0, 0x16,
    0x52, 1, 0, 0, 0, 0, 0, 0, 0, 0x22, 0, 0, 0, 0, 0x16, 0xFF]

def slotVerified : Bytefile := (slotFile.setCode16 3 1).setCode16 27 1

def slotMachine : Machine := Machine.layout slotVerified stackSize (by decide) stackSize_le

def slotEnv : Env slotMachine := Env.bump slotMachine fun k => BitVec.ofNat 64 (2 ^ 50 + 64 * k)

/-- The state of `slotFile` after `n` turns. -/
def slotState : ℕ → State
  | 0 => startState slotEnv
  | n + 1 => nextState slotEnv (slotState n)

/-- The BEGINs executed by then. -/
def slotBegun : ℕ → List (List ℤ)
  | 0 => [[]]
  | 1 | 2 => [[0]]
  | 3 => [[], [0]]
  | _ => [[24], [0]]

/-- The instructions before the load. -/
def slotInstructions : List Instruction :=
  [beginInstruction, ⟨0x10, [7], [], opcode_known, one_operand, no_capture⟩,
    ⟨0x56, [24, 1], [], opcode_known, two_operands, no_capture⟩, endInstruction,
    ⟨0x52, [1, 0], [], opcode_known, two_operands, no_capture⟩]

/-- The load of argument 0. -/
def slotInstruction : Instruction := ⟨0x22, [0], [], opcode_known, one_operand, no_capture⟩

/-- The depths of `slotFile`. -/
def slotMarks : List ℤ :=
  [0, -1, -1, -1, -1, -1, -1, -1, -1, 0, -1, -1, -1, -1, 1, -1, -1, -1, -1, -1, -1, -1, -1, 1,
    0, -1, -1, -1, -1, -1, -1, -1, -1, 0, -1, -1, -1, -1, 1, -1]

theorem verify_slotFile : verify 20 slotFile = .ok slotMachine.bf := by decide

theorem encloses_slotFile : Encloses slotFile 33 24 := by
  have hmarks : collectMarks slotFile = .ok slotMarks := by decide +kernel
  have hv : MarksExact slotFile slotMarks := collectMarksBy_ok List.Perm.refl hmarks
  have hreached : ∀ {o : ℕ} {v : ℤ}, slotMarks[o]? = some v → v ≠ -1 → Reached slotFile o :=
    fun hget hne => (hv.reached hget).mpr hne
  have hdec : Decodes slotFile 0 (slotInstructions ++ slotInstruction :: [endInstruction]) :=
    ⟨by decide +kernel, .inr ⟨by decide, by decide +kernel⟩⟩
  refine ⟨slotInstructions, slotInstruction, [endInstruction], [], hdec, rfl, hreached rfl (by decide), ?_⟩
  refine .opens (hreached (o := 0) rfl (by decide)) (.inl rfl) ?_
  refine .stays (hreached (o := 9) rfl (by decide)) (by decide) (by decide) ?_
  refine .stays (hreached (o := 14) rfl (by decide)) (by decide) (by decide) ?_
  refine .closes (hreached (o := 23) rfl (by decide)) rfl ?_
  exact .opens (hreached (o := 24) rfl (by decide)) (.inl rfl) .nil

/-- An instruction that designates a variable loads or stores one or takes its address, or makes a
    closure. -/
theorem Designates.type {bf : Bytefile} {o : ℤ} {d : Designation} (h : Designates bf o d) :
    ∃ type, bf.typeAt o = .ok type ∧ type ∈ [InstructionType.ld, .st, .lda, .closure] := by
  cases h with
  | operand htype haccess =>
    refine ⟨_, htype, ?_⟩
    rcases haccess with rfl | rfl | rfl <;> decide
  | capture htype => exact ⟨_, htype, by decide⟩

theorem begins_slotFile : ∀ n < 4, Begins slotEnv (slotState n, slotBegun n) (slotState (n + 1), slotBegun (n + 1)) := by
  have hturns : ∀ n < 4, turnResult slotEnv (slotState n) = some false := by decide +kernel
  have htypes : ∀ n < 4, ∃ type ∈ [InstructionType.begin, .const, .call],
      At slotMachine (slotState n) type ∧
        slotBegun (n + 1) = begunAfter (slotState n).codePtr type (slotBegun n) := by
    decide +kernel
  intro n hn
  obtain ⟨type, -, hat, hbegun⟩ := htypes n hn
  refine ⟨turn_nextState slotEnv (hturns n hn), fun type' hat' => ?_⟩
  rw [← hat.unique hat']
  exact hbegun

theorem foreseen_slotFile : ∀ n < 4, Foreseen slotFile slotMachine (slotState n, slotBegun n) := by
  have htypes : ∀ n < 4, ∃ type ∈ [InstructionType.begin, .const, .call],
      At slotMachine (slotState n) type ∧ (type = .begin →
        slotFile.code32 ((slotState n).codePtr + 1) = .ok (slotState n).passed) := by
    decide +kernel
  intro n hn
  obtain ⟨type, hmem, hat, hpassed⟩ := htypes n hn
  constructor
  · intro d hd _
    obtain ⟨type', htype', hmem'⟩ := hd.type
    rw [← hat.unique htype'] at hmem'
    simp only [List.mem_cons, List.not_mem_nil, or_false] at hmem
    rcases hmem with rfl | rfl | rfl <;> exact absurd hmem' (by decide)
  · intro type' hat' hopens m hm
    rw [← hat.unique hat'] at hopens
    rcases hopens with rfl | rfl
    · cases hm.symm.trans (hpassed rfl)
      exact Nat.le_refl _
    · exact absurd hmem (by decide)

theorem slots_exist_iff_slotFile : SlotsExist slotMachine (slotState 4) := by
  have hat : At slotMachine (slotState 4) .ld ∧ (slotState 4).codePtr = 33 := by decide +kernel
  have hlast : Foreseen slotFile slotMachine (slotState 4, slotBegun 4) := by
    refine ⟨fun d _ _ => ⟨33, 24, hat.2, encloses_slotFile, List.mem_singleton.mpr rfl⟩, fun type hat' hopens => ?_⟩
    dsimp only at hat'
    rw [← hat.1.unique hat'] at hopens
    rcases hopens with h | h <;> cases h
  have hplaced : Placed slotMachine.bf 33 slotInstruction.encode := by decide +kernel
  have hstart : Starts slotEnv (slotState 0) := starts_startState slotEnv (by decide +kernel)
  have hrun : Run (Begins slotEnv) (Foreseen slotFile slotMachine) (slotState 0, [[]])
      (slotState 4, slotBegun 4) :=
    Run.of_turns (f := fun n => (slotState n, slotBegun n))
      fun n hn => ⟨foreseen_slotFile n hn, begins_slotFile n hn⟩
  refine (slots_exist_iff slotMachine verify_slotFile (by decide) slotEnv hstart hrun hlast).mpr ⟨?_, ?_⟩
  · intro d hd hclosure
    rw [hat.2, designates_iff hplaced] at hd
    rw [List.mem_singleton.mp hd] at hclosure
    cases hclosure
  · intro d hd hglobal
    rw [hat.2, designates_iff hplaced] at hd
    rw [List.mem_singleton.mp hd] at hglobal
    cases hglobal

end LamaSM
