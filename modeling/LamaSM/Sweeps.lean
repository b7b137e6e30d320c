import LamaSM.Decoders

/-! The sweeps of `print_instructions` and of the second pass of `verify` over instructions laid end
    to end. -/

namespace LamaSM
open Lib

/-! ### Layout -/

/-- The offsets at which instructions laid end to end from `o` on start. -/
def starts : ℕ → List Instruction → List ℕ
  | _, [] => []
  | o, i :: is => o :: starts (o + i.length) is

/-- The offset behind the last of them. -/
def finish : ℕ → List Instruction → ℕ
  | o, [] => o
  | o, i :: is => finish (o + i.length) is

/-- The offsets a sweep stops at: the starts, and then the closing byte. -/
def sweepOffsets (o : ℕ) (is : List Instruction) : List ℕ := starts o is ++ [finish o is]

theorem sweepOffsets_cons (o : ℕ) (i : Instruction) (is : List Instruction) :
    sweepOffsets o (i :: is) = o :: sweepOffsets (o + i.length) is := rfl

/-- The instructions lie end to end in the code from `o` on, closed by a byte 0xFF. -/
structure LaidOut (bf : Bytefile) (o : ℕ) (is : List Instruction) : Prop where
  placed : Placed bf o (is.flatMap Instruction.encode ++ [0xFF])
  finish_lt : (finish o is : ℤ) < bf.codeSize

theorem le_finish : ∀ (o : ℕ) (is : List Instruction), o ≤ finish o is
  | _, [] => Nat.le_refl _
  | o, i :: is => Nat.le_trans (Nat.le_add_right o i.length) (le_finish (o + i.length) is)

section LaidOut

variable {bf : Bytefile} {o : ℕ} {i : Instruction} {is : List Instruction}

theorem LaidOut.head (h : LaidOut bf o (i :: is)) :
    Placed bf o i.encode ∧ (o : ℤ) + i.length < bf.codeSize := by
  have hplaced := h.placed
  have hlt : (finish (o + i.length) is : ℤ) < bf.codeSize := h.finish_lt
  have hle := le_finish (o + i.length) is
  rw [List.flatMap_cons, List.append_assoc] at hplaced
  exact ⟨(placed_append.mp hplaced).1, by omega⟩

theorem LaidOut.tail (h : LaidOut bf o (i :: is)) : LaidOut bf (o + i.length) is := by
  have hplaced := h.placed
  rw [List.flatMap_cons, List.append_assoc] at hplaced
  have hrest := (placed_append.mp hplaced).2
  rw [Instruction.length_encode] at hrest
  exact ⟨by exact_mod_cast hrest, h.finish_lt⟩

theorem LaidOut.closed (h : LaidOut bf o []) : bf.code o = .ok 0xFF := h.placed.1

theorem le_sweepOffsets : ∀ {a : ℕ} {is : List Instruction}, o ∈ sweepOffsets a is → a ≤ o
  | _, [], h => Nat.le_of_eq (List.mem_singleton.mp h).symm
  | a, i :: is, h => by
    rcases List.mem_cons.mp h with rfl | h
    · exact Nat.le_refl _
    · exact Nat.le_trans (Nat.le_add_right a i.length) (le_sweepOffsets h)

/-- An instruction laid out among others ends where the next offset is. -/
theorem starts_placed {o : ℕ} : ∀ {a : ℕ} {is : List Instruction}, LaidOut bf a is → o ∈ starts a is →
    ∃ i : Instruction, Placed bf o i.encode ∧ o + i.length ∈ sweepOffsets a is ∧
      ∀ o' ∈ sweepOffsets a is, o < o' → o + i.length ≤ o'
  | _, [], _, ho => nomatch ho
  | a, i :: is, h, ho => by
    rw [sweepOffsets_cons]
    have hlater : ∀ o' ∈ sweepOffsets (a + i.length) is, a + i.length ≤ o' := fun _ => le_sweepOffsets
    have hnext : a + i.length ∈ sweepOffsets (a + i.length) is := by
      cases is with
      | nil => exact List.mem_singleton.mpr rfl
      | cons j js => exact List.mem_cons_self
    rcases List.mem_cons.mp ho with rfl | ho
    · refine ⟨i, h.head.1, List.mem_cons_of_mem _ hnext, fun o' ho' hlt => ?_⟩
      rcases List.mem_cons.mp ho' with rfl | ho'
      · exact absurd hlt (Nat.lt_irrefl _)
      · exact hlater o' ho'
    · obtain ⟨j, hj, hend, hapart⟩ := starts_placed h.tail ho
      refine ⟨j, hj, List.mem_cons_of_mem _ hend, fun o' ho' hlt => ?_⟩
      rcases List.mem_cons.mp ho' with rfl | ho'
      · have := hlater o (List.mem_append_left _ ho)
        omega
      · exact hapart o' ho' hlt

theorem LaidOut.finish_closed : ∀ {a : ℕ} {is : List Instruction}, LaidOut bf a is →
    bf.code (finish a is) = .ok 0xFF
  | _, [], h => h.closed
  | _, _ :: _, h => h.tail.finish_closed

theorem sweepOffsets_le : ∀ {a : ℕ} {is : List Instruction}, o ∈ sweepOffsets a is → o ≤ finish a is
  | _, [], h => Nat.le_of_eq (List.mem_singleton.mp h)
  | a, i :: is, h => by
    rcases List.mem_cons.mp h with rfl | h
    · exact le_finish o (i :: is)
    · exact sweepOffsets_le (a := a + i.length) h

/-- No opcode is the closing byte. -/
theorem Instruction.opcode_ne (i : Instruction) : i.opcode.toNat ≠ 0xFF := by
  intro h
  have hknown := i.known
  rw [h] at hknown
  cases hknown

end LaidOut

/-! ### `print_instructions` -/

/-- The name a SEXP or TAG prints can be read. -/
def Instruction.NameReadable (bf : Bytefile) (i : Instruction) : Prop :=
  i.type = .sexp ∨ i.type = .tag →
    ∃ name, bf.cString (bf.stringPtr + toI32 (i.args.getD 0 0).toNat) = .ok name

namespace Print

variable {bf : Bytefile} {p : Printing}

theorem operand_eq {k w : ℕ} (h : bf.code32 (p.offset + 1 + 4 * k) = .ok w) :
    operand bf k p = .ok w p := by
  rw [operand, exec_get_bind, h]
  rfl

theorem consumeArgs1_eq {w : ℕ} (h : bf.code32 (p.offset + 1) = .ok w) :
    consumeArgs1 bf p = .ok w { p with offset := p.offset + 5 } := by
  rw [consumeArgs1, exec_bind_of_ok (operand_eq (k := 0) (by simpa using h))]
  rfl

theorem consumeArgs2_eq {v w : ℕ} (hv : bf.code32 (p.offset + 1) = .ok v)
    (hw : bf.code32 (p.offset + 1 + 4) = .ok w) :
    consumeArgs2 bf p = .ok (v, w) { p with offset := p.offset + 9 } := by
  rw [consumeArgs2, exec_bind_of_ok (operand_eq (k := 0) (by simpa using hv)),
    exec_bind_of_ok (operand_eq (k := 1) (by simpa using hw))]
  rfl

theorem consumeLowerBits0_eq {b : ℕ} (h : bf.code p.offset = .ok b) :
    consumeLowerBits0 bf p = .ok (lowBits b) { p with offset := p.offset + 1 } := by
  rw [consumeLowerBits0, exec_get_bind, h]
  rfl

theorem consumeLowerBits1_eq {b w : ℕ} (h : bf.code p.offset = .ok b)
    (hw : bf.code32 (p.offset + 1) = .ok w) :
    consumeLowerBits1 bf p = .ok (lowBits b, w) { p with offset := p.offset + 5 } := by
  rw [consumeLowerBits1, exec_get_bind, h]
  exact exec_bind_of_ok (operand_eq (k := 0) (by simpa using hw))

theorem consumeDesignations_eq : ∀ {cs : List (UInt8 × UInt32)} {p : Printing},
    Placed bf p.offset (cs.flatMap Instruction.captureBytes) →
      ∃ ds, consumeDesignations bf cs.length p =
        .ok ds { p with offset := p.offset + 5 * cs.length }
  | [], p, _ => by
    rw [show p.offset + 5 * (([] : List (UInt8 × UInt32)).length : ℤ) = p.offset by simp]
    exact ⟨[], rfl⟩
  | c :: cs, p, h => by
    rw [List.flatMap_cons] at h
    obtain ⟨ds, hds⟩ := consumeDesignations_eq (p := { p with offset := p.offset + 5 })
      (placed_append.mp h).2
    refine ⟨⟨MemVar.ofByte c.1.toNat, c.2.toNat⟩ :: ds, ?_⟩
    rw [List.length_cons, consumeDesignations, exec_get_bind, h.designation]
    refine (exec_bind_of_ok hds).trans ?_
    rw [show p.offset + 5 * ((cs.length + 1 : ℕ) : ℤ) = p.offset + 5 + 5 * cs.length by omega]
    rfl

end Print

open Print

section Print

variable {bf : Bytefile} {p : Printing} {i : Instruction}

/-- An instruction is consumed whole, whatever is printed of it. -/
theorem printInstruction_whole (h : Placed bf p.offset i.encode) :
    ∃ text, finalState (printInstruction bf i.type p) =
        { p with offset := p.offset + i.length, text := text } ∧
      (i.NameReadable bf → printInstruction bf i.type p =
        .ok false { p with offset := p.offset + i.length, text := text }) := by
  have hcode : bf.code p.offset = .ok i.opcode.toNat := h.1
  have hlength : i.type ≠ .closure → ∀ n : ℕ, fixedLength i.type = n → (i.length : ℤ) = n := by
    rintro hne n rfl
    rw [i.length_of_type hne]
  have one : fixedLength i.type = 5 → ∃ a, bf.code32 (p.offset + 1) = .ok a := fun hlen => by
    obtain ⟨a, ha⟩ := i.args_one hlen
    have hk := Instruction.operand h (k := 0) (w := a) (by rw [ha]; rfl)
    exact ⟨a.toNat, by simpa using hk⟩
  have two : fixedLength i.type = 9 → ∃ a b : UInt32, i.args = [a, b] ∧
      bf.code32 (p.offset + 1) = .ok a.toNat ∧
      bf.code32 (p.offset + 1 + 4) = .ok b.toNat := fun hlen => by
    obtain ⟨a, b, hab⟩ := i.args_two hlen
    have h0 := Instruction.operand h (k := 0) (w := a) (by rw [hab]; rfl)
    have h1 := Instruction.operand h (k := 1) (w := b) (by rw [hab]; rfl)
    exact ⟨a, b, hab, by simpa using h0, by simpa using h1⟩
  cases ht : i.type <;> rw [ht] at hlength one two
  case other b => exact absurd ht (i.type_ne_other b)
  case jmp | cjmpz | cjmpnz | const | callArray | line | array | string | callc =>
    obtain ⟨a, ha⟩ := one rfl
    rw [printInstruction, exec_bind_of_ok (Print.consumeArgs1_eq ha), hlength (by decide) 5 rfl]
    exact ⟨_, rfl, fun _ => rfl⟩
  case ld | st | lda =>
    obtain ⟨a, ha⟩ := one rfl
    rw [printInstruction, exec_bind_of_ok (Print.consumeLowerBits1_eq hcode ha), hlength (by decide) 5 rfl]
    exact ⟨_, rfl, fun _ => rfl⟩
  case binop | patt =>
    rw [printInstruction, exec_bind_of_ok (Print.consumeLowerBits0_eq hcode), hlength (by decide) 1 rfl]
    exact ⟨_, rfl, fun _ => rfl⟩
  case call | «begin» | cbegin | fail =>
    obtain ⟨a, b, -, ha, hb⟩ := two rfl
    rw [printInstruction, exec_bind_of_ok (Print.consumeArgs2_eq ha hb), hlength (by decide) 9 rfl]
    exact ⟨_, rfl, fun _ => rfl⟩
  case sexp | tag =>
    obtain ⟨a, b, hargs, ha, hb⟩ := two rfl
    have hname : i.args.getD 0 0 = a := by rw [hargs]; rfl
    rw [printInstruction, exec_bind_of_ok (Print.consumeArgs2_eq ha hb), hlength (by decide) 9 rfl]
    dsimp only
    cases hs : bf.cString (bf.stringPtr + toI32 a.toNat) with
    | ok name => exact ⟨_, rfl, fun _ => rfl⟩
    | error e =>
      refine ⟨_, rfl, fun hreadable => ?_⟩
      obtain ⟨name, hok⟩ := hreadable (by rw [ht]; decide)
      rw [hname, hs] at hok
      cases hok
  case closure =>
    obtain ⟨a, n, hargs, ha, hn⟩ := two rfl
    obtain ⟨a', n', hargs', hcount⟩ := i.closure_args ht
    obtain rfl : n' = n := by
      rw [hargs] at hargs'
      simp only [List.cons.injEq, and_true] at hargs'
      exact hargs'.2.symm
    have hcap := Instruction.captured h
    rw [hargs, show p.offset + 1 + 4 * (([a, n'] : List UInt32).length : ℕ) = p.offset + 9 by
      simp only [List.length_cons, List.length_nil]
      omega] at hcap
    obtain ⟨ds, hds⟩ := Print.consumeDesignations_eq (p := { p with offset := p.offset + 9 }) hcap
    have hlen : p.offset + (i.length : ℤ) = p.offset + 9 + 5 * i.captures.length := by
      rw [Instruction.length, hargs]
      simp only [List.length_cons, List.length_nil]
      omega
    rw [printInstruction, exec_bind_of_ok (Print.consumeArgs2_eq ha hn), ← hcount, hlen]
    dsimp only
    rw [exec_bind_of_ok hds]
    exact ⟨_, rfl, fun _ => rfl⟩
  all_goals
    rw [printInstruction, hlength (by decide) 1 rfl]
    exact ⟨_, rfl, fun _ => rfl⟩

/-- One turn at a whole instruction. -/
theorem printTurn_whole (h : Placed bf p.offset i.encode) :
    (finalState (printTurn bf p)).offset = p.offset + i.length ∧
      (i.NameReadable bf → ∃ text, printTurn bf p = .ok false
        { offset := p.offset + i.length, text := text, stops := p.stops ++ [p.offset] }) := by
  have hturn : printTurn bf p = printInstruction bf i.type { p with
      text := p.text ++ (hexText p.offset.toNat ++ ":\t"), stops := p.stops ++ [p.offset] } := by
    rw [printTurn, exec_get_bind, exec_modify_bind, show bf.code p.offset = _ from h.1]
    show printInstruction bf (nextInstructionType i.opcode.toNat) _ = _
    rw [nextInstructionType_eq]
    rfl
  obtain ⟨text, hfinal, hok⟩ := printInstruction_whole (p := { p with
      text := p.text ++ (hexText p.offset.toNat ++ ":\t"), stops := p.stops ++ [p.offset] }) h
  rw [hturn]
  exact ⟨by rw [hfinal], fun hread => ⟨text, hok hread⟩⟩

/-- The turn at the closing byte. -/
theorem printTurn_closed (h : bf.code p.offset = .ok 0xFF) : ∃ text, printTurn bf p = .ok true
    { offset := p.offset, text := text, stops := p.stops ++ [p.offset] } := by
  have hturn : printTurn bf p = printInstruction bf (.other 0xFF) { p with
      text := p.text ++ (hexText p.offset.toNat ++ ":\t"), stops := p.stops ++ [p.offset] } := by
    rw [printTurn, exec_get_bind, exec_modify_bind, h]
    rfl
  rw [hturn, printInstruction, exec_get_bind]
  dsimp only
  rw [h]
  exact ⟨_, rfl⟩

/-- The sweep of `print_instructions` from the start of an instruction on. -/
theorem printLoop_stops : ∀ (is : List Instruction) {o fuel : ℕ} {p : Printing}, p.offset = o →
    LaidOut bf o is → (∀ i ∈ is, i.NameReadable bf) → is.length < fuel →
      ∃ text, printLoop bf fuel p =
        .ok () ⟨finish o is, text, p.stops ++ (sweepOffsets o is).map Int.ofNat⟩
  | [], o, fuel + 1, p, hp, hl, _, _ => by
    obtain ⟨text, hturn⟩ := printTurn_closed (p := p) (by rw [hp]; exact hl.closed)
    refine ⟨text, ?_⟩
    rw [printLoop, exec_bind_of_ok hturn, hp]
    rfl
  | i :: is, o, fuel + 1, p, hp, hl, hread, hfuel => by
    obtain ⟨text, hturn⟩ := (printTurn_whole (p := p) (by rw [hp]; exact hl.head.1)).2
      (hread i List.mem_cons_self)
    have hshort : is.length < fuel := by
      rw [List.length_cons] at hfuel
      omega
    obtain ⟨text', hrest⟩ := printLoop_stops is (o := o + i.length)
      (p := { offset := p.offset + i.length, text := text, stops := p.stops ++ [p.offset] })
      (by rw [hp]; rfl) hl.tail (fun j hj => hread j (List.mem_cons_of_mem i hj))
      hshort
    refine ⟨text', ?_⟩
    rw [printLoop, exec_bind_of_ok hturn]
    refine hrest.trans ?_
    rw [sweepOffsets_cons, List.map_cons, hp, List.append_assoc]
    rfl

end Print

/-! ### The second pass of `verify` -/

/-- The offsets the second pass stops at in `fuel` turns, the closing byte included. -/
def sweepStops (visited : List ℤ) : ℕ → Sweep → List ℕ
  | 0, _ => []
  | fuel + 1, st =>
    if toU32 st.bf.codeSize ≤ st.symbolOffset then []
    else match st.bf.code st.symbolOffset with
      | .error _ => []
      | .ok b =>
        if b = 0xFF then [st.symbolOffset]
        else match sweepInstruction visited st with
          | .error _ => [st.symbolOffset]
          | .ok st' => st.symbolOffset :: sweepStops visited fuel st'

section Sweep

variable {st st' : Sweep} {type : InstructionType} {visited : List ℤ} {is : List Instruction}

theorem getElem?_set_two {l : List UInt8} {n k : ℕ} {a b : UInt8} (h : k + 2 ≤ n) :
    ((l.set k a).set (k + 1) b)[n]? = l[n]? := by
  rw [List.getElem?_set_ne (by omega), List.getElem?_set_ne (by omega)]

/-- Bytes behind an overwritten word stay. -/
theorem placed_setCode16 {bf : Bytefile} {o : ℤ} {v : ℕ} (h0 : 0 ≤ bf.codePtr + o) :
    ∀ {bs : List UInt8} {o' : ℤ}, o + 2 ≤ o' → Placed bf o' bs → Placed (bf.setCode16 o v) o' bs
  | [], _, _, _ => trivial
  | b :: bs, o', ho, ⟨hb, hbs⟩ => by
    refine ⟨?_, placed_setCode16 h0 (by omega) hbs⟩
    have hbyte : (bf.setCode16 o v).byte (bf.codePtr + o') = bf.byte (bf.codePtr + o') := by
      simp only [Bytefile.byte, Bytefile.setCode16_bytes]
      rw [getElem?_set_two (by omega)]
    exact hbyte.trans hb

theorem code16_range {bf : Bytefile} {o : ℤ} {w : ℕ} (h : bf.code16 o = .ok w) :
    0 ≤ bf.codePtr + o := by
  obtain ⟨b0, -, hb0, -, -⟩ := Bytefile.uint16_ok h
  exact (Bytefile.byte_ok hb0).1

/-- What the checks of an instruction do: END closes the function opened last and writes its depth,
    BEGIN opens one, the others leave the state as it is. -/
inductive Checking : InstructionType → Sweep → Sweep → Prop
  | close {st : Sweep} {b : ℕ} {rest : List ℕ} (back : st.beginOffsets = b :: rest)
      (unwritten : st.bf.code16 (b + 1 + 2) = .ok 0) :
      Checking .end st { st with
        bf := st.bf.setCode16 (b + 1 + 2) (toU16 st.maxStack), beginOffsets := rest, maxStack := -1 }
  | enter {type : InstructionType} {st : Sweep} (type_eq : type = .begin ∨ type = .cbegin) :
      Checking type st { st with beginOffsets := st.symbolOffset :: st.beginOffsets }
  | same {type : InstructionType} {st : Sweep} (not_end : type ≠ .end) (not_begin : type ≠ .begin)
      (not_cbegin : type ≠ .cbegin) : Checking type st st

theorem sweepChecks_checking (h : sweepChecks type st = .ok st') : Checking type st st' := by
  cases type
  case «end» =>
    simp only [sweepChecks, except_bind_ok] at h
    obtain ⟨b, hb, w, hw, h⟩ := h
    unfold Sweep.back at hb
    split at hb
    · cases hb
    · rename_i c rest hrest
      cases hb
      split at h
      · cases h
      · rename_i hzero
        rw [not_not.mp hzero] at hw
        cases h
        rw [hrest]
        exact .close hrest hw
  case «begin» | cbegin =>
    cases h
    exact .enter (by simp)
  case ld | st | lda | closure =>
    simp only [sweepChecks, except_bind_ok, except_pure_ok] at h
    obtain rfl : st = st' := by grind
    exact .same (by decide) (by decide) (by decide)
  case call | jmp | cjmpz | cjmpnz =>
    simp only [sweepChecks, except_bind_ok] at h
    obtain ⟨jump, -, h⟩ := h
    split at h
    · cases h
    · cases h
      exact .same (by decide) (by decide) (by decide)
  all_goals
    cases h
    exact .same (by simp) (by simp) (by simp)

/-- What they leave of the state: a function is opened at the instruction only, and a write goes
    behind an opened one. -/
structure Checked (type : InstructionType) (st st' : Sweep) : Prop where
  symbolOffset : st'.symbolOffset = st.symbolOffset
  begins : ∀ b ∈ st'.beginOffsets, b ∈ st.beginOffsets ∨
    (type = .begin ∨ type = .cbegin) ∧ b = st.symbolOffset
  bf : st'.bf = st.bf ∨ ∃ b ∈ st.beginOffsets, ∃ v, 0 ≤ st.bf.codePtr + ((b : ℤ) + 1 + 2) ∧
    st'.bf = st.bf.setCode16 (b + 1 + 2) v

theorem sweepChecks_ok (h : sweepChecks type st = .ok st') : Checked type st st' := by
  cases sweepChecks_checking h with
  | @close _ b rest hback hw =>
    refine ⟨rfl, fun c hc => .inl ?_, .inr ⟨b, ?_, _, code16_range hw, rfl⟩⟩
    · rw [hback]
      exact List.mem_cons_of_mem b hc
    · rw [hback]
      exact List.mem_cons_self
  | enter htype =>
    refine ⟨rfl, fun b hb => ?_, .inl rfl⟩
    rcases List.mem_cons.mp hb with rfl | hb
    · exact .inr ⟨htype, rfl⟩
    · exact .inl hb
  | same => exact ⟨rfl, fun b hb => .inl hb, .inl rfl⟩

/-- What a turn that goes on does: it only moves on when the offset is not marked, else it makes the
    checks with the greater depth. -/
theorem sweepInstruction_ok (h : sweepInstruction visited st = .ok st') :
    ∃ nxt type, generalByterun st.bf st.symbolOffset = .ok (nxt, type) ∧
      ∃ v, visited[st.symbolOffset]? = some v ∧
        (v = -1 ∧ st' = { st with symbolOffset := nxt } ∨
          v ≠ -1 ∧ ∃ u, sweepChecks type { st with maxStack := max st.maxStack v } = .ok u ∧
            st' = { u with symbolOffset := nxt }) := by
  obtain ⟨⟨nxt, type⟩, hgen, h⟩ := except_bind_ok.mp h
  refine ⟨nxt, type, hgen, ?_⟩
  dsimp only at h
  split at h
  · cases h
  · rename_i v hv
    refine ⟨v, hv, ?_⟩
    split at h
    · rename_i hunmarked
      exact .inl ⟨hunmarked, (except_pure_ok.mp h).symm⟩
    · rename_i hmarked
      obtain ⟨u, hu, h⟩ := except_bind_ok.mp h
      exact .inr ⟨hmarked, u, hu, (except_pure_ok.mp h).symm⟩

/-- A sweep whose rest of the code is laid out; the functions it has opened lie before it. -/
structure Sweeping (st : Sweep) (is : List Instruction) : Prop where
  laidOut : LaidOut st.bf st.symbolOffset is
  begins : ∀ b ∈ st.beginOffsets, b + 9 ≤ st.symbolOffset

/-- A turn that goes on leads behind the instruction. -/
theorem Sweeping.turn {i : Instruction} (h : Sweeping st (i :: is))
    (hturn : sweepInstruction visited st = .ok st') :
    Sweeping st' is ∧ st'.symbolOffset = st.symbolOffset + i.length := by
  obtain ⟨hplaced, hlt⟩ := h.laidOut.head
  have hsize := st.bf.codeSize_lt
  have htail := h.laidOut.tail
  have hgen := Instruction.generalByterun_eq hplaced (by omega)
  have hmoved : ∀ u : Sweep, u.bf = st.bf → u.symbolOffset = st.symbolOffset + i.length →
      u.beginOffsets = st.beginOffsets → Sweeping u is := by
    intro u hbf hoff hbegins
    refine ⟨by rw [hbf, hoff]; exact htail, fun b hb => ?_⟩
    have := h.begins b (hbegins ▸ hb)
    omega
  obtain ⟨nxt, type, hgen', v, -, hmove⟩ := sweepInstruction_ok hturn
  rw [hgen] at hgen'
  cases hgen'
  rcases hmove with ⟨-, rfl⟩ | ⟨-, u, hchecks, rfl⟩
  · exact ⟨hmoved _ rfl rfl rfl, rfl⟩
  · have hc := sweepChecks_ok hchecks
    refine ⟨⟨?_, fun b hb => ?_⟩, rfl⟩
    · rcases hc.bf with hbf | ⟨b, hb, v, h0, hbf⟩
      · show LaidOut u.bf _ is
        rw [hbf]
        exact htail
      · have hle := h.begins b hb
        show LaidOut u.bf _ is
        rw [hbf]
        have hbehind : (b : ℤ) + 1 + 2 + 2 ≤ ((st.symbolOffset + i.length : ℕ) : ℤ) := by
          have hle : b + 9 ≤ st.symbolOffset := hle
          omega
        exact ⟨placed_setCode16 h0 hbehind htail.placed, by
          rw [Bytefile.setCode16_codeSize]
          exact htail.finish_lt⟩
    · rcases hc.begins b hb with hb | ⟨htype, rfl⟩
      · have hle : b + 9 ≤ st.symbolOffset := h.begins b hb
        show b + 9 ≤ st.symbolOffset + i.length
        omega
      · have hlen : i.length = 9 := by
          rcases htype with ht | ht <;> rw [i.length_of_type (by rw [ht]; decide), ht] <;> rfl
        show st.symbolOffset + 9 ≤ st.symbolOffset + i.length
        omega

/-- The stops of the second pass from the start of an instruction on: never another offset, and all
    of them when it accepts. -/
theorem sweepStops_initial : ∀ (is : List Instruction) (fuel : ℕ) {st : Sweep}, Sweeping st is →
    sweepStops visited fuel st <+: sweepOffsets st.symbolOffset is ∧
      (∀ st', sweepLoop visited fuel st = .ok st' →
        sweepStops visited fuel st = sweepOffsets st.symbolOffset is ∧
          st'.symbolOffset = finish st.symbolOffset is) ∧
      (is.length < fuel → NoTimeout (sweepLoop visited fuel st))
  | is, 0, st, _ => by
    refine ⟨List.nil_prefix, fun st' h => ?_, fun h => absurd h (Nat.not_lt_zero _)⟩
    cases h
  | [], fuel + 1, st, h => by
    have hin : ¬ toU32 st.bf.codeSize ≤ st.symbolOffset := by
      have hlt : (st.symbolOffset : ℤ) < st.bf.codeSize := h.laidOut.finish_lt
      have hsize := st.bf.codeSize_lt
      unfold toU32
      omega
    rw [sweepStops, sweepLoop, if_neg hin, if_neg hin, h.laidOut.closed]
    refine ⟨List.prefix_refl _, fun st' hok => ?_, fun _ => noTimeout_pure st⟩
    cases hok
    exact ⟨rfl, rfl⟩
  | i :: is, fuel + 1, st, h => by
    have hin : ¬ toU32 st.bf.codeSize ≤ st.symbolOffset := by
      have hlt := h.laidOut.head.2
      have hsize := st.bf.codeSize_lt
      unfold toU32
      omega
    rw [sweepStops, sweepLoop, if_neg hin, if_neg hin, show st.bf.code _ = _ from h.laidOut.head.1.1]
    simp only [except_ok_bind, if_neg i.opcode_ne, sweepOffsets_cons]
    have hnever := noTimeout_sweepInstruction visited st
    cases hturn : sweepInstruction visited st with
    | error e =>
      refine ⟨⟨_, rfl⟩, fun st' hok => ?_, fun _ hto => ?_⟩
      · cases hok
      · rw [hturn] at hnever
        exact hnever hto
    | ok u =>
      obtain ⟨hu, hoff⟩ := h.turn hturn
      obtain ⟨hpre, hall, hends⟩ := sweepStops_initial is fuel hu
      rw [hoff] at hpre hall
      refine ⟨List.cons_prefix_cons.mpr ⟨rfl, hpre⟩, fun st' hok => ?_, fun hfuel => hends ?_⟩
      · obtain ⟨hstops, hend⟩ := hall st' hok
        exact ⟨congrArg (st.symbolOffset :: ·) hstops, hend⟩
      · rw [List.length_cons] at hfuel
        omega

end Sweep

/-! ### The agreement -/

/-- What the decoders make of a whole instruction at `o`: `general_byterun` and
    `next_instruction_type` its type; `general_byterun`, `print_instructions` and the handler in
    `interpret`, where it has one, its length. -/
structure DecodersAgree (bf : Bytefile) (o : ℕ) (i : Instruction) : Prop where
  general : generalByterun bf o = .ok (o + i.length, i.type)
  decoder : ∃ b, bf.code o = .ok b ∧ nextInstructionType b = i.type
  handler : ∀ (M : Machine) (E : Env M) (s : State), M.bf = bf → s.codePtr = o → i.type ≠ .ret →
    Splits E i.type ∧ ∃ ops, consume M i.type s = .ok ops { s with codePtr := (o + i.length : ℕ) }
  print : ∀ p : Printing, p.offset = o → (finalState (printTurn bf p)).offset = (o + i.length : ℕ)

theorem decodersAgree {bf : Bytefile} {o : ℕ} {i : Instruction} (h : Placed bf o i.encode)
    (hin : (o : ℤ) + i.length ≤ bf.codeSize) : DecodersAgree bf o i := by
  have hsize := bf.codeSize_lt
  refine ⟨Instruction.generalByterun_eq h (by omega), ⟨_, h.1, nextInstructionType_eq _⟩, ?_, ?_⟩
  · rintro M E s rfl hs hret
    obtain ⟨ops, hops⟩ := consume_length (M := M) (s := s) (i := i) (by rw [hs]; exact h) hret
    refine ⟨splits_all i.type hret i.known, ops, ?_⟩
    rw [hops, hs]
    rfl
  · intro p hp
    have hprint := (printTurn_whole (p := p) (i := i) (by rw [hp]; exact h)).1
    rw [hprint, hp]
    rfl

/-- The decoders agree at every whole instruction; so over instructions laid end to end from offset 0
    the sweeps of `print_instructions` and of `verify` stop at their starts and at the closing byte,
    the one of `verify` as long as the file is not rejected. -/
theorem decoders_agree (bf : Bytefile) :
    (∀ (o : ℕ) (i : Instruction), Placed bf o i.encode → (o : ℤ) + i.length ≤ bf.codeSize →
      DecodersAgree bf o i) ∧
    ∀ is : List Instruction, LaidOut bf 0 is →
      (∀ fuel, is.length < fuel → (∀ i ∈ is, i.NameReadable bf) →
        ∃ text, printInstructions fuel bf =
          .ok () ⟨finish 0 is, text, (sweepOffsets 0 is).map Int.ofNat⟩) ∧
      ∀ visited fuel, collectMarks bf = .ok visited →
        sweepStops visited fuel ⟨bf, 0, 0, []⟩ <+: sweepOffsets 0 is ∧
        (∀ bf', verify fuel bf = .ok bf' →
          sweepStops visited fuel ⟨bf, 0, 0, []⟩ = sweepOffsets 0 is) ∧
        (is.length < fuel → NoTimeout (verify fuel bf)) := by
  refine ⟨fun o i h hin => decodersAgree h hin, fun is hl => ⟨fun fuel hfuel hread => ?_, ?_⟩⟩
  · exact printLoop_stops is (p := ⟨0, "", []⟩) rfl hl hread hfuel
  · intro visited fuel hmarks
    have hs : Sweeping ⟨bf, 0, 0, []⟩ is := ⟨hl, fun b hb => (nomatch hb)⟩
    obtain ⟨hpre, hall, hends⟩ := @sweepStops_initial visited is fuel _ hs
    have hverify : verify fuel bf = (sweepLoop visited fuel ⟨bf, 0, 0, []⟩ >>= fun st => pure st.bf) := by
      rw [verify, hmarks]
      rfl
    refine ⟨hpre, fun bf' hok => ?_, fun hfuel => ?_⟩
    · rw [hverify] at hok
      obtain ⟨st, hst, -⟩ := except_bind_ok.mp hok
      exact (hall st hst).1
    · rw [hverify]
      exact noTimeout_bind (hends hfuel) fun _ => noTimeout_pure _

/-- BEGIN 0 0 -/
def beginInstruction : Instruction := ⟨0x52, [0, 0], [], opcode_known, two_operands, no_capture⟩

/-- CLOSURE with one captured local variable -/
def closureInstruction : Instruction := ⟨0x54, [0, 1], [(1, 0)], rfl, rfl, rfl⟩

/-- END -/
def endInstruction : Instruction := ⟨0x16, [], [], opcode_known, no_operand, no_capture⟩

/-- A function that makes a closure, without a public symbol. -/
def sweptFile : Bytefile := .ofCode
  [0x52, 0, 0, 0, 0, 0, 0, 0, 0, 0x54, 0, 0, 0, 0, 1, 0, 0, 0, 1, 0, 0, 0, 0, 0x16, 0xFF]

/-- Its instructions. -/
def sweptInstructions : List Instruction := [beginInstruction, closureInstruction, endInstruction]

theorem laidOut_sweptFile : LaidOut sweptFile 0 sweptInstructions :=
  ⟨by decide, by decide⟩

theorem decoders_agree_sweptFile :
    DecodersAgree sweptFile 9 closureInstruction ∧
      (∃ text, printInstructions 4 sweptFile = .ok () ⟨24, text, [0, 9, 23, 24]⟩) ∧
      NoTimeout (verify 4 sweptFile) := by
  obtain ⟨hone, hall⟩ := decoders_agree sweptFile
  obtain ⟨hprint, hverify⟩ := hall sweptInstructions laidOut_sweptFile
  refine ⟨hone 9 closureInstruction (laidOut_sweptFile.tail.head.1) (by decide), ?_, ?_⟩
  · exact hprint 4 (by decide) (by simp [sweptInstructions, Instruction.NameReadable, Instruction.type,
      beginInstruction, closureInstruction, endInstruction, getInstructionType, highBits, rawInstructionType])
  · exact (hverify (List.replicate 25 (-1)) 4 (by decide)).2.2 (by decide)

end LamaSM
