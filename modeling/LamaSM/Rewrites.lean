import LamaSM.Patches

/-! `verify` rewrites nothing but the upper halves of first operands of BEGIN and CBEGIN.

    The linear decode of the file is a list of whole instructions end to end (`Decodes`). The words
    the second pass writes lie inside the first operands of marked BEGINs among them, so the decode
    goes through afterwards with the same starts, and each instruction is the same up to that half. -/

namespace LamaSM
open Lib

/-! ### The decoded instructions -/

/-- The linear decode from `o` on meets these instructions, each inside the code with its operands and
    captured variables. -/
structure Decodes (bf : Bytefile) (o : ℕ) (is : List Instruction) : Prop where
  placed : Placed bf o (is.flatMap Instruction.encode)
  ends : (finish o is : ℤ) = bf.codeSize ∨
    (finish o is : ℤ) < bf.codeSize ∧ bf.code (finish o is) = .ok 0xFF

/-- Their offsets and types. -/
def met : ℕ → List Instruction → List (ℕ × InstructionType)
  | _, [] => []
  | o, i :: is => (o, i.type) :: met (o + i.length) is

section Decodes

variable {bf : Bytefile} {o : ℕ} {i : Instruction} {is : List Instruction}

theorem Decodes.head (h : Decodes bf o (i :: is)) :
    Placed bf o i.encode ∧ (o : ℤ) + i.length ≤ bf.codeSize := by
  have hplaced := h.placed
  have hle := le_finish (o + i.length) is
  have hends : (finish (o + i.length) is : ℤ) = bf.codeSize ∨
      (finish (o + i.length) is : ℤ) < bf.codeSize := h.ends.imp id And.left
  rw [List.flatMap_cons] at hplaced
  exact ⟨(placed_append.mp hplaced).1, by omega⟩

theorem Decodes.tail (h : Decodes bf o (i :: is)) : Decodes bf (o + i.length) is := by
  have hplaced := h.placed
  rw [List.flatMap_cons] at hplaced
  have hrest := (placed_append.mp hplaced).2
  rw [Instruction.length_encode] at hrest
  exact ⟨by exact_mod_cast hrest, h.ends⟩

/-- The sweep over such a decode only moves forward. -/
theorem Decodes.linear : ∀ {is : List Instruction} {o : ℕ}, Decodes bf o is → Linear bf o (met o is)
  | [], o, h => by
    refine .closed fun hat => ?_
    have hlt := hat.lt
    have hbound := bf.codeSize_lt
    obtain ⟨b, hb, hopen⟩ := hat.byte
    rcases h.ends with hend | ⟨-, hclosed⟩
    · have hend : (o : ℤ) = bf.codeSize := hend
      unfold toU32 at hlt
      omega
    · rw [show bf.code o = .ok 0xFF from hclosed] at hb
      cases hb
      exact hopen rfl
  | i :: is, o, h => by
    obtain ⟨hplaced, hin⟩ := h.head
    have hbound := bf.codeSize_lt
    have hpos := i.length_pos
    refine .next ⟨?_, _, hplaced.1, i.opcode_ne⟩ (Instruction.generalByterun_eq hplaced (by omega))
      (by omega) h.tail.linear
    unfold toU32
    omega

theorem Decodes.cons (h : Placed bf o i.encode) (ht : Decodes bf (o + i.length) is) :
    Decodes bf o (i :: is) := by
  refine ⟨?_, ht.ends⟩
  rw [List.flatMap_cons]
  refine placed_append.mpr ⟨h, ?_⟩
  rw [Instruction.length_encode]
  exact_mod_cast ht.placed

theorem met_le : ∀ {is : List Instruction} {o : ℕ}, ∀ a ∈ met o is, o ≤ a.1
  | [], _, _, ha => nomatch ha
  | i :: is, o, a, ha => by
    rcases List.mem_cons.mp ha with rfl | ha
    · exact Nat.le_refl _
    · exact Nat.le_trans (Nat.le_add_right o i.length) (met_le a ha)

end Decodes

/-! ### One instruction -/

/-- The instruction with another first operand. -/
def Instruction.setFirst (i : Instruction) (a : UInt32) (h : i.type ≠ .closure) : Instruction where
  opcode := i.opcode
  args := i.args.set 0 a
  captures := i.captures
  known := i.known
  args_length := by rw [List.length_set]; exact i.args_length
  captures_length := by
    have h : getInstructionType i.opcode.toNat ≠ .closure := h
    have hnone := i.captures_length
    rw [if_neg h] at hnone
    rw [if_neg h]
    exact hnone

theorem Instruction.setFirst_args {i : Instruction} {a a' b : UInt32} (h : i.type ≠ .closure)
    (hargs : i.args = [a', b]) : (i.setFirst a h).args = [a, b] :=
  congrArg (List.set · 0 a) hargs

/-- An instruction before and after `verify`: the same, or a marked BEGIN whose first operand has
    kept its lower half. -/
structure Rewritten (visited : List ℤ) (o : ℕ) (i i' : Instruction) : Prop where
  opcode : i'.opcode = i.opcode
  captures : i'.captures = i.captures
  operands : i'.args.tail = i.args.tail
  low : (i'.args.getD 0 0).toNat % 2 ^ 16 = (i.args.getD 0 0).toNat % 2 ^ 16
  only : i' = i ∨ OpensFunction i.type ∧ visited.getD o (-1) ≠ -1

theorem Rewritten.refl (visited : List ℤ) (o : ℕ) (i : Instruction) : Rewritten visited o i i :=
  ⟨rfl, rfl, rfl, rfl, .inl rfl⟩

section Rewritten

variable {bf : Bytefile} {visited : List ℤ} {cs : List Closing} {o : ℕ} {i : Instruction}

theorem placed_congr {bf' : Bytefile} : ∀ {bs : List UInt8} {o : ℤ},
    (∀ k : ℤ, o ≤ k → k < o + bs.length → bf'.code k = bf.code k) → Placed bf o bs → Placed bf' o bs
  | [], _, _, _ => trivial
  | b :: bs, o, h, ⟨hb, hbs⟩ => by
    rw [List.length_cons] at h
    refine ⟨(h o (by omega) (by omega)).trans hb, placed_congr (fun k h0 h1 => h k ?_ ?_) hbs⟩ <;> omega

theorem rewritten_aside (hcs : Unwritten bf cs) (hplaced : Placed bf o i.encode)
    (haside : ∀ c ∈ cs, c.opens + 9 ≤ o ∨ o + i.length ≤ c.opens) :
    Placed (patched bf cs) o i.encode := by
  refine placed_congr (fun k h0 h1 => patched_code hcs fun c hc => ?_) hplaced
  rw [i.length_encode] at h1
  rcases haside c hc with h | h <;> omega

/-- The nine bytes of an instruction with two operands. -/
theorem encode_two (hc : i.type ≠ .closure) {a b : UInt32} (hargs : i.args = [a, b]) :
    i.encode = i.opcode :: (operandBytes a ++ operandBytes b) := by
  have hcaptures : i.captures = [] := List.eq_nil_of_length_eq_zero (i.captures_length.trans (if_neg hc))
  rw [Instruction.encode, hargs, hcaptures]
  simp

/-- The bytes of an operand with another upper half. -/
theorem operandBytes_upper {a : UInt32} {w : ℕ} (hw : w < 2 ^ 16) :
    operandBytes (UInt32.ofNat (a.toNat % 2 ^ 16 + 2 ^ 16 * w)) =
      [UInt8.ofNat a.toNat, UInt8.ofNat (a.toNat / 2 ^ 8), UInt8.ofNat w, UInt8.ofNat (w / 2 ^ 8)] := by
  have hsame : ∀ {m n : ℕ}, m % 2 ^ 8 = n % 2 ^ 8 → UInt8.ofNat m = UInt8.ofNat n := by
    intro m n h
    refine UInt8.toNat_inj.mp ?_
    rw [UInt8.toNat_ofNat', UInt8.toNat_ofNat']
    exact h
  have hvalue : (UInt32.ofNat (a.toNat % 2 ^ 16 + 2 ^ 16 * w)).toNat = a.toNat % 2 ^ 16 + 2 ^ 16 * w := by
    rw [UInt32.toNat_ofNat']
    omega
  rw [operandBytes, hvalue]
  simp only [List.cons.injEq, and_true]
  refine ⟨hsame ?_, hsame ?_, hsame ?_, hsame ?_⟩ <;> omega

/-- A BEGIN whose depth is written. -/
theorem rewritten_opened (hcs : Unwritten bf cs) (hplaced : Placed bf o i.encode)
    (htype : OpensFunction i.type) (hmarked : visited.getD o (-1) ≠ -1) {c : Closing} (hc : c ∈ cs)
    (ho : c.opens = o) (haside : ∀ d ∈ cs, d ≠ c → Apart o d.opens) :
    ∃ i', Placed (patched bf cs) o i'.encode ∧ Rewritten visited o i i' := by
  have hclosure : i.type ≠ .closure := by rcases htype with h | h <;> rw [h] <;> decide
  obtain ⟨a, b, hargs⟩ := i.args_two (by rcases htype with h | h <;> rw [h] <;> rfl)
  have hw : toU16 c.depth < 2 ^ 16 := toU16_lt _
  have hkeep : ∀ k : ℤ, (o : ℤ) ≤ k → k < o + 9 → k ≠ o + 1 + 2 → k ≠ o + 1 + 2 + 1 →
      (patched bf cs).code k = bf.code k := by
    intro k h0 h1 hk hk'
    refine patched_code hcs fun d hd => ?_
    by_cases hdc : d = c
    · rw [hdc, ho]
      exact ⟨hk, hk'⟩
    · rcases haside d hd hdc with h | h <;> omega
  obtain ⟨hlow, hhigh⟩ := patched_written hcs c hc
  rw [ho] at hlow hhigh
  have hargs' := Instruction.setFirst_args (a := UInt32.ofNat (a.toNat % 2 ^ 16 + 2 ^ 16 * toU16 c.depth))
    hclosure hargs
  refine ⟨i.setFirst (UInt32.ofNat (a.toNat % 2 ^ 16 + 2 ^ 16 * toU16 c.depth)) hclosure, ?_, rfl, rfl,
    ?_, ?_, .inr ⟨htype, hmarked⟩⟩
  · rw [encode_two hclosure hargs] at hplaced
    rw [encode_two (i := i.setFirst _ hclosure) hclosure hargs', operandBytes_upper hw]
    obtain ⟨h0, h1, h2, -, -, hrest⟩ := hplaced
    refine ⟨?_, ?_, ?_, ?_, ?_, placed_congr (fun k hk hk' => ?_) hrest⟩
    · exact (hkeep _ (by omega) (by omega) (by omega) (by omega)).trans h0
    · exact (hkeep _ (by omega) (by omega) (by omega) (by omega)).trans h1
    · exact (hkeep _ (by omega) (by omega) (by omega) (by omega)).trans h2
    · rw [UInt8.toNat_ofNat']
      exact hlow
    · rw [UInt8.toNat_ofNat']
      exact hhigh
    · have hk' : k < (o : ℤ) + 1 + 1 + 1 + 1 + 1 + 4 := hk'
      exact hkeep k (by omega) (by omega) (by omega) (by omega)
  · rw [hargs', hargs]
    rfl
  · rw [hargs', hargs]
    simp only [List.getD_cons_zero, UInt32.toNat_ofNat']
    omega

theorem Rewritten.length_eq {i' : Instruction} (h : Rewritten visited o i i') :
    i'.length = i.length := by
  have hargs := i'.args_length
  have hargs' := i.args_length
  rw [h.opcode] at hargs
  rw [Instruction.length, Instruction.length, h.captures]
  omega

end Rewritten

/-! ### The whole code -/

/-- Instructions end to end from `o` on, before and after. -/
inductive RewrittenAll (visited : List ℤ) : ℕ → List Instruction → List Instruction → Prop
  | nil {o : ℕ} : RewrittenAll visited o [] []
  | cons {o : ℕ} {i i' : Instruction} {is is' : List Instruction} (head : Rewritten visited o i i')
      (tail : RewrittenAll visited (o + i.length) is is') : RewrittenAll visited o (i :: is) (i' :: is')

section RewrittenAll

variable {bf : Bytefile} {visited : List ℤ} {cs : List Closing}

theorem RewrittenAll.starts_eq {o : ℕ} {is is' : List Instruction}
    (h : RewrittenAll visited o is is') : starts o is' = starts o is := by
  induction h with
  | nil => rfl
  | cons head _ ih => rw [starts, starts, head.length_eq, ih]

/-- The functions to close are marked BEGINs of the decode, or lie before it. -/
def AmongMet (visited : List ℤ) (cs : List Closing) (o : ℕ) (is : List Instruction) : Prop :=
  ∀ c ∈ cs, c.opens + 9 ≤ o ∨ ∃ type, (c.opens, type) ∈ met o is ∧ OpensFunction type ∧
    visited.getD c.opens (-1) ≠ -1

/-- The instruction at the head of a decode. -/
theorem rewritten_head {o : ℕ} {i : Instruction} {is : List Instruction} (hcs : Unwritten bf cs)
    (hplaced : Placed bf o i.encode) (hmet : AmongMet visited cs o (i :: is)) :
    ∃ i', Placed (patched bf cs) o i'.encode ∧ Rewritten visited o i i' := by
  by_cases hopened : ∃ c ∈ cs, c.opens = o
  · obtain ⟨c, hc, ho⟩ := hopened
    have htype : OpensFunction i.type ∧ visited.getD o (-1) ≠ -1 := by
      rcases hmet c hc with hle | ⟨type, hmem, htype, hmarked⟩
      · omega
      · rcases List.mem_cons.mp hmem with heq | hmem
        · rw [← (Prod.mk.inj heq).2]
          exact ⟨htype, ho ▸ hmarked⟩
        · have hle := met_le _ hmem
          have hpos := i.length_pos
          dsimp only at hle
          omega
    exact rewritten_opened hcs hplaced htype.1 htype.2 hc ho fun d hd hdc => ho ▸ hcs.of_ne hc hd hdc
  · refine ⟨i, rewritten_aside hcs hplaced fun c hc => ?_, Rewritten.refl visited o i⟩
    rcases hmet c hc with hle | ⟨type, hmem, -⟩
    · exact .inl hle
    · rcases List.mem_cons.mp hmem with heq | hmem
      · exact absurd ⟨c, hc, (Prod.mk.inj heq).1⟩ hopened
      · exact .inr (met_le _ hmem)

theorem decodes_patched (hcs : Unwritten bf cs) : ∀ {is : List Instruction} {o : ℕ}, Decodes bf o is →
    AmongMet visited cs o is → ∃ is', Decodes (patched bf cs) o is' ∧ RewrittenAll visited o is is'
  | [], o, h, hmet => by
    refine ⟨[], ⟨trivial, ?_⟩, .nil⟩
    rw [patched_codeSize, patched_code hcs]
    · exact h.ends
    · intro c hc
      rcases hmet c hc with hle | ⟨_, hmem, -⟩
      · show (o : ℤ) ≠ _ ∧ (o : ℤ) ≠ _
        omega
      · cases hmem
  | i :: is, o, h, hmet => by
    obtain ⟨i', hplaced, hi⟩ := rewritten_head hcs h.head.1 hmet
    have hrest : AmongMet visited cs (o + i.length) is := by
      intro c hc
      rcases hmet c hc with hle | ⟨type, hmem, htype⟩
      · exact .inl (by omega)
      · rcases List.mem_cons.mp hmem with heq | hmem
        · obtain ⟨ho, rfl⟩ := Prod.mk.inj heq
          have hlen : i.length = 9 := by
            rcases htype.1 with ht | ht <;> rw [i.length_of_type (by rw [ht]; decide), ht] <;> rfl
          exact .inl (by omega)
        · exact .inr ⟨type, hmem, htype⟩
    obtain ⟨is', hdec, his⟩ := decodes_patched hcs h.tail hrest
    rw [← hi.length_eq] at hdec
    exact ⟨i' :: is', .cons hplaced hdec, .cons hi his⟩

/-- The functions closed are marked BEGINs of the decode. -/
theorem closings_met {is : List Instruction} (hmarks : collectMarks bf = .ok visited)
    (hdec : Decodes bf 0 is) : ∀ c ∈ closings visited 0 [] (met 0 is),
      ∃ type, (c.opens, type) ∈ met 0 is ∧ OpensFunction type ∧ visited.getD c.opens (-1) ≠ -1 := by
  have hsize : 0 ≤ bf.codeSize := by
    have := (collectMarksBy_ok List.Perm.refl hmarks).length
    omega
  intro c hc
  exact ((closings_apart hsize hdec.linear _ _ .nil fun _ hb => nomatch hb).2 c hc).resolve_left
    (fun h => nomatch h)

/-- The decode goes through an accepted file, instruction by instruction. -/
theorem verify_decodes {bf' : Bytefile} {fuel : ℕ} {is : List Instruction}
    (hmarks : collectMarks bf = .ok visited) (hok : verify fuel bf = .ok bf') (hdec : Decodes bf 0 is) :
    ∃ is', Decodes bf' 0 is' ∧ RewrittenAll visited 0 is is' := by
  obtain ⟨rfl, hcs⟩ := verify_patched hmarks hok hdec.linear
  exact decodes_patched hcs hdec fun c hc => .inr (closings_met hmarks hdec c hc)

end RewrittenAll

/-- All that `verify` has changed are the upper halves of the first operands of the BEGINs `bs`. -/
structure RewritesOnly (visited : List ℤ) (bf bf' : Bytefile) (is : List Instruction) (bs : List ℕ) :
    Prop where
  /-- the pointers are the old ones -/
  same : bf' = bf.withBytes bf'.bytes
  length : bf'.bytes.length = bf.bytes.length
  nodup : bs.Nodup
  /-- each is the start of a marked BEGIN or CBEGIN with zeros there before -/
  begins : ∀ b ∈ bs, (∃ type, (b, type) ∈ met 0 is ∧ OpensFunction type) ∧
    visited.getD b (-1) ≠ -1 ∧ bf.code16 (b + 1 + 2) = .ok 0
  bytes : ∀ j, bf'.byte j ≠ bf.byte j →
    ∃ b ∈ bs, j = bf.codePtr + (b + 1 + 2) ∨ j = bf.codePtr + (b + 1 + 2) + 1
  cleared : cleared bf' bs = bf
  decoded : ∃ is', Decodes bf' 0 is' ∧ starts 0 is' = starts 0 is ∧ RewrittenAll visited 0 is is'

theorem patched_same : ∀ (cs : List Closing) (bf : Bytefile),
    patched bf cs = bf.withBytes (patched bf cs).bytes
  | [], bf => bf.withBytes_self.symm
  | _ :: cs, bf => by
    rw [patched_cons, patched_same cs]
    rfl

theorem patched_length : ∀ (cs : List Closing) (bf : Bytefile),
    (patched bf cs).bytes.length = bf.bytes.length
  | [], _ => rfl
  | c :: cs, bf => by
    rw [patched_cons, patched_length cs]
    simp [Bytefile.setCode16_bytes]

/-- `verify` rewrites nothing else: a file it accepts and whose linear decode stays inside the code
    differs afterwards only in the upper halves of first operands of marked BEGINs of the decode, which
    were zero. -/
theorem verify_rewritesOnly {bf bf' : Bytefile} {fuel : ℕ} {visited : List ℤ} {is : List Instruction}
    (hmarks : collectMarks bf = .ok visited) (hok : verify fuel bf = .ok bf') (hdec : Decodes bf 0 is) :
    ∃ bs, RewritesOnly visited bf bf' is bs := by
  obtain ⟨is', hdec', his⟩ := verify_decodes hmarks hok hdec
  obtain ⟨rfl, hcs⟩ := verify_patched hmarks hok hdec.linear
  refine ⟨(closings visited 0 [] (met 0 is)).map Closing.opens, patched_same _ _, patched_length _ _,
    ?_, ?_, ?_, cleared_patched hcs, is', hdec', his.starts_eq, his⟩
  · refine List.Pairwise.imp (fun h => ?_) hcs.apart
    rcases h with h | h <;> omega
  · intro b hb
    obtain ⟨c, hc, rfl⟩ := List.mem_map.mp hb
    obtain ⟨type, hstart, htype, hmarked⟩ := closings_met hmarks hdec c hc
    exact ⟨⟨type, hstart, htype⟩, hmarked, hcs.zero c hc⟩
  · intro j hne
    by_contra hnone
    refine hne (patched_byte hcs fun c hc => ?_)
    exact not_or.mp fun h => hnone ⟨c.opens, List.mem_map_of_mem hc, h⟩

/-- A file with one function, which returns the constant 1. -/
def constFile : Bytefile := .ofMain 0
  [0x52, 0, 0, 0, 0, 0, 0, 0, 0, 0x10, 1, 0, 0, 0, 0x16, 0xFF]

theorem collectMarks_constFile : collectMarks constFile =
    .ok [0, -1, -1, -1, -1, -1, -1, -1, -1, 0, -1, -1, -1, -1, 1, -1] := by decide

/-- Its instructions. -/
def constInstructions : List Instruction :=
  [beginInstruction, ⟨0x10, [1], [], opcode_known, one_operand, no_capture⟩, endInstruction]

theorem verify_rewritesOnly_constFile :
    verify 4 constFile = .ok (constFile.setCode16 3 1) ∧
      ∃ bs, RewritesOnly [0, -1, -1, -1, -1, -1, -1, -1, -1, 0, -1, -1, -1, -1, 1, -1] constFile
        (constFile.setCode16 3 1) constInstructions bs := by
  have hverify : verify 4 constFile = .ok (constFile.setCode16 3 1) := by decide
  exact ⟨hverify, verify_rewritesOnly collectMarks_constFile hverify
    ⟨by decide, .inr ⟨by decide, by decide⟩⟩⟩

end LamaSM
