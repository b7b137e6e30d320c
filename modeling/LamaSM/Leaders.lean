import LamaSM.Analyzer
import LamaSM.Instructions
import LamaSM.Lib.Flags
import LamaSM.Lib.Worklist

/-! Which offsets `Analyzer::collect_marks` sweeps, and which of them it marks as leaders.

    `Swept` is reachability along all successors the sweep looks at, `Reachable` along those control
    can take. When the instructions swept lie inside the code and do not overlap, an offset is the end
    of at most one of them; that is why the sweep marks the instruction after a CALL, CLOSURE, CJMPz or
    CJMPnz as a leader although it leaves an offset alone that it has met before. -/

namespace LamaSM
open Lib

/-! ### The relations -/

/-- The instructions whose first operand is a label. -/
def InstructionType.takesLabel : InstructionType → Bool
  | .jmp | .cjmpz | .cjmpnz | .call | .closure => true
  | _ => false

/-- Control may go on to the next instruction. -/
def InstructionType.fallsThrough : InstructionType → Bool
  | .jmp | .end | .ret | .fail => false
  | _ => true

/-- The instructions after which a new block starts. -/
def InstructionType.endsBlock (type : InstructionType) : Bool :=
  type.takesLabel && type.fallsThrough

theorem InstructionType.endsBlock_of_takesLabel {type : InstructionType}
    (h : type.takesLabel = true) (hj : type ≠ .jmp) : type.endsBlock = true := by
  cases type <;> first | rfl | exact absurd rfl hj | cases h

namespace Analyzer

/-- The instruction at `o` has the label `t`. -/
def LabelOf (bf : Bytefile) (o t : ℕ) : Prop :=
  ∃ i : Instruction, Placed bf o i.encode ∧ i.type.takesLabel = true ∧ bf.code32 (o + 1) = .ok t

/-- The instruction at `o` is of a type `p` holds of and ends at `n`. -/
def Next (p : InstructionType → Bool) (bf : Bytefile) (o n : ℕ) : Prop :=
  ∃ i : Instruction, Placed bf o i.encode ∧ p i.type = true ∧ n = o + i.length

abbrev Falls (bf : Bytefile) : ℕ → ℕ → Prop := Next InstructionType.fallsThrough bf

/-- The successors `collect_marks` looks at. -/
def SweepEdge (bf : Bytefile) (o o' : ℕ) : Prop := LabelOf bf o o' ∨ Next (· != .jmp) bf o o'

/-- The successors control can take. -/
def FlowEdge (bf : Bytefile) (o o' : ℕ) : Prop := LabelOf bf o o' ∨ Falls bf o o'

/-- The offsets of the public symbols. -/
def Public (bf : Bytefile) (o : ℕ) : Prop :=
  ∃ i < bf.publicSymbolsNumber.toNat, bf.getPublicOffset i = .ok (o : ℤ)

abbrev Swept (bf : Bytefile) : ℕ → Prop := Reach (Public bf) (SweepEdge bf)

abbrev Reachable (bf : Bytefile) : ℕ → Prop := Reach (Public bf) (FlowEdge bf)

/-- A basic block starts at `o`. -/
def Leader (bf : Bytefile) (o : ℕ) : Prop :=
  Public bf o ∨ ∃ p, Swept bf p ∧ (LabelOf bf p o ∨ Next InstructionType.endsBlock bf p o)

/-- What the sweep meets are whole instructions inside the code that do not overlap, or bytes 0xFF. -/
structure WellSwept (bf : Bytefile) : Prop where
  size : 0 ≤ bf.codeSize
  symbols : ∀ i < bf.publicSymbolsNumber.toNat, ∃ o : ℕ, bf.getPublicOffset i = .ok (o : ℤ)
  inside : ∀ o, Swept bf o → (o : ℤ) < bf.codeSize ∧ (bf.code o = .ok 0xFF ∨
    ∃ i : Instruction, Placed bf o i.encode ∧ (o : ℤ) + i.length ≤ bf.codeSize)
  apart : ∀ (o o' : ℕ) (i i' : Instruction), Swept bf o → Swept bf o' → Placed bf o i.encode →
    Placed bf o' i'.encode → o < o' → o + i.length ≤ o'

/-! ### An instruction at an offset -/

section Edges

variable {bf : Bytefile} {o o' : ℕ} {i j : Instruction}

theorem type_eq_of_placed (hi : Placed bf o i.encode) (hj : Placed bf o j.encode) :
    i.type = j.type := by
  have h := (Instruction.typeAt hi).symm.trans (Instruction.typeAt hj)
  exact Except.ok.inj h

/-- Instructions at one offset end at one offset: the number of captured variables is read off the
    code too. -/
theorem length_eq_of_placed (hi : Placed bf o i.encode) (hj : Placed bf o j.encode) :
    i.length = j.length := by
  have htype := type_eq_of_placed hi hj
  by_cases hc : i.type = .closure
  · obtain ⟨entry, count, hargs, hcount⟩ := i.closure_args hc
    obtain ⟨entry', count', hargs', hcount'⟩ := j.closure_args (htype ▸ hc)
    have hk := Instruction.operand hi (k := 1) (w := count) (by rw [hargs]; rfl)
    have hk' := Instruction.operand hj (k := 1) (w := count') (by rw [hargs']; rfl)
    have hsame : count.toNat = count'.toNat := Except.ok.inj (hk.symm.trans hk')
    rw [Instruction.length, Instruction.length, hargs, hargs', hcount, hcount', hsame]
    rfl
  · rw [i.length_of_type hc, j.length_of_type (htype ▸ hc), htype]

theorem code_ne_of_placed (h : Placed bf o i.encode) : bf.code o ≠ .ok 0xFF := by
  intro hff
  have hop : i.opcode.toNat = 0xFF := Except.ok.inj ((show bf.code o = _ from h.1).symm.trans hff)
  have hknown := i.known
  rw [hop] at hknown
  cases hknown

/-- An instruction with a label has it in its first operand. -/
theorem label_of_placed (h : Placed bf o i.encode) (ht : 5 ≤ fixedLength i.type) :
    ∃ t, bf.code32 (o + 1) = .ok t := by
  have hlen : 0 < i.args.length := by
    have := i.fixedLength_type
    omega
  have hk := Instruction.operand h (k := 0) (w := i.args.get ⟨0, hlen⟩)
    (List.getElem?_eq_getElem hlen)
  exact ⟨(i.args.get ⟨0, hlen⟩).toNat, by simpa using hk⟩

theorem Next.eq {p q : InstructionType → Bool} {n n' : ℕ} (h : Next p bf o n)
    (h' : Next q bf o n') : n = n' := by
  obtain ⟨i, hi, -, rfl⟩ := h
  obtain ⟨j, hj, -, rfl⟩ := h'
  rw [length_eq_of_placed hi hj]

/-- The instruction at `o` settles which tests its type passes. -/
theorem Next.type {p q : InstructionType → Bool} {n n' : ℕ} (h : Next p bf o n)
    (h' : Next q bf o n') : ∃ t, p t = true ∧ q t = true := by
  obtain ⟨i, hi, hp, -⟩ := h
  obtain ⟨j, hj, hq, -⟩ := h'
  exact ⟨i.type, hp, type_eq_of_placed hi hj ▸ hq⟩

theorem Falls.next (h : Falls bf o o') : Next (· != .jmp) bf o o' := by
  obtain ⟨i, hi, hf, rfl⟩ := h
  refine ⟨i, hi, ?_, rfl⟩
  cases ht : i.type <;> rw [ht] at hf <;> first | rfl | cases hf

/-- What control can reach the sweep meets. -/
theorem Reachable.swept (h : Reachable bf o) : Swept bf o := by
  induction h with
  | start h => exact .start h
  | step _ he ih =>
    rcases he with he | he
    · exact .step ih (.inl he)
    · exact .step ih (.inr he.next)

end Edges

namespace WellSwept

variable {bf : Bytefile} {o : ℕ} (hw : WellSwept bf)

include hw

theorem lt (h : Swept bf o) : o < bf.codeSize.toNat := by
  have := (hw.inside o h).1
  omega

/-- The decoders read the instruction the sweep meets. -/
theorem decode (h : Swept bf o) (hff : bf.code o ≠ .ok 0xFF) : ∃ i : Instruction,
    Placed bf o i.encode ∧ generalByterun bf o = .ok (o + i.length, i.type) := by
  obtain ⟨i, hi, hlen⟩ := (hw.inside o h).2.resolve_left hff
  have hsize := bf.codeSize_lt
  exact ⟨i, hi, Instruction.generalByterun_eq hi (by omega)⟩

/-- An offset is the end of at most one instruction. -/
theorem pred_unique {p q : InstructionType → Bool} {a b c : ℕ} (ha : Swept bf a) (hb : Swept bf b)
    (hac : Next p bf a c) (hbc : Next q bf b c) : a = b := by
  obtain ⟨i, hi, -, hc⟩ := hac
  obtain ⟨j, hj, -, hc'⟩ := hbc
  have hilen := i.length_pos
  have hjlen := j.length_pos
  rcases Nat.lt_trichotomy a b with hlt | heq | hlt
  · have := hw.apart a b i j ha hb hi hj hlt
    omega
  · exact heq
  · have := hw.apart b a j i hb ha hj hi hlt
    omega

end WellSwept

/-! ### The sweep -/

theorem visitedAt_eq {visited : List ℕ} {i v : ℕ} (h : visited[i]? = some v) :
    visitedAt visited i = .ok v := by
  rw [visitedAt, h]
  rfl

theorem push_cases (mask bits : ℕ) {idx : ℕ} {m : LeaderMarks} (h : idx < m.visited.length) :
    (Flag m.visited mask idx ∧ push mask bits idx m = .ok m) ∨
    ∃ v, m.visited[idx]? = some v ∧ v &&& mask = 0 ∧ push mask bits idx m =
      .ok { visited := m.visited.set idx (v ||| bits), q := m.q ++ [idx] } := by
  have hv := List.getElem?_eq_getElem h
  rw [push, visitedAt_eq hv, except_ok_bind]
  by_cases hmask : m.visited[idx] &&& mask = 0
  · rw [if_pos hmask]
    exact .inr ⟨_, hv, hmask, rfl⟩
  · rw [if_neg hmask]
    exact .inl ⟨⟨_, hv, hmask⟩, rfl⟩

/-- The turns the sweep can still make. -/
def sweepTurns (m : LeaderMarks) : ℕ :=
  unflagged 2 m.visited + unflagged 4 m.visited + m.q.length

/-- The instruction at `o` has no label and ends at `n`: the sweep goes on to `n` without making it a
    leader. -/
abbrev RunsOn (bf : Bytefile) : ℕ → ℕ → Prop := Next (fun type => !type.takesLabel) bf

/-- The invariant of the sweep while the offsets of `active` are being handled. -/
structure Sweeping (bf : Bytefile) (active : List ℕ) (m : LeaderMarks) : Prop where
  length : m.visited.length = bf.codeSize.toNat
  fresh : ∀ o, ¬ Flag m.visited 1 o
  swept : WorklistInv (Public bf) (SweepEdge bf) (fun _ => True) (Flag m.visited 4)
    (fun o => o ∈ m.q ∨ o ∈ active)
  leader : ∀ o, Flag m.visited 2 o → Leader bf o ∧ Flag m.visited 4 o
  labels : ∀ o, Flag m.visited 4 o →
    (o ∈ m.q ∨ o ∈ active) ∨ ∀ t, LabelOf bf o t → Flag m.visited 2 t
  entered : ∀ o, Flag m.visited 4 o → Flag m.visited 2 o ∨ ∃ p, Swept bf p ∧ RunsOn bf p o

section Sweep

variable {bf : Bytefile} {active : List ℕ} {m : LeaderMarks} {idx : ℕ}

/-- Pushing an offset the sweep may meet, as a leader or not. -/
theorem Sweeping.push (hs : Sweeping bf active m) (hw : WellSwept bf) {mask bits : ℕ}
    (hmask : mask = 2 ∨ mask = 4) (hidx : Swept bf idx)
    (hbits : bits = 4 ∧ mask = 4 ∧ (∃ p, Swept bf p ∧ RunsOn bf p idx) ∨
      bits = 2 ||| 4 ∧ Leader bf idx) :
    ∃ m', push mask bits idx m = .ok m' ∧ Sweeping bf active m' ∧ Flag m'.visited mask idx ∧
      FlagsLE m.visited m'.visited ∧ sweepTurns m' ≤ sweepTurns m := by
  have hlt : idx < m.visited.length := hs.length ▸ hw.lt hidx
  rcases push_cases mask bits hlt with ⟨hflag, heq⟩ | ⟨v, hv, hzero, heq⟩
  · exact ⟨m, heq, hs, hflag, .refl _, Nat.le_refl _⟩
  have hmem : bits &&& mask ≠ 0 := by
    rcases hbits with ⟨rfl, rfl, -⟩ | ⟨rfl, -⟩
    · decide
    · rcases hmask with rfl | rfl <;> decide
  have hfour : bits &&& 4 ≠ 0 := by rcases hbits with ⟨rfl, -⟩ | ⟨rfl, -⟩ <;> decide
  have hone : ¬ bits &&& 1 ≠ 0 := by rcases hbits with ⟨rfl, -⟩ | ⟨rfl, -⟩ <;> decide
  have htwo : bits &&& 2 ≠ 0 → Leader bf idx := by
    rcases hbits with ⟨rfl, -⟩ | ⟨-, hl⟩
    · exact fun h => absurd rfl h
    · exact fun _ => hl
  have hflag : ∀ {b y : ℕ}, Flag (m.visited.set idx (v ||| bits)) b y ↔
      Flag m.visited b y ∨ (y = idx ∧ bits &&& b ≠ 0) := flag_set hv
  refine ⟨_, heq, ⟨?_, ?_, ?_, ?_, ?_, ?_⟩, hflag.mpr (.inr ⟨rfl, hmem⟩), flagsLE_set hv, ?_⟩
  · simpa using hs.length
  · intro o ho
    rcases hflag.mp ho with ho | ⟨-, ho⟩
    · exact hs.fresh o ho
    · exact hone ho
  · refine hs.swept.mark (fun o ho => hflag.mpr (.inl ho)) (fun o ho => ?_) (fun o ho => ?_)
      (fun o ho => ?_)
    · rcases hflag.mp ho with ho | ⟨rfl, -⟩
      · exact .inl ho
      · exact .inr ⟨hidx, .inl (by simp)⟩
    · exact ho.imp (List.mem_append_left _) id
    · rcases ho with ho | ho
      · rcases List.mem_append.mp ho with ho | ho
        · exact hflag.mpr (.inl (hs.swept.pending_marked o (.inl ho)))
        · exact hflag.mpr (.inr ⟨List.mem_singleton.mp ho, hfour⟩)
      · exact hflag.mpr (.inl (hs.swept.pending_marked o (.inr ho)))
  · intro o ho
    rcases hflag.mp ho with hold | ⟨rfl, hnew⟩
    · exact ⟨(hs.leader o hold).1, hflag.mpr (.inl (hs.leader o hold).2)⟩
    · exact ⟨htwo hnew, hflag.mpr (.inr ⟨rfl, hfour⟩)⟩
  · intro o ho
    rcases hflag.mp ho with ho | ⟨rfl, -⟩
    · rcases hs.labels o ho with hp | hl
      · exact .inl (hp.imp (List.mem_append_left _) id)
      · exact .inr fun t ht => hflag.mpr (.inl (hl t ht))
    · exact .inl (.inl (by simp))
  · intro o ho
    rcases hflag.mp ho with ho | ⟨rfl, -⟩
    · exact (hs.entered o ho).imp (fun h => hflag.mpr (.inl h)) id
    · rcases hbits with ⟨-, -, hp⟩ | ⟨rfl, -⟩
      · exact .inr hp
      · exact .inl (hflag.mpr (.inr ⟨rfl, by decide⟩))
  · have h2 : unflagged 2 (m.visited.set idx (v ||| bits)) ≤ unflagged 2 m.visited :=
      unflagged_set_le _ _ hv
    have h4 : unflagged 4 (m.visited.set idx (v ||| bits)) ≤ unflagged 4 m.visited :=
      unflagged_set_le _ _ hv
    have hnew := unflagged_set bits hv hzero hmem
    simp only [sweepTurns, List.length_append, List.length_singleton]
    rcases hmask with rfl | rfl <;> omega

/-- A turn at an instruction, by whether it has a label and goes on to the next one. -/
theorem sweepOffset_eq {i : Instruction} (hi : Placed bf idx i.encode)
    (hdec : generalByterun bf idx = .ok (idx + i.length, i.type)) :
    (i.type.takesLabel = false → sweepOffset bf idx m = push 4 4 (idx + i.length) m) ∧
    ∀ t, bf.code32 (idx + 1) = .ok t →
      (i.type = .jmp → sweepOffset bf idx m = push 2 (2 ||| 4) t m) ∧
      (i.type.endsBlock = true → sweepOffset bf idx m = (do
        let m ← push 2 (2 ||| 4) t m
        push 4 (2 ||| 4) (idx + i.length) m)) := by
  have hcode : bf.code idx = .ok i.opcode.toNat := hi.1
  have hne : i.opcode.toNat ≠ 0xFF := fun h => code_ne_of_placed hi (by rw [hcode, h])
  rw [sweepOffset, hcode, except_ok_bind, if_neg hne, hdec, except_ok_bind]
  refine ⟨fun h => ?_, fun t ht => ⟨fun h => ?_, fun h => ?_⟩⟩
  · cases htype : i.type <;> rw [htype] at h <;> first | rfl | cases h
  · rw [h, ht]
    rfl
  · rw [ht]
    cases htype : i.type <;> rw [htype] at h <;> first | rfl | cases h

theorem Sweeping.finish (hs : Sweeping bf [idx] m)
    (hsucc : ∀ o, SweepEdge bf idx o → Flag m.visited 4 o)
    (hlabel : ∀ t, LabelOf bf idx t → Flag m.visited 2 t) : Sweeping bf [] m := by
  refine { hs with swept := ?_, labels := fun o ho => ?_ }
  · refine hs.swept.finish trivial hsucc (fun o ho => ?_) fun o ho => ?_
    · exact ho.elim (fun h => .inr (.inl h)) fun h => .inl (List.mem_singleton.mp h)
    · exact ho.imp id fun h => nomatch h
  · rcases hs.labels o ho with (hq | ha) | hl
    · exact .inl (.inl hq)
    · exact .inr ((List.mem_singleton.mp ha) ▸ hlabel)
    · exact .inr hl

/-- One turn of the sweep keeps the invariant and handles the offset. -/
theorem Sweeping.turn (hs : Sweeping bf [idx] m) (hw : WellSwept bf) :
    ∃ m', sweepOffset bf idx m = .ok m' ∧ Sweeping bf [] m' ∧
      FlagsLE m.visited m'.visited ∧ sweepTurns m' ≤ sweepTurns m := by
  have hidx : Swept bf idx := hs.swept.reach idx (hs.swept.pending_marked idx (.inr (by simp)))
  by_cases hff : bf.code idx = .ok 0xFF
  · have heq : sweepOffset bf idx m = .ok m := by
      rw [sweepOffset, hff]
      rfl
    have hnone : ∀ (i : Instruction), ¬ Placed bf idx i.encode := fun i hi =>
      code_ne_of_placed hi hff
    refine ⟨m, heq, hs.finish (fun o ho => ?_) (fun t ht => ?_), .refl _, Nat.le_refl _⟩
    · rcases ho with ⟨i, hi, -⟩ | ⟨i, hi, -⟩ <;> exact absurd hi (hnone i)
    · obtain ⟨i, hi, -⟩ := ht
      exact absurd hi (hnone i)
  obtain ⟨i, hi, hdec⟩ := hw.decode hidx hff
  have htype : ∀ {j : Instruction}, Placed bf idx j.encode → j.type = i.type := fun hj =>
    type_eq_of_placed hj hi
  have hnext : ∀ {p : InstructionType → Bool} {o : ℕ}, Next p bf idx o → o = idx + i.length ∧
      p i.type = true := by
    rintro p o ⟨j, hj, hp, rfl⟩
    exact ⟨by rw [length_eq_of_placed hj hi], htype hj ▸ hp⟩
  obtain ⟨hplain, hlabel⟩ := sweepOffset_eq (m := m) hi hdec
  by_cases hl : i.type.takesLabel = true
  · obtain ⟨t, ht⟩ := label_of_placed hi (by
      cases h : i.type <;> rw [h] at hl <;> first | decide | cases hl)
    have hedge : LabelOf bf idx t := ⟨i, hi, hl, ht⟩
    have honly : ∀ {t'}, LabelOf bf idx t' → t' = t := by
      rintro t' ⟨-, -, -, ht'⟩
      exact Except.ok.inj (ht'.symm.trans ht)
    obtain ⟨hjmp, hends⟩ := hlabel t ht
    obtain ⟨m₁, h₁, hs₁, hflag₁, hle₁, hturns₁⟩ := hs.push hw (.inl rfl) (.step hidx (.inl hedge))
      (.inr ⟨rfl, .inr ⟨idx, hidx, .inl hedge⟩⟩)
    have hflag₁' := (hs₁.leader t hflag₁).2
    by_cases hj : i.type = .jmp
    · refine ⟨m₁, (hjmp hj).trans h₁, hs₁.finish (fun o ho => ?_) (fun t' ht' => ?_), hle₁, hturns₁⟩
      · rcases ho with ho | ho
        · exact honly ho ▸ hflag₁'
        · have := (hnext ho).2
          rw [hj] at this
          cases this
      · exact honly ht' ▸ hflag₁
    · have he : i.type.endsBlock = true := InstructionType.endsBlock_of_takesLabel hl hj
      have hgo : Next (· != .jmp) bf idx (idx + i.length) := ⟨i, hi, by simpa using hj, rfl⟩
      obtain ⟨m₂, h₂, hs₂, hflag₂, hle₂, hturns₂⟩ := hs₁.push hw (.inr rfl)
        (.step hidx (.inr hgo)) (.inr ⟨rfl, .inr ⟨idx, hidx, .inr ⟨i, hi, he, rfl⟩⟩⟩)
      refine ⟨m₂, ?_, hs₂.finish (fun o ho => ?_) (fun t' ht' => ?_), hle₁.trans hle₂,
        Nat.le_trans hturns₂ hturns₁⟩
      · rw [hends he, h₁]
        exact h₂
      · rcases ho with ho | ho
        · exact honly ho ▸ hle₂ 4 t hflag₁'
        · exact (hnext ho).1 ▸ hflag₂
      · exact honly ht' ▸ hle₂ 2 t hflag₁
  · have hl' : i.type.takesLabel = false := Bool.eq_false_iff.mpr hl
    have hgo : Next (· != .jmp) bf idx (idx + i.length) := by
      refine ⟨i, hi, ?_, rfl⟩
      cases h : i.type <;> rw [h] at hl' <;> first | rfl | cases hl'
    have hruns : RunsOn bf idx (idx + i.length) := ⟨i, hi, by simpa using hl', rfl⟩
    obtain ⟨m₁, h₁, hs₁, hflag₁, hle₁, hturns₁⟩ := hs.push hw (.inr rfl) (.step hidx (.inr hgo))
      (.inl ⟨rfl, rfl, idx, hidx, hruns⟩)
    have hnolabel : ∀ t, ¬ LabelOf bf idx t := by
      rintro t ⟨j, hj, hjl, -⟩
      exact hl (htype hj ▸ hjl)
    refine ⟨m₁, (hplain hl').trans h₁, hs₁.finish (fun o ho => ?_) (fun t ht => ?_), hle₁, hturns₁⟩
    · rcases ho with ho | ho
      · exact absurd ho (hnolabel o)
      · exact (hnext ho).1 ▸ hflag₁
    · exact absurd ht (hnolabel t)

/-- The sweep ends, with nothing left on the queue. -/
theorem sweepOffsets_ok {pick : List ℕ → List ℕ} (hpick : ∀ l, (pick l).Perm l)
    (hw : WellSwept bf) : ∀ {fuel : ℕ} {m : LeaderMarks}, Sweeping bf [] m → sweepTurns m < fuel →
    ∃ visited, sweepOffsets pick bf fuel m = .ok visited ∧ Sweeping bf [] ⟨visited, []⟩ ∧
      FlagsLE m.visited visited
  | 0, m, _, hfuel => absurd hfuel (Nat.not_lt_zero _)
  | fuel + 1, m, hs, hfuel => by
    rw [sweepOffsets]
    have hperm := hpick m.q
    cases hq : pick m.q with
    | nil =>
      rw [hq] at hperm
      have hnil : m.q = [] := List.nil_perm.mp hperm
      refine ⟨m.visited, rfl, ?_, .refl _⟩
      have heta : m = ⟨m.visited, []⟩ := by rw [← hnil]
      exact heta ▸ hs
    | cons idx rest =>
      rw [hq] at hperm
      have hmem : ∀ o, o ∈ m.q ↔ o = idx ∨ o ∈ rest := fun o => by
        rw [← hperm.mem_iff, List.mem_cons]
      have hpop : ∀ o, (o ∈ m.q ∨ o ∈ []) ↔ (o ∈ rest ∨ o ∈ [idx]) := fun o => by
        rw [hmem, List.mem_singleton]
        simp only [List.not_mem_nil, or_false]
        exact or_comm
      have hactive : Sweeping bf [idx] { m with q := rest } :=
        { hs with
          swept := hs.swept.mark (fun _ h => h) (fun _ h => .inl h) (fun o h => (hpop o).mp h)
            (fun o h => hs.swept.pending_marked o ((hpop o).mpr h))
          labels := fun o ho => (hs.labels o ho).imp (hpop o).mp id }
      obtain ⟨m', hturn, hs', hle, hturns⟩ := hactive.turn hw
      have hlen := hperm.length_eq
      simp only [sweepTurns, List.length_cons] at hlen hturns hfuel
      have hfuel' : sweepTurns m' < fuel := by
        rw [sweepTurns]
        omega
      obtain ⟨visited, heq, hdone, hle'⟩ := sweepOffsets_ok hpick hw hs' hfuel'
      refine ⟨visited, ?_, hdone, hle.trans hle'⟩
      rw [← heq]
      show (sweepOffset bf idx { m with q := rest } >>= _) = _
      rw [hturn, except_ok_bind]

theorem symbolOffset_eq {i o : ℕ} (h : bf.getPublicOffset i = .ok (o : ℤ)) :
    symbolOffset bf i = .ok o := by
  rw [symbolOffset, h, except_ok_bind, if_neg (by omega), Int.toNat_natCast]
  rfl

/-- The first loop puts the public symbols on the queue, as leaders. -/
theorem pushSymbols_ok (hw : WellSwept bf) : ∀ {symbols : List ℕ} {m : LeaderMarks},
    Sweeping bf [] m → (∀ i ∈ symbols, i < bf.publicSymbolsNumber.toNat) →
    (∀ o, Flag m.visited 4 o → Flag m.visited 2 o) →
    ∃ m', pushSymbols bf symbols m = .ok m' ∧ Sweeping bf [] m' ∧
      FlagsLE m.visited m'.visited ∧ sweepTurns m' ≤ sweepTurns m ∧
      ∀ i ∈ symbols, ∀ o : ℕ, bf.getPublicOffset i = .ok (o : ℤ) → Flag m'.visited 2 o
  | [], m, hs, _, _ => ⟨m, rfl, hs, .refl _, Nat.le_refl _, fun _ h => nomatch h⟩
  | i :: symbols, m, hs, hsym, hboth => by
    obtain ⟨o, ho⟩ := hw.symbols i (hsym i (List.mem_cons_self ..))
    have hpub : Public bf o := ⟨i, hsym i (List.mem_cons_self ..), ho⟩
    obtain ⟨m₁, h₁, hs₁, hflag₁, hle₁, hturns₁⟩ :=
      hs.push hw (.inr rfl) (.start hpub) (.inr ⟨rfl, .inl hpub⟩)
    have hboth₁ : ∀ x, Flag m₁.visited 4 x → Flag m₁.visited 2 x := by
      intro x hx
      rcases push_cases 4 (2 ||| 4) (hs.length ▸ hw.lt (.start hpub)) with
        ⟨-, heq⟩ | ⟨v, hv, -, heq⟩
      · obtain rfl : m = m₁ := Except.ok.inj (heq.symm.trans h₁)
        exact hboth x hx
      · obtain rfl := Except.ok.inj (heq.symm.trans h₁)
        rcases (flag_set hv).mp hx with hx | ⟨rfl, -⟩
        · exact (flag_set hv).mpr (.inl (hboth x hx))
        · exact (flag_set hv).mpr (.inr ⟨rfl, by decide⟩)
    obtain ⟨m₂, h₂, hs₂, hle₂, hturns₂, hall⟩ := pushSymbols_ok hw hs₁
      (fun j hj => hsym j (List.mem_cons_of_mem _ hj)) hboth₁
    refine ⟨m₂, ?_, hs₂, hle₁.trans hle₂, Nat.le_trans hturns₂ hturns₁, fun j hj x hx => ?_⟩
    · rw [pushSymbols, symbolOffset_eq ho, except_ok_bind, h₁, except_ok_bind, h₂]
    · rcases List.mem_cons.mp hj with rfl | hj
      · obtain rfl : o = x := by
          have := Except.ok.inj (ho.symm.trans hx)
          omega
        exact hle₂ 2 o (hboth₁ o hflag₁)
      · exact hall j hj x hx

theorem sweeping_new : Sweeping bf [] ⟨List.replicate bf.codeSize.toNat 0, []⟩ :=
  { length := List.length_replicate
    fresh := fun _ => not_flag_replicate
    swept := ⟨fun _ h => absurd h not_flag_replicate, fun _ h => (nomatch h),
      fun _ h => absurd h not_flag_replicate⟩
    leader := fun _ h => absurd h not_flag_replicate
    labels := fun _ h => absurd h not_flag_replicate
    entered := fun _ h => absurd h not_flag_replicate }

/-- When the sweep is over, the leaders are marked: an instruction after the end of a block was met
    from there, or from the end of another instruction. -/
theorem Sweeping.leaders (hw : WellSwept bf) {visited : List ℕ} (hs : Sweeping bf [] ⟨visited, []⟩)
    (hpub : ∀ o, Public bf o → Flag visited 2 o) (o : ℕ) : Flag visited 2 o ↔ Leader bf o := by
  have hnone : ∀ x, ¬ (x ∈ ([] : List ℕ) ∨ x ∈ ([] : List ℕ)) := by simp
  have hexact := hs.swept.exact (fun x hx => (hs.leader x (hpub x hx)).2) hnone
  refine ⟨fun h => (hs.leader o h).1, fun h => ?_⟩
  rcases h with h | ⟨p, hp, hlabel | hend⟩
  · exact hpub o h
  · exact (hs.labels p ((hexact p).mpr hp)).resolve_left (hnone p) o hlabel
  · have hgo : Next (· != .jmp) bf p o := by
      obtain ⟨i, hi, he, rfl⟩ := hend
      refine ⟨i, hi, ?_, rfl⟩
      cases ht : i.type <;> rw [ht] at he <;> first | rfl | cases he
    have hmet : Flag visited 4 o := (hexact o).mpr (.step hp (.inr hgo))
    refine (hs.entered o hmet).resolve_right ?_
    rintro ⟨p', hp', hruns⟩
    obtain rfl := hw.pred_unique hp hp' hend hruns
    obtain ⟨t, he, hr⟩ := hend.type hruns
    rw [InstructionType.endsBlock, Bool.and_eq_true] at he
    simp [he.1] at hr

/-- `collect_marks` ends, and marks what it meets and the leaders among it, whatever the order of its
    queue and of the public symbols. -/
theorem collectMarksBy_ok {pick : List ℕ → List ℕ} {symbols : List ℕ}
    (hpick : ∀ l, (pick l).Perm l) (hsymbols : symbols.Perm (List.range bf.publicSymbolsNumber.toNat))
    (hw : WellSwept bf) (a : Analyzer) (ha : a.visited = List.replicate bf.codeSize.toNat 0) :
    ∃ visited, collectMarksBy pick symbols bf a = .ok { a with visited } ∧
      visited.length = bf.codeSize.toNat ∧ (∀ o, ¬ Flag visited 1 o) ∧
      (∀ o, Flag visited 4 o ↔ Swept bf o) ∧ (∀ o, Flag visited 2 o ↔ Leader bf o) := by
  have hmem : ∀ i, i ∈ symbols ↔ i < bf.publicSymbolsNumber.toNat := fun i => by
    rw [hsymbols.mem_iff, List.mem_range]
  obtain ⟨m, hseed, hs, -, hturns, hsym⟩ := pushSymbols_ok hw sweeping_new
    (fun i hi => (hmem i).mp hi) (fun _ h => absurd h not_flag_replicate)
  have hbound : sweepTurns m < 2 * bf.codeSize.toNat + 1 := by
    have h2 := unflagged_le_length 2 (List.replicate bf.codeSize.toNat 0)
    have h4 := unflagged_le_length 4 (List.replicate bf.codeSize.toNat 0)
    rw [List.length_replicate] at h2 h4
    have hstart : sweepTurns ⟨List.replicate bf.codeSize.toNat 0, []⟩ ≤ 2 * bf.codeSize.toNat := by
      simp only [sweepTurns, List.length_nil]
      omega
    omega
  obtain ⟨visited, hloop, hdone, hle⟩ := sweepOffsets_ok hpick hw hs hbound
  have hpub : ∀ o, Public bf o → Flag visited 2 o := by
    rintro o ⟨i, hi, ho⟩
    exact hle 2 o (hsym i ((hmem i).mpr hi) o ho)
  refine ⟨visited, ?_, hdone.length, hdone.fresh, ?_, hdone.leaders hw hpub⟩
  · rw [collectMarksBy, ha, hseed, except_ok_bind, hloop]
    rfl
  · exact hdone.swept.exact (fun x hx => (hdone.leader x (hpub x hx)).2) (by simp)

end Sweep

end Analyzer

end LamaSM
