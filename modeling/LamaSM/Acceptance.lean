import LamaSM.Transfer
import LamaSM.Patches

/-! Which well-formed files `verify` accepts.

    A path through the code counts the operands by what the handlers use and leave, and beside them the
    CALL_STRINGs it has met in the running function: `get_new_stack` takes each of these for one more
    operand. On a well-formed file the depth the verifier works with is the sum of both
    (`OnPath.depthReach`, `onPath_of_depthReach`). So it accepts the file when this sum does not depend
    on the path and covers the operand of every ARRAY. -/

namespace LamaSM
open Lib

/-! ### Paths -/

/-- Where a path has come to: the offset, the operands there, and the CALL_STRINGs it has met since the
    running function was entered. -/
structure Point where
  offset : ℕ
  depth : ℕ
  strings : ℕ
  deriving DecidableEq, Repr

/-- What `get_new_stack` makes of the depth. -/
def Point.counted (p : Point) : ℕ := p.depth + p.strings

/-- The point at `o` after the instruction at `p`. An STA has an integer index. -/
def Point.after (bf : Bytefile) (p : Point) (type : InstructionType) (o : ℕ) : Point where
  offset := o
  depth := p.depth - need bf p.offset type true + leaves bf p.offset type true
  strings := if type = .callString then p.strings + 1 else p.strings

/-- The points control goes to after the instruction at `p`; a called function starts without
    operands. -/
def nextPoints (bf : Bytefile) (p : Point) (nxt : ℕ) (type : InstructionType) : Result (List Point) :=
  match type with
  | .cjmpz | .cjmpnz => do
    let label ← bf.code32 (p.offset + 1)
    return [p.after bf type label, p.after bf type nxt]
  | .call => do
    let label ← bf.code32 (p.offset + 1)
    return [⟨label, 0, 0⟩, p.after bf type nxt]
  | .jmp => do
    let label ← bf.code32 (p.offset + 1)
    return [p.after bf type label]
  | .end | .fail => return []
  | _ => return [p.after bf type nxt]

/-- The public symbols named main, without operands. -/
def PathStart (bf : Bytefile) (p : Point) : Prop :=
  p.depth = 0 ∧ p.strings = 0 ∧ ∃ i < bf.publicSymbolsNumber.toNat,
    bf.getPublicOffset i = .ok (p.offset : ℤ) ∧ bf.isMain i = .ok true

/-- A path goes on where there are operands enough. -/
def PathStep (bf : Bytefile) (p q : Point) : Prop :=
  ∃ nxt type l, generalByterun bf p.offset = .ok (nxt, type) ∧
    need bf p.offset type true ≤ p.depth ∧ nextPoints bf p nxt type = .ok l ∧ q ∈ l

abbrev OnPath (bf : Bytefile) : Point → Prop := Reach (PathStart bf) (PathStep bf)

/-- A path comes to the offset. -/
def Arrives (bf : Bytefile) (o : ℕ) : Prop := ∃ p, OnPath bf p ∧ p.offset = o

/-! ### Well-formed files -/

/-- The BEGIN or CBEGIN at `b` and the END at `e` delimit a function: no other one is between them. -/
structure Delimits (bf : Bytefile) (is : List Instruction) (b e : ℕ) : Prop where
  first : b ∈ starts 0 is
  last : e ∈ starts 0 is
  opens : ∃ type, bf.typeAt b = .ok type ∧ OpensFunction type
  closes : bf.typeAt e = .ok .end
  lt : b < e
  between : ∀ o ∈ starts 0 is, b < o → o < e → ∀ type, bf.typeAt o = .ok type →
    ¬ OpensFunction type ∧ type ≠ .end

/-- The instruction at `o` designates a variable: an LD, ST or LDA its operand, a CLOSURE each
    variable it captures. -/
inductive Designates (bf : Bytefile) (o : ℤ) : Designation → Prop
  | operand {type : InstructionType} {low index : ℕ} (type_eq : bf.typeAt o = .ok type)
      (access : type = .ld ∨ type = .st ∨ type = .lda) (low_eq : bf.lowBitsAt o = .ok low)
      (index_eq : bf.code32 (o + 1) = .ok index) : Designates bf o ⟨MemVar.ofByte low, index⟩
  | capture {n k : ℕ} {d : Designation} (type_eq : bf.typeAt o = .ok .closure)
      (count_eq : bf.code32 (o + 1 + 4) = .ok n) (lt : k < n)
      (capture_eq : bf.designation (o + 1 + 4 + 4 + 5 * k) = .ok d) : Designates bf o d

/-- The variable is one of a function with `nArgs` arguments and `nLocals` locals. The number of
    captured variables is declared nowhere. -/
def Designation.Declared (bf : Bytefile) (nArgs nLocals : ℕ) (d : Designation) : Prop :=
  match d.memVar with
  | .global => (d.value : ℤ) < bf.globalAreaSize
  | .local => d.value < nLocals
  | .argument => d.value < nArgs
  | .closure => True
  | .other _ => False

/-- A well-formed file. What is asked of instructions and functions is asked where paths arrive. -/
structure WellFormed (bf : Bytefile) (is : List Instruction) : Prop where
  mapped : bf.CodeMapped
  publics : ∀ i < bf.publicSymbolsNumber.toNat,
    (∃ x, bf.getPublicOffset i = .ok x) ∧ ∃ b, bf.isMain i = .ok b
  main : ∃ i < bf.publicSymbolsNumber.toNat, bf.isMain i = .ok true
  main_offset : ∀ i < bf.publicSymbolsNumber.toNat, bf.isMain i = .ok true →
    bf.getPublicOffset i = .ok 0
  /-- the code is a sequence of instructions closed by 0xFF -/
  laidOut : LaidOut bf 0 is
  /-- paths stay on these instructions; so jumps and calls stay inside the code -/
  arrives : ∀ p, OnPath bf p → p.offset ∈ starts 0 is
  /-- each is known in its low bits too; no RET -/
  complete : ∀ p, OnPath bf p → ∀ type, bf.typeAt p.offset = .ok type →
    type = .fail ∨ Complete bf p.offset type
  /-- each belongs to one function, whose BEGIN and END paths arrive at -/
  function : ∀ p, OnPath bf p →
    ∃ b e, Delimits bf is b e ∧ b ≤ p.offset ∧ p.offset ≤ e ∧ Arrives bf b ∧ Arrives bf e
  /-- a function has fewer than 2^16 arguments -/
  arguments : ∀ b e nArgs, Delimits bf is b e → Arrives bf b → bf.code32 (b + 1) = .ok nArgs →
    nArgs < 2 ^ 16
  /-- variables are below the bounds declared -/
  declared : ∀ p, OnPath bf p → ∀ b e nArgs nLocals d, Delimits bf is b e → b < p.offset →
    p.offset < e → bf.code32 (b + 1) = .ok nArgs → bf.code32 (b + 1 + 4) = .ok nLocals →
    Designates bf p.offset d → d.Declared bf nArgs nLocals
  /-- there are operands enough -/
  enough : ∀ p, OnPath bf p → ∀ type, bf.typeAt p.offset = .ok type →
    need bf p.offset type true ≤ p.depth
  /-- and as many on every path -/
  same : ∀ p q, OnPath bf p → OnPath bf q → p.offset = q.offset → p.depth = q.depth
  small : ∀ p, OnPath bf p → p.depth < 2 ^ 16

/-- As many CALL_STRINGs lead to an offset on every path. -/
def SameStrings (bf : Bytefile) : Prop :=
  ∀ p q, OnPath bf p → OnPath bf q → p.offset = q.offset → p.strings = q.strings

/-- The operand of an ARRAY, the length it tests for, is at most the depth counted there. -/
def ArraysCovered (bf : Bytefile) : Prop :=
  ∀ p n, OnPath bf p → bf.typeAt p.offset = .ok .array → bf.code32 (p.offset + 1) = .ok n →
    n ≤ p.counted

/-! ### The depth of the verifier -/

section Points

variable {bf : Bytefile} {p q : Point} {nxt : ℕ} {type : InstructionType}

/-- The verifier goes to the same offsets, with the counted depth. -/
theorem successorsOf_eq (h : type ≠ .ret) :
    successorsOf bf p.offset nxt type (p.after bf type nxt).counted =
      (nextPoints bf p nxt type).map (List.map fun q => (q.offset, (q.counted : ℤ))) := by
  have hcounted : ∀ o, (p.after bf type o).counted = (p.after bf type nxt).counted := fun _ => rfl
  cases type
  case cjmpz | cjmpnz | jmp | call =>
    rw [successorsOf, nextPoints]
    cases bf.code32 (p.offset + 1) with
    | error e => rfl
    | ok label => rfl
  case ret => exact absurd rfl h
  all_goals rfl

/-- One instruction adds at most one to the counted depth. -/
theorem after_counted_le (hcomplete : type = .fail ∨ Complete bf p.offset type)
    (henough : need bf p.offset type true ≤ p.depth) (o : ℕ) :
    (p.after bf type o).counted ≤ p.counted + 1 := by
  rcases hcomplete with rfl | hcomplete
  · exact Nat.le_succ p.counted
  obtain ⟨n, l, heff⟩ := operandEffect_of_complete (i := true) hcomplete
  obtain ⟨hn, hl⟩ := need_of_ok heff
  have hgrow := operandEffect_grow heff
  unfold Point.counted Point.after
  rw [hn] at henough ⊢
  rw [hl]
  dsimp only
  split
  · rename_i hstring
    subst hstring
    cases heff
    omega
  · omega

/-- `get_new_stack` at a complete instruction with operands enough. -/
theorem getNewStack_after (o : ℕ) (hcomplete : type = .fail ∨ Complete bf p.offset type)
    (henough : need bf p.offset type true ≤ p.depth) (hcounted : p.counted + 1 < 2 ^ 32) :
    getNewStack bf p.counted p.offset type = .ok (p.after bf type o).counted := by
  rcases hcomplete with rfl | hcomplete
  · rfl
  obtain ⟨n, l, heff⟩ := operandEffect_of_complete (i := true) hcomplete
  obtain ⟨hn, hl⟩ := need_of_ok heff
  rw [hn] at henough
  unfold Point.counted at hcounted ⊢
  unfold Point.after
  rw [hn, hl]
  dsimp only
  by_cases hstring : type = .callString
  · subst hstring
    cases heff
    rw [if_pos rfl, getNewStack]
    refine congrArg Except.ok ?_
    have hsum : ((p.depth + p.strings : ℕ) : ℤ) + 1 = ((p.depth - 1 + 1 + (p.strings + 1) : ℕ) : ℤ) := by
      omega
    rw [hsum, toU32_of_lt (by omega)]
  · rw [if_neg hstring, getNewStack_eq hcomplete heff (by omega) hcounted hstring fun _ => rfl]
    refine congrArg Except.ok ?_
    omega

end Points

/-- The depth counted at `p` and the one behind its instruction are below 2^31. -/
structure Fits (bf : Bytefile) (p : Point) : Prop where
  here : p.counted < 2 ^ 31
  after : ∀ nxt type, generalByterun bf p.offset = .ok (nxt, type) →
    (p.after bf type nxt).counted < 2 ^ 31

section Depths

variable {bf : Bytefile} {is : List Instruction} {p : Point} {nxt : ℕ} {type : InstructionType}

theorem WellFormed.completeAt (h : WellFormed bf is) (hp : OnPath bf p)
    (hdec : generalByterun bf p.offset = .ok (nxt, type)) :
    (type = .fail ∨ Complete bf p.offset type) ∧ need bf p.offset type true ≤ p.depth := by
  have htype := (generalByterun_typeAt hdec).1
  exact ⟨h.complete p hp type htype, h.enough p hp type htype⟩

/-- The successors `collect_marks` takes are the next points, with the counted depth. -/
theorem WellFormed.successors_eq (h : WellFormed bf is) (hp : OnPath bf p) (hfits : Fits bf p)
    (hdec : generalByterun bf p.offset = .ok (nxt, type)) :
    successors bf p.offset p.counted =
      (nextPoints bf p nxt type).map (List.map fun q => (q.offset, (q.counted : ℤ))) := by
  obtain ⟨hcomplete, henough⟩ := h.completeAt hp hdec
  have hhere := hfits.here
  have hafter := hfits.after nxt type hdec
  have hret : type ≠ .ret := by
    rintro rfl
    exact hcomplete.elim (fun hf => nomatch hf) id
  have hnew := getNewStack_after nxt hcomplete henough (by omega)
  rw [successors, hdec, except_ok_bind, toU32_of_lt (by omega)]
  dsimp only
  rw [hnew, except_ok_bind, toI32_of_lt hafter, successorsOf_eq hret]

theorem PathStart.depthStart (h : PathStart bf p) : DepthStart bf (p.offset, (p.counted : ℤ)) := by
  obtain ⟨hdepth, hstrings, hmain⟩ := h
  refine ⟨?_, hmain⟩
  show ((p.depth + p.strings : ℕ) : ℤ) = 0
  rw [hdepth, hstrings]
  rfl

/-- The verifier follows every path, with the counted depth. -/
theorem OnPath.depthReach (h : WellFormed bf is)
    (hfits : ∀ p, OnPath bf p → DepthReach bf (p.offset, p.counted) → Fits bf p) (hp : OnPath bf p) :
    DepthReach bf (p.offset, p.counted) := by
  induction hp with
  | start hp => exact .start hp.depthStart
  | @step p q hp hstep ih =>
    obtain ⟨nxt, type, l, hdec, -, hl, hq⟩ := hstep
    refine .step ih ⟨l.map fun q => (q.offset, (q.counted : ℤ)), ?_, List.mem_map.mpr ⟨q, hq, rfl⟩⟩
    rw [h.successors_eq hp (hfits p hp ih) hdec, hl]
    rfl

/-- And it follows no other. -/
theorem onPath_of_depthReach (h : WellFormed bf is)
    (hfits : ∀ p, OnPath bf p → DepthReach bf (p.offset, p.counted) → Fits bf p) {a : ℕ × ℤ}
    (ha : DepthReach bf a) : ∃ p, OnPath bf p ∧ a = (p.offset, (p.counted : ℤ)) := by
  induction ha with
  | @start a ha =>
    obtain ⟨hdepth, hmain⟩ := ha
    exact ⟨⟨a.1, 0, 0⟩, .start ⟨rfl, rfl, hmain⟩, Prod.ext rfl hdepth⟩
  | @step a b ha hstep ih =>
    obtain ⟨p, hp, rfl⟩ := ih
    obtain ⟨l, hl, hb⟩ := hstep
    obtain ⟨⟨nxt, type⟩, hdec, -⟩ := except_bind_ok.mp hl
    obtain ⟨-, henough⟩ := h.completeAt hp hdec
    rw [h.successors_eq hp (hfits p hp ha) hdec] at hl
    cases hnext : nextPoints bf p nxt type with
    | error e =>
      rw [hnext] at hl
      cases hl
    | ok qs =>
      rw [hnext] at hl
      cases hl
      obtain ⟨q, hq, rfl⟩ := List.mem_map.mp hb
      exact ⟨q, .step hp ⟨nxt, type, qs, hdec, henough, hnext, hq⟩, rfl⟩

/-- Control goes to the point after the instruction, or to a called function. -/
theorem nextPoints_mem {q : Point} {l : List Point} (hl : nextPoints bf p nxt type = .ok l)
    (hq : q ∈ l) : (∃ o, q = p.after bf type o) ∨ ∃ o, q = ⟨o, 0, 0⟩ := by
  cases type
  case cjmpz | cjmpnz | call =>
    obtain ⟨label, -, hl⟩ := except_bind_ok.mp hl
    cases hl
    rcases List.mem_cons.mp hq with rfl | hq
    · first
      | exact .inl ⟨_, rfl⟩
      | exact .inr ⟨_, rfl⟩
    · exact .inl ⟨_, List.mem_singleton.mp hq⟩
  case jmp =>
    obtain ⟨label, -, hl⟩ := except_bind_ok.mp hl
    cases hl
    exact .inl ⟨_, List.mem_singleton.mp hq⟩
  case «end» | fail =>
    cases hl
    cases hq
  all_goals
    cases hl
    exact .inl ⟨_, List.mem_singleton.mp hq⟩

/-- Counted depths that do not depend on the path are below the number of offsets. -/
theorem WellFormed.counted_lt (h : WellFormed bf is) (hstrings : SameStrings bf) (hp : OnPath bf p) :
    p.counted < bf.codeSize.toNat := by
  refine Reach.height_lt Point.counted Point.offset (fun p hstart => ?_) (fun p q hp hstep => ?_)
    (fun p hp => ?_) (fun p q hp hq hoffset => ?_) hp
  · obtain ⟨hdepth, hzero, -⟩ := hstart
    rw [Point.counted, hdepth, hzero]
  · obtain ⟨nxt, type, l, hdec, henough, hl, hq⟩ := hstep
    rcases nextPoints_mem hl hq with ⟨o, rfl⟩ | ⟨o, rfl⟩
    · exact after_counted_le (h.completeAt hp hdec).1 henough o
    · exact Nat.zero_le _
  · have hle : p.offset ≤ finish 0 is :=
      sweepOffsets_le (List.mem_append_left _ (h.arrives p hp))
    have hlt := h.laidOut.finish_lt
    omega
  · rw [Point.counted, Point.counted, h.same p q hp hq hoffset, hstrings p q hp hq hoffset]

theorem WellFormed.fits (h : WellFormed bf is) (hstrings : SameStrings bf) (hp : OnPath bf p) :
    Fits bf p := by
  have hlt := h.counted_lt hstrings hp
  have hsize := bf.codeSize_lt
  refine ⟨by omega, fun nxt type hdec => ?_⟩
  obtain ⟨hcomplete, henough⟩ := h.completeAt hp hdec
  have hle := after_counted_le hcomplete henough nxt
  omega

/-- The instruction at an offset a path comes to lies in the code as it was laid out. -/
theorem WellFormed.instruction (h : WellFormed bf is) (hp : OnPath bf p) :
    ∃ i : Instruction, Placed bf p.offset i.encode ∧ p.offset + i.length ≤ finish 0 is ∧
      generalByterun bf p.offset = .ok (p.offset + i.length, i.type) := by
  obtain ⟨i, hplaced, hend, -⟩ := starts_placed h.laidOut (h.arrives p hp)
  have hle := sweepOffsets_le hend
  have hlt := h.laidOut.finish_lt
  have hsize := bf.codeSize_lt
  exact ⟨i, hplaced, hle, Instruction.generalByterun_eq hplaced (by omega)⟩

/-- The test of the argument number. -/
theorem WellFormed.checkArgNumber_eq (h : WellFormed bf is) (harrays : ArraysCovered bf)
    (hp : OnPath bf p) (hcounted : p.counted < 2 ^ 32)
    (hdec : generalByterun bf p.offset = .ok (nxt, type)) :
    checkArgNumber bf p.offset p.counted type = .ok () := by
  have check : ∀ n : ℕ, n ≤ p.counted → (if toU32 p.counted < n then throw (Fault.runtimeError
      s!"argument number of instruction at offset {p.offset} is too large")
      else (pure () : Result Unit)) = .ok () := by
    intro n hn
    rw [toU32_of_lt hcounted, if_neg (by omega)]
    rfl
  have enough : ∀ {n m : ℕ}, operandEffect bf p.offset type true = .ok (n, 1) → m ≤ n →
      m ≤ p.counted := by
    intro n m heff hm
    have hneed := (h.completeAt hp hdec).2
    rw [(need_of_ok heff).1] at hneed
    unfold Point.counted
    omega
  obtain ⟨hcomplete, -⟩ := h.completeAt hp hdec
  rcases hcomplete with rfl | hcomplete
  · rfl
  cases type
  case array =>
    obtain ⟨i, hplaced, -, hdec'⟩ := h.instruction hp
    rw [hdec] at hdec'
    obtain ⟨a, ha⟩ := i.args_one (by rw [← (Prod.mk.inj (Except.ok.inj hdec')).2]; rfl)
    have hn := Instruction.operand hplaced (k := 0) (w := a) (by rw [ha]; rfl)
    rw [show (p.offset : ℤ) + 1 + 4 * (0 : ℕ) = p.offset + 1 by omega] at hn
    rw [checkArgNumber, hn]
    exact check _ (harrays p _ hp (generalByterun_typeAt hdec).1 hn)
  case callc =>
    obtain ⟨n, hn⟩ := hcomplete
    rw [checkArgNumber, hn]
    exact check n (enough (n := n + 1) (by rw [operandEffect, hn]; rfl) (Nat.le_succ n))
  case sexp =>
    obtain ⟨n, hn, hwrap⟩ := hcomplete
    rw [checkArgNumber, hn]
    refine check n (enough (n := n) ?_ (Nat.le_refl n))
    rw [operandEffect, hn, except_ok_bind, if_pos hwrap]
    rfl
  case call =>
    obtain ⟨n, hn⟩ := hcomplete
    rw [checkArgNumber, hn]
    exact check n (enough (n := n) (by rw [operandEffect, hn]; rfl) (Nat.le_refl n))
  all_goals rfl

/-- The tests `collect_marks` makes on the way. -/
theorem WellFormed.passes (h : WellFormed bf is) (hstrings : SameStrings bf)
    (harrays : ArraysCovered bf) (hp : OnPath bf p) : Passes bf (p.offset, (p.counted : ℤ)) := by
  have hfits := h.fits hstrings hp
  have hhere := hfits.here
  obtain ⟨i, -, -, hdec⟩ := h.instruction hp
  obtain ⟨hcomplete, henough⟩ := h.completeAt hp hdec
  refine ⟨_, _, (p.after bf i.type (p.offset + i.length)).counted, hdec,
    h.checkArgNumber_eq harrays hp (by omega) hdec, ?_, ?_⟩
  · rw [toU32_of_lt (by omega)]
    exact getNewStack_after _ hcomplete henough (by omega)
  · rw [toI32_of_lt (hfits.after _ _ hdec)]
    exact Int.natCast_nonneg _

/-- Everything `collect_marks` reads lies inside. -/
theorem WellFormed.reachesInside (h : WellFormed bf is)
    (hpaths : ∀ a, DepthReach bf a → ∃ p, OnPath bf p ∧ a = (p.offset, (p.counted : ℤ))) :
    ReachesInside bf := by
  have hfinish := h.laidOut.finish_lt
  refine ⟨by omega, h.mapped, h.publics, fun i hi x hx hmain => ?_, fun a ha => ?_⟩
  · have hzero := h.main_offset i hi hmain
    rw [hx] at hzero
    exact Int.le_of_eq (Except.ok.inj hzero).symm
  · obtain ⟨p, hp, rfl⟩ := hpaths a ha
    obtain ⟨i, hplaced, hle, -⟩ := h.instruction hp
    have hpos := i.length_pos
    refine ⟨show (p.offset : ℤ) < bf.codeSize by omega, fun t ht => ?_⟩
    dsimp only at ht ⊢
    rw [Instruction.typeAt hplaced] at ht
    rw [← Except.ok.inj ht, i.fixedLength_type]
    have hlength : i.length = 1 + 4 * i.args.length + 5 * i.captures.length := rfl
    omega

/-- When the counted depth does not depend on the path and covers every ARRAY, `collect_marks` returns,
    and has marked where paths arrive. -/
theorem WellFormed.collectMarks_returns (h : WellFormed bf is) (hstrings : SameStrings bf)
    (harrays : ArraysCovered bf) : ∃ visited, collectMarks bf = .ok visited ∧
      (visited.length : ℤ) = bf.codeSize ∧
        ∀ o, (∃ d, visited[o]? = some d ∧ d ≠ -1) ↔ Arrives bf o := by
  have hpaths : ∀ a, DepthReach bf a → ∃ p, OnPath bf p ∧ a = (p.offset, (p.counted : ℤ)) :=
    fun a ha => onPath_of_depthReach h (fun p hp _ => h.fits hstrings hp) ha
  have hreturns : ∃ visited, collectMarksBy id bf = .ok visited :=
    (collectMarksBy_returns (h.reachesInside hpaths) List.Perm.refl).mpr
      ⟨fun a ha => ?_, fun o d d' hd hd' => ?_⟩
  · obtain ⟨visited, hv⟩ := hreturns
    have hexact := collectMarksBy_ok List.Perm.refl hv
    refine ⟨visited, hv, hexact.length, fun o => ⟨?_, ?_⟩⟩
    · rintro ⟨d, hd⟩
      obtain ⟨p, hp, heq⟩ := hpaths _ ((hexact.marked o d).mp hd)
      exact ⟨p, hp, (congrArg Prod.fst heq).symm⟩
    · rintro ⟨p, hp, rfl⟩
      exact ⟨_, (hexact.marked _ _).mpr (hp.depthReach h fun p hp _ => h.fits hstrings hp)⟩
  · obtain ⟨p, hp, rfl⟩ := hpaths a ha
    exact h.passes hstrings harrays hp
  · obtain ⟨p, hp, heq⟩ := hpaths _ hd
    obtain ⟨q, hq, heq'⟩ := hpaths _ hd'
    obtain ⟨rfl, rfl⟩ := Prod.mk.inj heq
    obtain ⟨hoffset, rfl⟩ := Prod.mk.inj heq'
    rw [Point.counted, Point.counted, h.same p q hp hq hoffset, hstrings p q hp hq hoffset]

/-- A file `collect_marks` accepts has both properties. -/
theorem WellFormed.of_collectMarks (h : WellFormed bf is) {visited : List ℤ}
    (hv : collectMarks bf = .ok visited) : SameStrings bf ∧ ArraysCovered bf := by
  have hexact := collectMarksBy_ok List.Perm.refl hv
  have hfits : ∀ p, OnPath bf p → DepthReach bf (p.offset, p.counted) → Fits bf p := by
    intro p hp hreach
    have hhere : p.counted < 2 ^ 31 := by
      have := (hexact.nonneg _ hreach).2
      dsimp only at this
      omega
    refine ⟨hhere, fun nxt type hdec => ?_⟩
    obtain ⟨_, _, n, hdec', -, hnew, hpos⟩ := hexact.passes _ hreach
    rw [hdec] at hdec'
    cases hdec'
    obtain ⟨hcomplete, henough⟩ := h.completeAt hp hdec
    have hle := after_counted_le hcomplete henough nxt
    dsimp only at hnew
    rw [toU32_of_lt (by omega), getNewStack_after nxt hcomplete henough (by omega)] at hnew
    cases hnew
    unfold toI32 at hpos
    split at hpos <;> omega
  have hreach : ∀ p, OnPath bf p → DepthReach bf (p.offset, (p.counted : ℤ)) :=
    fun p hp => OnPath.depthReach h hfits hp
  refine ⟨fun p q hp hq hoffset => ?_, fun p n hp htype hn => ?_⟩
  · have hq' := hreach q hq
    rw [← hoffset] at hq'
    have hcounted := hexact.unique (hreach p hp) hq'
    have hdepth := h.same p q hp hq hoffset
    unfold Point.counted at hcounted
    omega
  · obtain ⟨nxt, type, -, hdec, hcheck, -⟩ := hexact.passes _ (hreach p hp)
    have hhere := (hfits p hp (hreach p hp)).here
    have htype' := (generalByterun_typeAt hdec).1
    dsimp only at htype' hcheck
    rw [htype] at htype'
    cases htype'
    rw [checkArgNumber, hn, except_ok_bind, toU32_of_lt (by omega)] at hcheck
    dsimp only at hcheck
    split at hcheck
    · cases hcheck
    · omega

end Depths

/-! ### The second pass -/

/-- The pass has come to `o`. A function that `o` lies behind the BEGIN of and not behind the END of is
    the one opened last, and nothing from its BEGIN on is written yet. -/
structure InFunction (bf : Bytefile) (is : List Instruction) (o : ℕ) (st : Sweep) : Prop where
  ahead : Ahead bf o st
  globals : st.bf.globalAreaSize = bf.globalAreaSize
  opened : ∀ b e, Delimits bf is b e → Arrives bf b → b < o → o ≤ e →
    (∃ rest, st.beginOffsets = b :: rest) ∧ Agree b bf st.bf

section Checks

variable {bf : Bytefile} {is : List Instruction} {o : ℕ} {st : Sweep} {nArgs nLocals : ℕ}

theorem validateVariable_eq {bf' : Bytefile} {d : Designation} (hd : d.Declared bf nArgs nLocals)
    (hglobals : bf'.globalAreaSize = bf.globalAreaSize) :
    validateVariable bf' d.memVar d.value nArgs nLocals = .ok () := by
  unfold Designation.Declared at hd
  cases hvar : d.memVar <;> rw [hvar] at hd <;> dsimp only at hd
  case global =>
    have hlt := bf.globalAreaSize_lt
    have hsize : d.value < toU32 bf'.globalAreaSize := by
      rw [hglobals]
      unfold toU32
      omega
    rw [validateVariable, if_neg (by omega)]
    rfl
  case «local» | argument =>
    rw [validateVariable, if_neg (by omega)]
    rfl
  case closure => rfl

/-- The captured variables of a CLOSURE pass when each is declared. -/
theorem validateDesignations_eq {bf' : Bytefile}
    (hglobals : bf'.globalAreaSize = bf.globalAreaSize) : ∀ (n : ℕ) (ptr : ℤ),
      (∀ k < n, ∃ d, bf'.designation (ptr + 5 * k) = .ok d ∧ d.Declared bf nArgs nLocals) →
        validateDesignations bf' nArgs nLocals n ptr = .ok ()
  | 0, _, _ => rfl
  | n + 1, ptr, h => by
    obtain ⟨d, hd, hdeclared⟩ := h 0 (Nat.succ_pos n)
    rw [show ptr + 5 * (0 : ℕ) = ptr by omega] at hd
    have hrest : ∀ k < n, ∃ d, bf'.designation (ptr + 5 + 5 * k) = .ok d ∧
        d.Declared bf nArgs nLocals := by
      intro k hk
      rw [show ptr + 5 + 5 * (k : ℤ) = ptr + 5 * (k + 1 : ℕ) by omega]
      exact h (k + 1) (Nat.succ_lt_succ hk)
    rw [validateDesignations, hd, except_ok_bind, validateVariable_eq hdeclared hglobals,
      except_ok_bind]
    exact validateDesignations_eq hglobals n (ptr + 5) hrest

/-- The words of an operand behind the place up to which the code may have changed. -/
theorem Agree.code32 {bf' : Bytefile} {a k : ℤ} (h : Agree a bf bf') (hk : a ≤ k) :
    bf'.code32 k = bf.code32 k :=
  code32_congr fun j h0 _ => h.code (k + j) (by omega)

theorem Agree.designation {bf' : Bytefile} {a k : ℤ} (h : Agree a bf bf') (hk : a ≤ k) :
    bf'.designation k = bf.designation k := by
  rw [Bytefile.designation, Bytefile.designation, h.code k hk, h.code32 (by omega)]

theorem Agree.code16 {bf' : Bytefile} {a k : ℤ} (h : Agree a bf bf') (hk : a ≤ k) :
    bf'.code16 k = bf.code16 k := by
  have hlow : bf'.byte (bf'.codePtr + k) = bf.byte (bf.codePtr + k) := h.code k hk
  have hhigh : bf'.byte (bf'.codePtr + (k + 1)) = bf.byte (bf.codePtr + (k + 1)) :=
    h.code (k + 1) (by omega)
  rw [Bytefile.code16, Bytefile.code16, Bytefile.uint16, Bytefile.uint16, Int.add_assoc, hlow, hhigh,
    ← Int.add_assoc]

/-- Captured variables laid out one after the other. -/
theorem Placed.designations : ∀ {cs : List (UInt8 × UInt32)} {a : ℤ},
    Placed bf a (cs.flatMap Instruction.captureBytes) → ∀ {k : ℕ} {c : UInt8 × UInt32}, cs[k]? = some c →
      bf.designation (a + 5 * k) = .ok ⟨MemVar.ofByte c.1.toNat, c.2.toNat⟩
  | [], _, _, _, _, hk => nomatch hk
  | c' :: cs, a, h, k, c, hk => by
    rw [List.flatMap_cons] at h
    cases k with
    | zero =>
      cases hk
      rw [show a + 5 * (0 : ℕ) = a by omega]
      exact h.designation
    | succ k =>
      rw [show a + 5 * ((k + 1 : ℕ) : ℤ) = a + (Instruction.captureBytes c').length + 5 * k by
        simp only [Instruction.captureBytes, operandBytes, List.length_cons, List.length_nil]
        omega]
      exact (placed_append.mp h).2.designations hk

/-- A BEGIN declares its numbers of arguments and locals. -/
theorem opens_operands (hl : LaidOut bf 0 is) {b : ℕ} (hb : b ∈ starts 0 is)
    {type : InstructionType} (htype : bf.typeAt b = .ok type) (hopens : OpensFunction type) :
    ∃ nArgs nLocals, bf.code32 (b + 1) = .ok nArgs ∧ bf.code32 (b + 1 + 4) = .ok nLocals := by
  obtain ⟨i, hplaced, -, -⟩ := starts_placed hl hb
  have hi : i.type = type := Except.ok.inj ((Instruction.typeAt hplaced).symm.trans htype)
  obtain ⟨x, y, hxy⟩ := i.args_two (by rcases hopens with h | h <;> rw [hi, h] <;> rfl)
  have hx := Instruction.operand hplaced (k := 0) (w := x) (by rw [hxy]; rfl)
  have hy := Instruction.operand hplaced (k := 1) (w := y) (by rw [hxy]; rfl)
  exact ⟨x.toNat, y.toNat, by simpa using hx, by simpa using hy⟩

/-- The upper half of a small operand is zero. -/
theorem upper_zero {k : ℤ} {w : ℕ} (h : bf.code32 k = .ok w) (hw : w < 2 ^ 16) :
    bf.code16 (k + 2) = .ok 0 := by
  obtain ⟨low, high, hlow, hhigh, rfl⟩ := Bytefile.uint32_ok h
  have hzero : high = 0 := by
    have := Bytefile.uint16_lt hlow
    omega
  rw [← hzero, Bytefile.code16, ← Int.add_assoc]
  exact hhigh

/-- An instruction that is no BEGIN, CBEGIN or END lies inside its function. -/
theorem WellFormed.inside (h : WellFormed bf is) {p : Point} (hp : OnPath bf p)
    {type : InstructionType} (htype : bf.typeAt p.offset = .ok type) (hopens : ¬ OpensFunction type)
    (hend : type ≠ .end) :
    ∃ b e, Delimits bf is b e ∧ Arrives bf b ∧ b < p.offset ∧ p.offset < e := by
  obtain ⟨b, e, hdel, hb, he, harrives, -⟩ := h.function p hp
  refine ⟨b, e, hdel, harrives, Nat.lt_of_le_of_ne hb fun heq => ?_, Nat.lt_of_le_of_ne he fun heq => ?_⟩
  · obtain ⟨type', htype', hopens'⟩ := hdel.opens
    rw [heq, htype] at htype'
    cases htype'
    exact hopens hopens'
  · have hcloses := hdel.closes
    rw [← heq, htype] at hcloses
    cases hcloses
    exact hend rfl

/-- An END a path comes to closes its function. -/
theorem WellFormed.closes (h : WellFormed bf is) {p : Point} (hp : OnPath bf p)
    (htype : bf.typeAt p.offset = .ok .end) : ∃ b, Delimits bf is b p.offset ∧ Arrives bf b := by
  obtain ⟨b, e, hdel, hb, he, harrives, -⟩ := h.function p hp
  have hne : b ≠ p.offset := by
    intro heq
    obtain ⟨type, htype', hopens⟩ := hdel.opens
    rw [heq, htype] at htype'
    cases htype'
    rcases hopens with hopens | hopens <;> cases hopens
  have heq : p.offset = e := by
    by_contra hlt
    exact (hdel.between p.offset (h.arrives p hp) (by omega) (by omega) .end htype).2 rfl
  exact ⟨b, heq ▸ hdel, harrives⟩

/-- The function a variable is looked up in: its BEGIN is the last one opened, with the numbers it
    declares. -/
theorem InFunction.variables (h : WellFormed bf is) {p : Point} (hp : OnPath bf p)
    (hst : InFunction bf is p.offset st) {type : InstructionType}
    (htype : bf.typeAt p.offset = .ok type) (hopens : ¬ OpensFunction type) (hend : type ≠ .end) :
    ∃ b nArgs nLocals, st.back = .ok b ∧ st.bf.code32 (b + 1) = .ok nArgs ∧
      st.bf.code32 (b + 1 + 4) = .ok nLocals ∧
      ∀ d, Designates bf p.offset d → d.Declared bf nArgs nLocals := by
  obtain ⟨b, e, hdel, harrives, hb, he⟩ := h.inside hp htype hopens hend
  obtain ⟨⟨rest, hrest⟩, hagree⟩ := hst.opened b e hdel harrives hb (Nat.le_of_lt he)
  obtain ⟨type', htype', hopens'⟩ := hdel.opens
  obtain ⟨nArgs, nLocals, hargs, hlocals⟩ := opens_operands h.laidOut hdel.first htype' hopens'
  refine ⟨b, nArgs, nLocals, ?_, ?_, ?_, fun d hd =>
    h.declared p hp b e nArgs nLocals d hdel hb he hargs hlocals hd⟩
  · rw [Sweep.back, hrest]
    rfl
  · rw [hagree.code32 (by omega), hargs]
  · rw [hagree.code32 (by omega), hlocals]

/-- The target of a jump or call is on a path. -/
theorem WellFormed.target (h : WellFormed bf is) {p : Point} (hp : OnPath bf p)
    {type : InstructionType} (htype : bf.typeAt p.offset = .ok type)
    (hjump : type = .call ∨ type = .jmp ∨ type = .cjmpz ∨ type = .cjmpnz) :
    ∃ jump : ℕ, bf.code32 (p.offset + 1) = .ok jump ∧ (jump : ℤ) < bf.codeSize := by
  obtain ⟨i, hplaced, -, hdec⟩ := h.instruction hp
  have hi : i.type = type := Except.ok.inj ((Instruction.typeAt hplaced).symm.trans htype)
  rw [hi] at hdec
  have henough := (h.completeAt hp hdec).2
  have hlen : ∃ jump : ℕ, bf.code32 (p.offset + 1) = .ok jump := by
    have hpos : 0 < i.args.length := by
      have hfixed := i.fixedLength_type
      rw [hi] at hfixed
      rcases hjump with rfl | rfl | rfl | rfl <;> simp only [fixedLength] at hfixed <;> omega
    have hk := Instruction.operand hplaced (k := 0) (List.getElem?_eq_getElem hpos)
    exact ⟨_, by simpa using hk⟩
  obtain ⟨jump, hread⟩ := hlen
  have hnext : ∃ q l, nextPoints bf p (p.offset + i.length) type = .ok l ∧ q ∈ l ∧ q.offset = jump := by
    rcases hjump with rfl | rfl | rfl | rfl <;>
    · rw [nextPoints, hread]
      exact ⟨_, _, rfl, List.mem_cons_self, rfl⟩
  obtain ⟨q, l, hl, hq, rfl⟩ := hnext
  have hmem := h.arrives q (.step hp ⟨_, type, l, hdec, henough, hl, hq⟩)
  have hle := sweepOffsets_le (List.mem_append_left [finish 0 is] hmem)
  have hlt := h.laidOut.finish_lt
  exact ⟨q.offset, hread, by omega⟩

/-- The checks of a marked instruction pass. -/
theorem InFunction.checks (h : WellFormed bf is) {p : Point} (hp : OnPath bf p)
    (hst : InFunction bf is p.offset st) {type : InstructionType}
    (htype : bf.typeAt p.offset = .ok type) : ∃ st', sweepChecks type st = .ok st' := by
  have hoffset : st.symbolOffset = p.offset := hst.ahead.symbolOffset
  have hagree := hst.ahead.agree
  have jump : type = .call ∨ type = .jmp ∨ type = .cjmpz ∨ type = .cjmpnz →
      ∃ n, st.bf.code32 (st.symbolOffset + 1) = .ok n ∧ ¬ toU32 st.bf.codeSize ≤ n := by
    intro hjump
    obtain ⟨n, hn, hlt⟩ := h.target hp htype hjump
    have hsize := bf.codeSize_lt
    refine ⟨n, by rw [hoffset, hagree.code32 (by omega), hn], ?_⟩
    rw [hagree.codeSize]
    unfold toU32
    omega
  have access : type = .ld ∨ type = .st ∨ type = .lda → ∃ st', sweepChecks .ld st = .ok st' := by
    intro haccess
    obtain ⟨i, hplaced, -, -⟩ := h.instruction hp
    have hi : i.type = type := Except.ok.inj ((Instruction.typeAt hplaced).symm.trans htype)
    obtain ⟨b, nArgs, nLocals, hback, hargs, hlocals, hdeclared⟩ := hst.variables h hp htype
      (by rcases haccess with rfl | rfl | rfl <;> rintro (hc | hc) <;> cases hc)
      (by rcases haccess with rfl | rfl | rfl <;> decide)
    obtain ⟨x, hx⟩ := i.args_one (by rw [hi]; rcases haccess with rfl | rfl | rfl <;> rfl)
    have hindex := Instruction.operand hplaced (k := 0) (w := x) (by rw [hx]; rfl)
    rw [show (p.offset : ℤ) + 1 + 4 * (0 : ℕ) = p.offset + 1 by omega] at hindex
    have hlow := Instruction.lowBitsAt hplaced
    have hlow' : st.bf.lowBitsAt p.offset = .ok (lowBits i.opcode.toNat) := by
      rw [← hlow, Bytefile.lowBitsAt, Bytefile.lowBitsAt, hagree.code _ (Int.le_refl _)]
    have hvalid := validateVariable_eq (hdeclared _ (.operand htype haccess hlow hindex)) hst.globals
    rw [sweepChecks, hback, except_ok_bind, hargs, except_ok_bind, hlocals, except_ok_bind, hoffset,
      hagree.code32 (by omega), hindex, except_ok_bind, hlow', except_ok_bind, hvalid]
    exact ⟨st, rfl⟩
  cases type
  case «end» =>
    obtain ⟨b, hdel, harrives⟩ := h.closes hp htype
    obtain ⟨⟨rest, hrest⟩, hagree'⟩ := hst.opened b p.offset hdel harrives hdel.lt (Nat.le_refl _)
    obtain ⟨type', htype', hopens⟩ := hdel.opens
    obtain ⟨nArgs, nLocals, hargs, -⟩ := opens_operands h.laidOut hdel.first htype' hopens
    have hzero := upper_zero hargs (h.arguments b p.offset nArgs hdel harrives hargs)
    rw [sweepChecks, Sweep.back, hrest]
    dsimp only
    rw [except_pure_ok.mpr rfl, except_ok_bind, hagree'.code16 (by omega), hzero, except_ok_bind,
      if_neg (by decide)]
    exact ⟨_, rfl⟩
  case ld => exact access (.inl rfl)
  case st => exact access (.inr (.inl rfl))
  case lda => exact access (.inr (.inr rfl))
  case call | jmp | cjmpz | cjmpnz =>
    obtain ⟨n, hn, hlt⟩ := jump (by simp)
    rw [sweepChecks, hn, except_ok_bind, if_neg hlt]
    exact ⟨st, rfl⟩
  case closure =>
    obtain ⟨i, hplaced, -, -⟩ := h.instruction hp
    have hi : i.type = .closure := Except.ok.inj ((Instruction.typeAt hplaced).symm.trans htype)
    obtain ⟨b, nArgs, nLocals, hback, hargs, hlocals, hdeclared⟩ := hst.variables h hp htype
      (by rintro (hc | hc) <;> cases hc) (by decide)
    obtain ⟨entry, count, hpair, hcount⟩ := i.closure_args hi
    have hn := Instruction.operand hplaced (k := 1) (w := count) (by rw [hpair]; rfl)
    have hcaptured := Instruction.captured hplaced
    rw [show (p.offset : ℤ) + 1 + 4 * (1 : ℕ) = p.offset + 1 + 4 by omega] at hn
    rw [hpair, show (p.offset : ℤ) + 1 + 4 * (([entry, count] : List UInt32).length : ℕ) =
      p.offset + 1 + 4 + 4 by simp only [List.length_cons, List.length_nil]; omega] at hcaptured
    have hvalid : validateDesignations st.bf nArgs nLocals count.toNat (p.offset + 1 + 4 + 4) =
        .ok () := by
      refine validateDesignations_eq hst.globals _ _ fun k hk => ?_
      have hd := hcaptured.designations (List.getElem?_eq_getElem (show k < i.captures.length by omega))
      exact ⟨_, by rw [hagree.designation (by omega), hd], hdeclared _ (.capture htype hn hk hd)⟩
    rw [sweepChecks, hback, except_ok_bind, hargs, except_ok_bind, hlocals, except_ok_bind, hoffset,
      hagree.code32 (by omega), hn, except_ok_bind, hvalid]
    exact ⟨st, rfl⟩
  all_goals exact ⟨_, rfl⟩

end Checks

section Sweep

variable {bf : Bytefile} {is : List Instruction} {o nxt : ℕ} {st st' : Sweep} {visited : List ℤ}
  {type : InstructionType}

/-- A turn leads to the next instruction: at a BEGIN of a function paths come to, that one becomes the
    last one opened, and inside it no turn opens, closes or writes. -/
theorem InFunction.step (h : WellFormed bf is) (hst : InFunction bf is o st)
    (hmem : o ∈ starts 0 is) (hat : AtInstruction bf o)
    (hdec : generalByterun bf o = .ok (nxt, type)) (hlt : o < nxt)
    (hnext : ∀ b ∈ starts 0 is, b < nxt → b ≤ o)
    (hmarked : Arrives bf o → visited[o]? ≠ some (-1)) (hstep : SweepStep visited st st') :
    InFunction bf is nxt st' := by
  have hfinish := h.laidOut.finish_lt
  have hahead := hst.ahead.step (by omega) hat hdec hlt hstep
  have htype := (generalByterun_typeAt hdec).1
  obtain ⟨nxt', type', hdec', v, hv, hmove⟩ := sweepInstruction_ok hstep
  rw [hst.ahead.generalByterun, hdec] at hdec'
  cases hdec'
  rw [hst.ahead.symbolOffset] at hv
  rcases hmove with ⟨hunmarked, rfl⟩ | ⟨-, u, hchecks, rfl⟩
  · refine ⟨hahead, hst.globals, fun b e hdel harrives hb he => ?_⟩
    have hle := hnext b hdel.first hb
    rcases Nat.lt_or_eq_of_le hle with hbo | rfl
    · exact hst.opened b e hdel harrives hbo (by omega)
    · exact absurd (hv.trans (congrArg some hunmarked)) (hmarked harrives)
  · have hglobals : u.bf.globalAreaSize = bf.globalAreaSize := by
      rcases (sweepChecks_ok hchecks).bf with hbf | ⟨b, -, w, -, hbf⟩
      · rw [hbf, hst.globals]
      · have hptr := h.mapped.1
        have hsame := hst.ahead.agree.codePtr
        rw [hbf, setCode16_globalAreaSize (by dsimp only; omega), hst.globals]
    refine ⟨hahead, hglobals, fun b e hdel harrives hb he => ?_⟩
    have hle := hnext b hdel.first hb
    rcases Nat.lt_or_eq_of_le hle with hbo | rfl
    · obtain ⟨hopens, hend⟩ := hdel.between o hmem hbo (by omega) type htype
      have hold := hst.opened b e hdel harrives hbo (by omega)
      cases sweepChecks_checking hchecks with
      | close => exact absurd rfl hend
      | enter hopen => exact absurd hopen hopens
      | same => exact hold
    · obtain ⟨type', htype', hopens⟩ := hdel.opens
      rw [htype] at htype'
      cases htype'
      cases sweepChecks_checking hchecks with
      | close => rcases hopens with hopens | hopens <;> cases hopens
      | enter =>
        refine ⟨⟨st.beginOffsets, ?_⟩, hst.ahead.agree⟩
        show st.symbolOffset :: st.beginOffsets = b :: st.beginOffsets
        rw [hst.ahead.symbolOffset]
      | same _ hbegin hcbegin => exact absurd hopens (fun hc => hc.elim hbegin hcbegin)

/-- The second pass over the rest `js` of the instructions returns. -/
theorem sweepLoop_returns (h : WellFormed bf is) (hlength : (visited.length : ℤ) = bf.codeSize)
    (hmarks : ∀ o, (∃ d, visited[o]? = some d ∧ d ≠ -1) ↔ Arrives bf o) :
    ∀ (js : List Instruction) {o fuel : ℕ} {st : Sweep}, LaidOut bf o js →
      (∀ b ∈ starts o js, b ∈ starts 0 is) → (∀ b ∈ starts 0 is, o ≤ b → b ∈ starts o js) →
      InFunction bf is o st → js.length < fuel → ∃ st', sweepLoop visited fuel st = .ok st' := by
  intro js
  induction js with
  | nil =>
    intro o fuel st hl _ _ hst hfuel
    obtain ⟨fuel, rfl⟩ := Nat.exists_eq_succ_of_ne_zero (Nat.ne_zero_of_lt hfuel)
    have hlt : (o : ℤ) < bf.codeSize := hl.finish_lt
    have hsize := bf.codeSize_lt
    have hin : ¬ toU32 st.bf.codeSize ≤ st.symbolOffset := by
      rw [hst.ahead.agree.codeSize, hst.ahead.symbolOffset]
      unfold toU32
      omega
    rw [sweepLoop, if_neg hin, hst.ahead.symbolOffset, hst.ahead.agree.code o (Int.le_refl _), hl.closed]
    exact ⟨st, rfl⟩
  | cons j js ih =>
    intro o fuel st hl hmem hall hst hfuel
    obtain ⟨fuel, rfl⟩ := Nat.exists_eq_succ_of_ne_zero (Nat.ne_zero_of_lt hfuel)
    obtain ⟨hplaced, hlt⟩ := hl.head
    have hsize := bf.codeSize_lt
    have hpos := j.length_pos
    have ho : o ∈ starts 0 is := hmem o List.mem_cons_self
    have hdec := Instruction.generalByterun_eq hplaced (by omega)
    have hat : AtInstruction bf o := ⟨by unfold toU32; omega, _, hplaced.1, j.opcode_ne⟩
    have hnext : ∀ b ∈ starts 0 is, b < o + j.length → b ≤ o := by
      intro b hb hlt
      by_contra hob
      rcases List.mem_cons.mp (hall b hb (by omega)) with rfl | hb'
      · omega
      · have := le_sweepOffsets (List.mem_append_left [finish (o + j.length) js] hb')
        omega
    have hturn : ∃ u, SweepStep visited st u := by
      have hget : visited[o]? = some visited[o] := List.getElem?_eq_getElem (by omega)
      unfold SweepStep
      rw [sweepInstruction, hst.ahead.generalByterun, hdec, except_ok_bind, hst.ahead.symbolOffset]
      dsimp only
      rw [hget]
      by_cases hunmarked : visited[o] = -1
      · rw [hunmarked]
        exact ⟨_, rfl⟩
      · obtain ⟨p, hp, rfl⟩ := (hmarks o).mp ⟨_, hget, hunmarked⟩
        have hraised : InFunction bf is p.offset
            { st with symbolOffset := p.offset, maxStack := max st.maxStack visited[p.offset] } :=
          ⟨⟨rfl, hst.ahead.agree, hst.ahead.before⟩, hst.globals, hst.opened⟩
        obtain ⟨u, hu⟩ := hraised.checks h hp (Instruction.typeAt hplaced)
        dsimp only
        rw [if_neg hunmarked, hu]
        exact ⟨_, rfl⟩
    obtain ⟨u, hu⟩ := hturn
    have hmarked : Arrives bf o → visited[o]? ≠ some (-1) := by
      intro harrives heq
      obtain ⟨d, hd, hne⟩ := (hmarks o).mpr harrives
      rw [hd] at heq
      exact hne (Option.some.inj heq)
    have hlater : ∀ b ∈ starts 0 is, o + j.length ≤ b → b ∈ starts (o + j.length) js := by
      intro b hb hle
      rcases List.mem_cons.mp (hall b hb (by omega)) with rfl | hb'
      · omega
      · exact hb'
    obtain ⟨st', hst'⟩ := ih hl.tail (fun b hb => hmem b (List.mem_cons_of_mem o hb)) hlater
      (hst.step h ho hat hdec (by omega) hnext hmarked hu) (Nat.lt_of_succ_lt_succ hfuel)
    exact ⟨st', by rw [sweepLoop_step fuel (hst.ahead.inLoop.mpr hat) hu, hst']⟩

/-- A well-formed file is accepted exactly when the CALL_STRINGs do not depend on the path and no ARRAY
    tests for a length above the counted depth. -/
theorem accepted_iff (bf : Bytefile) (is : List Instruction) (h : WellFormed bf is) :
    (∃ fuel bf', verify fuel bf = .ok bf') ↔ SameStrings bf ∧ ArraysCovered bf := by
  constructor
  · rintro ⟨fuel, bf', hok⟩
    obtain ⟨visited, hv, -⟩ := except_bind_ok.mp hok
    exact h.of_collectMarks hv
  · rintro ⟨hstrings, harrays⟩
    obtain ⟨visited, hv, hlength, hmarks⟩ := h.collectMarks_returns hstrings harrays
    have hstart : InFunction bf is 0 ⟨bf, 0, 0, []⟩ :=
      ⟨ahead_start bf, rfl, fun b e _ _ hb _ => absurd hb (Nat.not_lt_zero b)⟩
    obtain ⟨st, hst⟩ := sweepLoop_returns h hlength hmarks is h.laidOut (fun _ hb => hb)
      (fun _ hb _ => hb) hstart (Nat.lt_succ_self is.length)
    exact ⟨is.length + 1, st.bf, by rw [verify, hv, except_ok_bind, hst]; rfl⟩

end Sweep

/-! ### A function that tests the length of an array -/

/-- `main` leaves whether the constant 1 is an array of `n` elements. -/
def lengthFile (n : UInt8) : Bytefile := .ofMain 0
  [0x52, 0, 0, 0, 0, 0, 0, 0, 0, 0x10, 1, 0, 0, 0, 0x58, n, 0, 0, 0, 0x16, 0xFF]

/-- Its instructions. -/
def lengthInstructions (n : UInt8) : List Instruction :=
  [beginInstruction, ⟨0x10, [1], [], opcode_known, one_operand, no_capture⟩,
    ⟨0x58, [UInt32.ofNat n.toNat], [], opcode_known, one_operand, no_capture⟩, endInstruction]

/-- What paths through it come to. -/
def lengthPoints : List Point := [⟨0, 0, 0⟩, ⟨9, 0, 0⟩, ⟨14, 1, 0⟩, ⟨19, 1, 0⟩]

section LengthFile

variable {n : UInt8} {p : Point}

theorem lengthPoints_step {q : Point} (hp : p ∈ lengthPoints) (h : PathStep (lengthFile n) p q) :
    q ∈ lengthPoints := by
  obtain ⟨nxt, type, l, hdec, -, hl, hq⟩ := h
  simp only [lengthPoints, List.mem_cons, List.not_mem_nil, or_false] at hp
  rcases hp with rfl | rfl | rfl | rfl <;> cases hdec <;> cases hl
  · rw [List.mem_singleton.mp hq]
    show (⟨9, 0, 0⟩ : Point) ∈ lengthPoints
    decide
  · rw [List.mem_singleton.mp hq]
    show (⟨14, 1, 0⟩ : Point) ∈ lengthPoints
    decide
  · rw [List.mem_singleton.mp hq]
    show (⟨19, 1, 0⟩ : Point) ∈ lengthPoints
    decide
  · cases hq

theorem lengthFile_main : (lengthFile n).getPublicOffset 0 = .ok 0 ∧
    (lengthFile n).isMain 0 = .ok true := by
  have hword : (lengthFile n).uint32 ((lengthFile n).publicPtr + 4 * (((0 : ℕ) : ℤ) * 2 + 1)) = .ok 0 := rfl
  refine ⟨?_, rfl⟩
  rw [Bytefile.getPublicOffset, Bytefile.publicWord, hword]
  rfl

theorem onPath_lengthPoints (h : OnPath (lengthFile n) p) : p ∈ lengthPoints := by
  induction h with
  | @start p hp =>
    obtain ⟨hdepth, hstrings, i, hi, hoffset, -⟩ := hp
    obtain rfl : i = 0 := Nat.lt_one_iff.mp hi
    rw [lengthFile_main.1] at hoffset
    have hzero : p.offset = 0 := by
      have := Except.ok.inj hoffset
      omega
    obtain rfl : p = ⟨0, 0, 0⟩ := by
      cases p
      simp_all
    decide
  | step _ hstep ih => exact lengthPoints_step ih hstep

theorem lengthPoints_onPath : ∀ p ∈ lengthPoints, OnPath (lengthFile n) p := by
  have hbegin : OnPath (lengthFile n) ⟨0, 0, 0⟩ := .start ⟨rfl, rfl, 0, Nat.one_pos, lengthFile_main⟩
  have hconst : OnPath (lengthFile n) ⟨9, 0, 0⟩ :=
    .step hbegin ⟨9, .begin, _, rfl, Nat.le_refl 0, rfl, List.mem_singleton.mpr rfl⟩
  have harray : OnPath (lengthFile n) ⟨14, 1, 0⟩ :=
    .step hconst ⟨14, .const, _, rfl, Nat.le_refl 0, rfl, List.mem_singleton.mpr rfl⟩
  have hend : OnPath (lengthFile n) ⟨19, 1, 0⟩ :=
    .step harray ⟨19, .array, _, rfl, Nat.le_refl 1, rfl, List.mem_singleton.mpr rfl⟩
  intro p hp
  simp only [lengthPoints, List.mem_cons, List.not_mem_nil, or_false] at hp
  rcases hp with rfl | rfl | rfl | rfl
  · exact hbegin
  · exact hconst
  · exact harray
  · exact hend

theorem laidOut_lengthFile (hn : n = 1 ∨ n = 5) : LaidOut (lengthFile n) 0 (lengthInstructions n) := by
  rcases hn with rfl | rfl
  · exact ⟨by decide, by decide⟩
  · exact ⟨by decide, by decide⟩

/-- Where the instructions start and what they are. -/
theorem lengthFile_types {o : ℕ} (ho : o ∈ starts 0 (lengthInstructions n)) :
    o = 0 ∧ (lengthFile n).typeAt o = .ok .begin ∨ o = 9 ∧ (lengthFile n).typeAt o = .ok .const ∨
      o = 14 ∧ (lengthFile n).typeAt o = .ok .array ∨ o = 19 ∧ (lengthFile n).typeAt o = .ok .end := by
  have hstarts : starts 0 (lengthInstructions n) = [0, 9, 14, 19] := rfl
  rw [hstarts] at ho
  simp only [List.mem_cons, List.not_mem_nil, or_false] at ho
  rcases ho with rfl | rfl | rfl | rfl
  · exact .inl ⟨rfl, rfl⟩
  · exact .inr (.inl ⟨rfl, rfl⟩)
  · exact .inr (.inr (.inl ⟨rfl, rfl⟩))
  · exact .inr (.inr (.inr ⟨rfl, rfl⟩))

theorem delimits_lengthFile : Delimits (lengthFile n) (lengthInstructions n) 0 19 := by
  have hstarts : starts 0 (lengthInstructions n) = [0, 9, 14, 19] := rfl
  refine ⟨by rw [hstarts]; decide, by rw [hstarts]; decide, ⟨.begin, rfl, .inl rfl⟩, rfl, by decide, ?_⟩
  intro o ho h0 h19 type htype
  rcases lengthFile_types ho with ⟨rfl, -⟩ | ⟨rfl, ht⟩ | ⟨rfl, ht⟩ | ⟨rfl, -⟩
  · exact absurd h0 (Nat.lt_irrefl 0)
  · cases ht.symm.trans htype
    exact ⟨by decide, by decide⟩
  · cases ht.symm.trans htype
    exact ⟨by decide, by decide⟩
  · exact absurd h19 (Nat.lt_irrefl 19)

theorem wellFormed_lengthFile (hn : n = 1 ∨ n = 5) : WellFormed (lengthFile n) (lengthInstructions n) := by
  have honly : ∀ i < (lengthFile n).publicSymbolsNumber.toNat, i = 0 := fun i hi => Nat.lt_one_iff.mp hi
  have hstart : ∀ p, OnPath (lengthFile n) p → p.offset ∈ starts 0 (lengthInstructions n) := by
    intro p hp
    have hstarts : starts 0 (lengthInstructions n) = [0, 9, 14, 19] := rfl
    have hall : ∀ p ∈ lengthPoints, p.offset ∈ [0, 9, 14, 19] := by decide
    rw [hstarts]
    exact hall p (onPath_lengthPoints hp)
  have harrives : Arrives (lengthFile n) 0 ∧ Arrives (lengthFile n) 19 :=
    ⟨⟨⟨0, 0, 0⟩, lengthPoints_onPath _ (by decide), rfl⟩, ⟨19, 1, 0⟩, lengthPoints_onPath _ (by decide), rfl⟩
  refine {
    mapped := Bytefile.ofMain_codeMapped (by decide : 21 < 2 ^ 31)
    publics := fun i hi => ?_
    main := ⟨0, Nat.one_pos, lengthFile_main.2⟩
    main_offset := fun i hi _ => by rw [honly i hi]; exact lengthFile_main.1
    laidOut := laidOut_lengthFile hn
    arrives := hstart
    complete := fun p hp type htype => ?_
    function := fun p hp => ⟨0, 19, delimits_lengthFile, Nat.zero_le _, ?_, harrives⟩
    arguments := fun b e nArgs hdel _ hargs => ?_
    declared := fun p hp b e nArgs nLocals d _ _ _ _ _ hd => ?_
    enough := fun p hp type htype => ?_
    same := fun p q hp hq => ?_
    small := fun p hp => ?_ }
  · rw [honly i hi]
    exact ⟨⟨0, lengthFile_main.1⟩, true, lengthFile_main.2⟩
  · rcases lengthFile_types (hstart p hp) with ⟨-, ht⟩ | ⟨-, ht⟩ | ⟨-, ht⟩ | ⟨-, ht⟩ <;>
    · cases ht.symm.trans htype
      exact .inr trivial
  · have hall : ∀ p ∈ lengthPoints, p.offset ≤ 19 := by decide
    exact hall p (onPath_lengthPoints hp)
  · obtain ⟨type, htype, hopens⟩ := hdel.opens
    rcases lengthFile_types hdel.first with ⟨rfl, -⟩ | ⟨-, ht⟩ | ⟨-, ht⟩ | ⟨-, ht⟩
    · cases hargs
      decide
    all_goals
      cases ht.symm.trans htype
      rcases hopens with h | h <;> cases h
  · rcases lengthFile_types (hstart p hp) with ⟨-, ht⟩ | ⟨-, ht⟩ | ⟨-, ht⟩ | ⟨-, ht⟩ <;>
    · cases hd with
      | operand htype haccess =>
        cases ht.symm.trans htype
        rcases haccess with h | h | h <;> cases h
      | capture htype => cases ht.symm.trans htype
  · have hp' := onPath_lengthPoints hp
    simp only [lengthPoints, List.mem_cons, List.not_mem_nil, or_false] at hp'
    rcases hp' with rfl | rfl | rfl | rfl <;>
    · cases htype
      exact Nat.le_refl _
  · have hall : ∀ p ∈ lengthPoints, ∀ q ∈ lengthPoints, p.offset = q.offset → p.depth = q.depth := by decide
    exact hall p (onPath_lengthPoints hp) q (onPath_lengthPoints hq)
  · have hall : ∀ p ∈ lengthPoints, p.depth < 2 ^ 16 := by decide
    exact hall p (onPath_lengthPoints hp)

end LengthFile

/-- The test for one element is accepted, -/
theorem accepted_iff_lengthFile : ∃ fuel bf', verify fuel (lengthFile 1) = .ok bf' := by
  refine (accepted_iff (lengthFile 1) (lengthInstructions 1) (wellFormed_lengthFile (.inl rfl))).mpr
    ⟨fun p q hp hq _ => ?_, fun p n hp htype hn => ?_⟩
  · have hall : ∀ p ∈ lengthPoints, p.strings = 0 := by decide
    rw [hall p (onPath_lengthPoints hp), hall q (onPath_lengthPoints hq)]
  · have hp' := onPath_lengthPoints hp
    simp only [lengthPoints, List.mem_cons, List.not_mem_nil, or_false] at hp'
    rcases hp' with rfl | rfl | rfl | rfl <;> cases htype
    cases hn
    decide

/-- the test for five is not. -/
theorem rejected_lengthFile : WellFormed (lengthFile 5) (lengthInstructions 5) ∧
    ∀ fuel, verify fuel (lengthFile 5) =
      .error (.runtimeError "argument number of instruction at offset 14 is too large") := by
  have hmarks : collectMarks (lengthFile 5) =
      .error (.runtimeError "argument number of instruction at offset 14 is too large") := by
    decide
  refine ⟨wellFormed_lengthFile (.inr rfl), fun fuel => ?_⟩
  rw [verify, hmarks]
  rfl

end LamaSM
