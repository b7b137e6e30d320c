import LamaSM.CallReturn

/-! `get_new_stack` against the handlers.

    `operandEffect` is what the handlers do, `getNewStack` what the verifier takes them to do. The
    two agree on every complete instruction but CALL_STRING, whose handler replaces its operand, and
    STA with an address on the stack, whose handler pops two operands and not three. A call is only
    complete with the matching END, and that gives the caller its operands back when the header it
    reads is the one the call wrote (`CallerKept`). -/

namespace LamaSM
open Lib

/-- The handler finds low bits it knows and the operands it needs. -/
def Complete (bf : Bytefile) (o : ℤ) : InstructionType → Prop
  | .binop => ∃ low, bf.lowBitsAt o = .ok low ∧ ∀ raw, BinOp.ofByte low ≠ .other raw
  | .st => ∃ low, bf.lowBitsAt o = .ok low ∧ ∀ raw, MemVar.ofByte low ≠ .other raw
  | .patt => ∃ low, bf.lowBitsAt o = .ok low ∧ ∀ raw, Patt.ofByte low ≠ .other raw
  | .callArray | .callc => ∃ n, bf.code32 (o + 1) = .ok n
  | .sexp => ∃ n, bf.code32 (o + 1 + 4) = .ok n ∧ n + 1 < 2 ^ 32
  | .call => ∃ n, bf.code32 (o + 1 + 4) = .ok n
  | .ret | .fail | .other _ => False
  | _ => True

section Complete

variable {M : Machine} {E : Env M} {s s' : State} {ended : Bool}

/-- `Bsexp` returns for a tag and its fields only. -/
theorem Bsexp_pos {args : ℤ} {n : ℕ} {w : Word} (h : Bsexp E args n s = .ok w s') : 0 < n := by
  have ht : Tracks M (max s.top (args + n)) none s s.top s.codePtr (Bsexp E args n) s.top s.codePtr
      (fun _ => 0 < n) := Bsexp_tracks E (by omega) (by omega)
  exact (ht.of_ok ⟨Keeps.refl M _ none s, rfl, rfl⟩ h).1

/-- A handler that returns has met a complete instruction. -/
theorem complete_of_dispatch {type : InstructionType} (h : dispatch E type s = .ok ended s') :
    Complete M.bf s.codePtr type := by
  cases type
  case binop =>
    obtain ⟨low, s₁, hlow, hrest⟩ := exec_bind_ok.mp (go_ok h).2
    refine ⟨low, (consumeLowerBits0_ok hlow).1, fun raw hraw => ?_⟩
    rw [hraw] at hrest
    cases hrest
  case st =>
    obtain ⟨⟨low, index⟩, s₁, hlow, hrest⟩ := exec_bind_ok.mp (go_ok h).2
    refine ⟨low, (consumeLowerBits1_ok hlow).1, fun raw hraw => ?_⟩
    dsimp only at hrest
    rw [hraw] at hrest
    cases hrest
  case patt =>
    obtain ⟨low, s₁, hlow, hrest⟩ := exec_bind_ok.mp (go_ok h).2
    refine ⟨low, (consumeLowerBits0_ok hlow).1, fun raw hraw => ?_⟩
    rw [hraw] at hrest
    obtain ⟨_, _, hthrow, -⟩ := exec_bind_ok.mp hrest
    cases hthrow
  case callArray =>
    obtain ⟨n, s₁, hn, -⟩ := exec_bind_ok.mp (go_ok h).2
    exact ⟨n, (consumeArgs1_ok hn).1⟩
  case sexp =>
    have hs := (go_ok h).2
    simp only [boxingSexp, exec_bind_ok, exec_get_ok] at hs
    obtain ⟨⟨tag, n⟩, _, hargs, _, _, -, _, _, -, _, _, -, _, _, ⟨rfl, rfl⟩, _, s₁, -, res, s₂, hres, -⟩ := hs
    obtain ⟨-, hn, -⟩ := consumeArgs2_ok hargs
    have hpos := Bsexp_pos hres
    have hlt := Bytefile.code32_lt hn
    exact ⟨n, hn, by unfold toU32 at hpos; omega⟩
  case callc =>
    obtain ⟨-, n, -, hn, -⟩ := callc_ok h
    exact ⟨n, hn⟩
  case call =>
    obtain ⟨-, -, n, -, hn, -⟩ := call_ok h
    exact ⟨n, hn⟩
  case fail =>
    obtain ⟨⟨line, _⟩, s₁, -, hthrow⟩ := exec_bind_ok.mp (go_ok h).2
    cases hthrow
  case ret | other => cases h
  all_goals trivial

end Complete

/-! ### The two tables -/

section Tables

variable {bf : Bytefile} {o cur n l : ℕ} {type : InstructionType} {i : Bool}

theorem operandEffect_of_complete (h : Complete bf o type) :
    ∃ n l, operandEffect bf o type i = .ok (n, l) := by
  cases type
  case binop =>
    obtain ⟨low, hlow, -⟩ := h
    rw [operandEffect, hlow, except_ok_bind]
    cases BinOp.ofByte low <;> exact ⟨_, _, rfl⟩
  case st =>
    obtain ⟨low, hlow, -⟩ := h
    rw [operandEffect, hlow, except_ok_bind]
    cases MemVar.ofByte low <;> exact ⟨_, _, rfl⟩
  case patt =>
    obtain ⟨low, hlow, -⟩ := h
    rw [operandEffect, hlow, except_ok_bind]
    cases Patt.ofByte low <;> exact ⟨_, _, rfl⟩
  case callArray | callc | call =>
    obtain ⟨m, hm⟩ := h
    exact ⟨_, _, by rw [operandEffect, hm]; rfl⟩
  case sexp =>
    obtain ⟨m, hm, hlt⟩ := h
    exact ⟨m, 1, by rw [operandEffect, hm, except_ok_bind, if_pos hlt]; rfl⟩
  case sta => cases i <;> exact ⟨_, _, rfl⟩
  all_goals exact ⟨_, _, rfl⟩

/-- An instruction leaves at most one operand more than it uses. -/
theorem operandEffect_grow (h : operandEffect bf o type i = .ok (n, l)) : l ≤ n + 1 := by
  cases type
  case binop | st | patt =>
    obtain ⟨low, -, h⟩ := except_bind_ok.mp h
    split at h <;> cases h <;> decide
  case callArray | callc | call =>
    obtain ⟨m, -, h⟩ := except_bind_ok.mp h
    cases h
    omega
  case sexp =>
    obtain ⟨m, -, h⟩ := except_bind_ok.mp h
    split at h <;> cases h <;> omega
  case sta => cases i <;> cases h <;> decide
  all_goals
    cases h
    decide

/-- The depth `get_new_stack` gives is the one the handler leaves, CALL_STRING and STA with an
    address apart. -/
theorem getNewStack_eq (h : Complete bf o type) (hn : operandEffect bf o type i = .ok (n, l))
    (hle : n ≤ cur) (hcur : cur + 1 < 2 ^ 32) (hstring : type ≠ .callString)
    (hsta : type = .sta → i = true) : getNewStack bf cur o type = .ok (cur - n + l) := by
  have fits : ∀ {x : ℤ}, x = (cur - n + l : ℕ) → cur - n + l < 2 ^ 32 →
      (pure (toU32 x) : Result ℕ) = .ok (cur - n + l) := by
    rintro _ rfl hlt
    rw [toU32_of_lt hlt]
    rfl
  cases type
  case callString => exact absurd rfl hstring
  case ret | fail | other => exact h.elim
  case binop =>
    obtain ⟨low, hlow, hop⟩ := h
    rw [operandEffect, hlow, except_ok_bind] at hn
    cases hb : BinOp.ofByte low <;> rw [hb] at hn <;> cases hn
    case other raw => exact absurd hb (hop raw)
    all_goals exact fits (by omega) (by omega)
  case st =>
    obtain ⟨low, hlow, hvar⟩ := h
    rw [operandEffect, hlow, except_ok_bind] at hn
    cases hv : MemVar.ofByte low <;> rw [hv] at hn <;> cases hn
    case other raw => exact absurd hv (hvar raw)
    all_goals
      rw [getNewStack, Nat.sub_add_cancel hle]
      rfl
  case patt =>
    obtain ⟨low, hlow, hpatt⟩ := h
    rw [operandEffect, hlow, except_ok_bind] at hn
    rw [getNewStack, hlow, except_ok_bind]
    cases hp : Patt.ofByte low <;> rw [hp] at hn <;> cases hn
    case other raw => exact absurd hp (hpatt raw)
    case strCmp => exact fits (by omega) (by omega)
    all_goals
      rw [Nat.sub_add_cancel hle]
      rfl
  case callArray | callc | call =>
    obtain ⟨m, hm⟩ := h
    rw [operandEffect, hm] at hn
    cases hn
    rw [getNewStack, hm, except_ok_bind]
    exact fits (by omega) (by omega)
  case sexp =>
    obtain ⟨m, hm, hlt⟩ := h
    rw [operandEffect, hm, except_ok_bind, if_pos hlt] at hn
    cases hn
    rw [getNewStack, hm, except_ok_bind]
    exact fits (by omega) (by omega)
  case sta =>
    rw [hsta rfl] at hn
    cases hn
    exact fits (by omega) (by omega)
  case const | string | ld | lda | closure | callRead | cjmpz | cjmpnz | drop | dup | elem | sti =>
    cases hn
    exact fits (by omega) (by omega)
  all_goals
    cases hn
    rw [Nat.sub_add_cancel hle]
    rfl

/-- For CALL_STRING and for STA with an address `get_new_stack` is off by one. -/
theorem getNewStack_ne (hn : operandEffect bf o type i = .ok (n, l)) (hle : n ≤ cur)
    (hcur : cur + 1 < 2 ^ 32) (h : type = .callString ∨ type = .sta ∧ i = false) :
    getNewStack bf cur o type ≠ .ok (cur - n + l) := by
  rcases h with rfl | ⟨rfl, rfl⟩
  · cases hn
    rw [getNewStack, ← Int.natCast_succ, toU32_of_lt hcur]
    intro h
    have := Except.ok.inj h
    omega
  · cases hn
    rw [getNewStack, show ((cur : ℤ) - 2) = ((cur - 2 : ℕ) : ℤ) by omega, toU32_of_lt (by omega)]
    intro h
    have := Except.ok.inj h
    omega

end Tables

/-! ### The handlers -/

/-- The running activation of `s` holds `cur` operands, on a stack whose registers lie in range. -/
structure HoldsOperands (M : Machine) (s : State) (cur : ℕ) : Prop where
  frame : s.activations ≠ []
  count : s.operands = cur
  fp_lt : s.fp < M.maxStack
  top_ge : -1 ≤ s.top

/-- From the call at `s` a run of the callee leads to the matching END at `t`, which returns to `s'`:
    until then there are more activations than before the call. -/
structure CallEnds {M : Machine} (E : Env M) (s t s' : State) : Prop where
  callee : ∃ s₁, Step E s s₁ ∧
    Run (Step E) (fun u => s.activations.length < u.activations.length) s₁ t
  atEnd : At M t .end
  depth : t.activations.length = s.activations.length + 1
  returns : Step E t s'

/-- The instruction at `s` completes in `s'` with the turn from `t`: for CALL and CALLC that of the
    matching END. END itself has no frame left and is not among them. -/
inductive Completes {M : Machine} (E : Env M) (s t s' : State) : InstructionType → Prop
  | plain {type : InstructionType} : type ≠ .call → type ≠ .callc → type ≠ .end → t = s →
      dispatch E type s = .ok false s' → Completes E s t s' type
  | call {type : InstructionType} : type = .call ∨ type = .callc → At M s type →
      CallEnds E s t s' → Completes E s t s' type

/-- The header that END reads at `t` gives registers as far apart as those of the caller at `s` with
    the `k` words of its call taken off. -/
def CallerKept (M : Machine) (s t : State) (k : ℕ) : Prop :=
  ∃ fp top, M.slotOf (t.stack (t.fp + 2)) = some fp ∧ M.slotOf (t.stack (t.fp + 1)) = some top ∧
    fp - top = s.fp - (s.top + k)

section Handlers

variable {M : Machine} {E : Env M} {s s' : State} {ended : Bool}

/-- A handler that stays in its activation replaces the operands it uses. -/
theorem operands_of_dispatch {type : InstructionType} (hframe : s.activations ≠ [])
    (hcall : type ≠ .call) (hcallc : type ≠ .callc) (hend : type ≠ .end)
    (h : dispatch E type s = .ok ended s') :
    s'.operands = s.operands - need M.bf s.codePtr type (integerIndex s)
      + leaves M.bf s.codePtr type (integerIndex s) := by
  cases hplain : type.isPlain with
  | true =>
    obtain ⟨-, pc', -, hkeeps, htop, -⟩ := (dispatch_plain E type hplain s).of_ok rfl h
    unfold State.operands State.floor State.reserved
    rw [hkeeps.fp, hkeeps.activations]
    omega
  | false =>
    have hbegin : type = .begin ∨ type = .cbegin := by
      cases type
      case «begin» => exact .inl rfl
      case cbegin => exact .inr rfl
      case call => exact absurd rfl hcall
      case callc => exact absurd rfl hcallc
      case «end» => exact absurd rfl hend
      all_goals cases hplain
    obtain ⟨-, arg, nLocals, -, -, -, rfl⟩ := begin_ok hbegin h
    have heff : need M.bf s.codePtr type (integerIndex s) = 0 ∧
        leaves M.bf s.codePtr type (integerIndex s) = 0 := by
      rcases hbegin with rfl | rfl <;> exact need_of_ok rfl
    rw [heff.1, heff.2]
    unfold State.operands State.floor State.reserved
    cases hact : s.activations with
    | nil => exact absurd hact hframe
    | cons a as =>
      simp only [Activation.reserve]
      omega

/-- What a turn does to the activations above `A`: it pops one, reserves locals in the innermost one,
    pushes one, or leaves them alone. -/
theorem step_activations {A : List Activation} (hstep : Step E s s')
    (h : ∃ as, as ≠ [] ∧ s.activations = as ++ A) : ∃ as, s'.activations = as ++ A := by
  obtain ⟨as, hne, has⟩ := h
  obtain ⟨a, as, rfl⟩ := List.exists_cons_of_ne_nil hne
  obtain ⟨type, hat, hd⟩ := (turn_ok E).mp hstep
  cases hplain : type.isPlain with
  | true =>
    obtain ⟨-, pc', -, hkeeps, -⟩ := (dispatch_plain E type hplain s).of_ok rfl hd
    exact ⟨a :: as, by rw [hkeeps.activations, has]⟩
  | false =>
    cases type
    case «begin» | cbegin =>
      obtain ⟨-, arg, nLocals, -, -, -, rfl⟩ := begin_ok (by simp) hd
      exact ⟨{ a with reserved := a.reserved + nLocals } :: as, by rw [has]; rfl⟩
    case call =>
      obtain ⟨-, target, n, -, -, hp⟩ := call_ok hd
      exact ⟨_ :: a :: as, by rw [hp.activations, has]; rfl⟩
    case callc =>
      obtain ⟨-, n, elem, -, -, -, hp⟩ := callc_ok hd
      exact ⟨_ :: a :: as, by rw [hp.activations, has]; rfl⟩
    case «end» => exact ⟨as, by rw [(end_ok hd).activations, has]; rfl⟩
    all_goals cases hplain

/-- Whatever the callee does to the stack, its END leaves the caller's activation the innermost. -/
theorem CallEnds.activations {t : State} {k length : ℕ} (hcall : AtCall M s k length)
    (h : CallEnds E s t s') : s'.activations = s.activations := by
  obtain ⟨s₁, hstep, hcallee⟩ := h.callee
  obtain ⟨n, isClosure, entry, ra, -, hp, -⟩ := hcall.pushed hstep
  obtain ⟨as, has⟩ : ∃ as, t.activations = as ++ s.activations := by
    refine Run.invariant (I := fun u => ∃ as, u.activations = as ++ s.activations)
      (fun u v hu hlt huv => step_activations huv ?_) ⟨[_], hp.activations⟩ hcallee
    obtain ⟨as, has⟩ := hu
    refine ⟨as, fun hnil => ?_, has⟩
    rw [has, hnil] at hlt
    exact absurd hlt (Nat.lt_irrefl _)
  obtain ⟨a, rfl⟩ : ∃ a, as = [a] := by
    have hlen := h.depth
    rw [has, List.length_append] at hlen
    exact List.length_eq_one_iff.mp (by omega)
  obtain ⟨type, hat, hd⟩ := (turn_ok E).mp h.returns
  cases hat.unique h.atEnd
  rw [(end_ok hd).activations, has]
  rfl

/-- A call replaces the words it takes by one exactly when its END finds the caller's registers. -/
theorem CallEnds.operands_iff {t : State} {k length : ℕ} (hcall : AtCall M s k length)
    (h : CallEnds E s t s') : s'.operands = s.operands - k + 1 ↔ CallerKept M s t k := by
  have hact := h.activations hcall
  obtain ⟨type, hat, hd⟩ := (turn_ok E).mp h.returns
  cases hat.unique h.atEnd
  have hr := end_ok hd
  obtain ⟨top, htop, -, hgo⟩ := hr.savedTop
  obtain ⟨htop', -⟩ := hgo rfl
  unfold State.operands State.floor State.reserved CallerKept
  rw [hact, htop', hr.savedFp, htop]
  constructor
  · exact fun heq => ⟨s'.fp, top, rfl, rfl, by omega⟩
  · rintro ⟨fp, top', hfp, htop'', heq⟩
    cases hfp
    cases htop''
    omega

theorem CallRun.ends {t : State} {bound : ℤ} (h : CallRun E bound s t s') : CallEnds E s t s' := by
  obtain ⟨s₁, hstep, hcallee⟩ := h.callee
  exact ⟨⟨s₁, hstep, hcallee.mono fun _ hu => hu.2⟩, h.atEnd, h.depth, h.returns⟩

/-- With every instruction of the callee inside its own activation the header is the one the call
    wrote. -/
theorem CallRun.callerKept {t : State} {bound : ℤ} {k length : ℕ} (hmax : M.maxStack < 2 ^ 32)
    (hM : bound < M.maxStack) (hfp : s.fp ≤ bound) (hcall : AtCall M s k length)
    (h : CallRun E bound s t s') : CallerKept M s t k := by
  have hret := h.returned hmax hM hfp hcall
  refine (h.ends.operands_iff hcall).mp ?_
  unfold State.operands State.floor State.reserved
  rw [hret.fp, hret.activations, hret.top]
  omega

/-- The words a call takes are those its entry in the table counts. -/
theorem AtCall.of_ends {t : State} {type : InstructionType} (htype : type = .call ∨ type = .callc)
    (hat : At M s type) (h : CallEnds E s t s') :
    ∃ k length, AtCall M s k length ∧ Complete M.bf s.codePtr type ∧
      need M.bf s.codePtr type (integerIndex s) = k ∧
      leaves M.bf s.codePtr type (integerIndex s) = 1 := by
  obtain ⟨s₁, hstep, -⟩ := h.callee
  obtain ⟨type', hat', hd⟩ := (turn_ok E).mp hstep
  cases hat.unique hat'
  rcases htype with rfl | rfl
  · obtain ⟨-, target, n, -, hn, -⟩ := call_ok hd
    obtain ⟨hneed, hleaves⟩ := need_of_ok (i := integerIndex s)
      (show operandEffect M.bf s.codePtr .call (integerIndex s) = .ok (n, 1) by
        rw [operandEffect, hn]; rfl)
    exact ⟨n, 9, .call hat hn, ⟨n, hn⟩, hneed, hleaves⟩
  · obtain ⟨-, n, elem, hn, -⟩ := callc_ok hd
    obtain ⟨hneed, hleaves⟩ := need_of_ok (i := integerIndex s)
      (show operandEffect M.bf s.codePtr .callc (integerIndex s) = .ok (n + 1, 1) by
        rw [operandEffect, hn]; rfl)
    exact ⟨n + 1, 5, .callc hat hn, ⟨n, hn⟩, hneed, hleaves⟩

/-- The number of operands after an instruction is the one its entry in the table gives, for a call
    if its END finds the caller's registers and only then. -/
theorem Completes.operands_iff {t : State} {type : InstructionType} (hframe : s.activations ≠ [])
    (h : Completes E s t s' type) : Complete M.bf s.codePtr type ∧
      (s'.operands = s.operands - need M.bf s.codePtr type (integerIndex s)
        + leaves M.bf s.codePtr type (integerIndex s) ↔
      (type = .call ∨ type = .callc →
        CallerKept M s t (need M.bf s.codePtr type (integerIndex s)))) := by
  cases h with
  | plain hcall hcallc hend ht hd =>
    refine ⟨complete_of_dispatch hd, fun _ htype => ?_,
      fun _ => operands_of_dispatch hframe hcall hcallc hend hd⟩
    exact absurd htype (not_or.mpr ⟨hcall, hcallc⟩)
  | call htype hat hends =>
    obtain ⟨k, length, hcall, hcomplete, hneed, hleaves⟩ := AtCall.of_ends htype hat hends
    rw [hneed, hleaves]
    refine ⟨hcomplete, ?_⟩
    rw [show ((1 : ℕ) : ℤ) = 1 from rfl, hends.operands_iff hcall]
    exact ⟨fun h _ => h, fun h => h htype⟩

/-- `get_new_stack` gives the number of operands the frame holds after the instruction, exactly when
    the instruction is neither CALL_STRING nor an STA whose index operand is no integer, and the END
    that matches a call finds the caller's registers in its header; which it does when every
    instruction of the callee stays inside its own activation. -/
theorem getNewStack_agrees_iff (M : Machine) (E : Env M) (hstack : M.maxStack = stackSize)
    (s t s' : State) (o cur : ℕ) (type : InstructionType) (ho : s.codePtr = o)
    (hhold : HoldsOperands M s cur) (henough : need M.bf o type (integerIndex s) ≤ cur)
    (h : Completes E s t s' type) :
    ((∃ v : ℕ, getNewStack M.bf cur o type = .ok v ∧ s'.operands = v) ↔
      type ≠ .callString ∧ (type = .sta → integerIndex s = true) ∧
        (type = .call ∨ type = .callc → CallerKept M s t (need M.bf o type (integerIndex s)))) ∧
    ∀ bound : ℤ, bound < M.maxStack → s.fp ≤ bound → type = .call ∨ type = .callc →
      CallRun E bound s t s' → CallerKept M s t (need M.bf o type (integerIndex s)) := by
  have hmax : M.maxStack < 2 ^ 32 := by rw [hstack]; decide
  obtain ⟨hcomplete, hops⟩ := h.operands_iff hhold.frame
  rw [ho] at hops hcomplete
  obtain ⟨n, l, heff⟩ := operandEffect_of_complete (i := integerIndex s) hcomplete
  obtain ⟨hn, hl⟩ := need_of_ok heff
  have hcur : cur + 1 < 2 ^ 32 := by
    have hcount := hhold.count
    have hfp := hhold.fp_lt
    have htop := hhold.top_ge
    unfold State.operands State.floor at hcount
    rw [hstack, stackSize] at hfp
    omega
  refine ⟨?_, fun bound hM hfp htype hrun => ?_⟩
  · rw [hl, hhold.count] at hops
    rw [hn] at henough hops ⊢
    constructor
    · rintro ⟨v, hv, hv'⟩
      -- the two instructions the table has wrong are no calls
      have hright : ¬ (type = .callString ∨ type = .sta ∧ integerIndex s = false) := by
        intro hwrong
        have hcount := hops.mpr fun hc => by
          rcases hwrong with rfl | ⟨rfl, -⟩ <;> simp at hc
        rw [show v = cur - n + l by omega] at hv
        exact getNewStack_ne heff henough hcur hwrong hv
      have hsta : type = .sta → integerIndex s = true := fun hs => by
        cases hi : integerIndex s with
        | true => rfl
        | false => exact absurd (.inr ⟨hs, hi⟩) hright
      have hstring : type ≠ .callString := fun hs => hright (.inl hs)
      rw [getNewStack_eq hcomplete heff henough hcur hstring hsta] at hv
      have hv := Except.ok.inj hv
      exact ⟨hstring, hsta, hops.mp (by omega)⟩
    · rintro ⟨hstring, hsta, hkept⟩
      have hcount := hops.mpr hkept
      exact ⟨_, getNewStack_eq hcomplete heff henough hcur hstring hsta, by omega⟩
  · cases h with
    | plain hcall hcallc => exact absurd htype (not_or.mpr ⟨hcall, hcallc⟩)
    | call _ hat hends =>
      obtain ⟨k, length, hcall, -, hneed, -⟩ := AtCall.of_ends htype hat hends
      rw [← ho, hneed]
      exact hrun.callerKept hmax hM hfp hcall

end Handlers

/-- `main` turns the constant 1 into a string. -/
def stringFile : Bytefile := .ofMain 0
  [0x52, 0, 0, 0, 0, 0, 0, 0, 0, 0x10, 1, 0, 0, 0, 0x73, 0x16, 0xFF]

def stringMachine : Machine := Machine.layout stringFile stackSize (by decide) stackSize_le

def stringEnv : Env stringMachine :=
  Env.bump stringMachine fun k => BitVec.ofNat 64 (2 ^ 50 + 64 * k)

/-- The state of `stringFile` after `n` turns. -/
def stringState : ℕ → State
  | 0 => startState stringEnv
  | n + 1 => nextState stringEnv (stringState n)

/-- CALL_STRING leaves the frame with one operand where the verifier counts two. -/
theorem getNewStack_callString :
    At stringMachine (stringState 2) .callString ∧ HoldsOperands stringMachine (stringState 2) 1 ∧
      need stringFile 14 .callString (integerIndex (stringState 2)) ≤ 1 ∧
      Completes stringEnv (stringState 2) (stringState 2) (stringState 3) .callString ∧
      getNewStack stringFile 1 14 .callString = .ok 2 ∧ (stringState 3).operands = 1 := by
  have hstep : dispatch stringEnv .callString (stringState 2) = .ok false (stringState 3) := by
    obtain ⟨type, hat, hd⟩ := (turn_ok stringEnv).mp
      (turn_nextState stringEnv (show turnResult stringEnv (stringState 2) = some false by decide +kernel))
    have htype : type = .callString := hat.unique (by decide +kernel)
    rw [htype] at hd
    exact hd
  exact ⟨by decide +kernel,
    ⟨by decide +kernel, by decide +kernel, by decide +kernel, by decide +kernel⟩, by decide +kernel,
    .plain (by decide) (by decide) (by decide) rfl hstep, by decide +kernel, by decide +kernel⟩

/-- The function `main` calls swaps the two registers in its header. -/
def swapFile : Bytefile := .ofMain 0
  [0x52, 0, 0, 0, 0, 0, 0, 0, 0, 0x10, 1, 0, 0, 0, 0x56, 24, 0, 0, 0, 0, 0, 0, 0, 0x16,
    0x52, 0, 0, 0, 0, 0, 0, 0, 0, 0x1A, 0x16, 0xFF]

def swapVerified : Bytefile :=
  swapFile.withBytes (swapFile.bytes.set 28 2)

def swapMachine : Machine := Machine.layout swapVerified stackSize (by decide) stackSize_le

def swapEnv : Env swapMachine := Env.bump swapMachine fun k => BitVec.ofNat 64 (2 ^ 50 + 64 * k)

/-- The state of `swapFile` after `n` turns. -/
def swapState : ℕ → State
  | 0 => startState swapEnv
  | n + 1 => nextState swapEnv (swapState n)

/-- In an accepted file a call leaves no operand where the verifier counts two. -/
theorem getNewStack_swapFile :
    verify 20 swapFile = .ok swapVerified ∧ Starts swapEnv (swapState 0) ∧
      (∀ n < 6, Step swapEnv (swapState n) (swapState (n + 1))) ∧
      HoldsOperands swapMachine (swapState 2) 1 ∧
      Completes swapEnv (swapState 2) (swapState 5) (swapState 6) .call ∧
      ¬ CallerKept swapMachine (swapState 2) (swapState 5) 0 ∧
      getNewStack swapVerified 1 14 .call = .ok 2 ∧ (swapState 6).operands = 0 := by
  have hall : ∀ n < 6, turnResult swapEnv (swapState n) = some false := by decide +kernel
  have hstep : ∀ n < 6, Step swapEnv (swapState n) (swapState (n + 1)) := fun n hn =>
    turn_nextState swapEnv (hall n hn)
  have hcall : At swapMachine (swapState 2) .call := by decide +kernel
  have hlen : ∀ k < 2, (swapState 2).activations.length < (swapState (3 + k)).activations.length := by
    decide +kernel
  have hends : CallEnds swapEnv (swapState 2) (swapState 5) (swapState 6) :=
    ⟨⟨swapState 3, hstep 2 (by decide), Run.of_turns (f := fun k => swapState (3 + k)) (n := 2)
      fun k hk => ⟨hlen k hk, hstep (3 + k) (by omega)⟩⟩, by decide +kernel, by decide +kernel,
      hstep 5 (by decide)⟩
  have hatCall : AtCall swapMachine (swapState 2) 0 9 := .call hcall (by decide +kernel)
  have hops : (swapState 6).operands = 0 := by decide +kernel
  have hcur : (swapState 2).operands = 1 := by decide +kernel
  refine ⟨by decide +kernel, starts_startState swapEnv (by decide +kernel), hstep,
    ⟨by decide +kernel, hcur, by decide +kernel, by decide +kernel⟩, .call (.inl rfl) hcall hends,
    fun hkept => ?_, by decide +kernel, hops⟩
  have := (hends.operands_iff hatCall).mpr hkept
  omega

/-- The call of the closure in `callFile`, with four operands before and two behind it. -/
theorem getNewStack_agrees_callc :
    ∃ v : ℕ, getNewStack callFile 4 33 .callc = .ok v ∧ (callState 15).operands = v := by
  have hrun : CallRun callEnv (stackSize - 5) (callState 5) (callState 14) (callState 15) :=
    callState_run (i := 5) (n := 8) (by decide) (by decide) (by decide) (by decide)
  obtain ⟨-, -, hfp, hcode, -⟩ := callState_trace 5 (by decide)
  have hat : At callMachine (callState 5) .callc := by rw [At, hcode]; decide
  have hhold : HoldsOperands callMachine (callState 5) 4 :=
    ⟨by decide +kernel, by decide +kernel, by decide +kernel, by decide +kernel⟩
  obtain ⟨hiff, hkept⟩ := getNewStack_agrees_iff callMachine callEnv rfl (callState 5) (callState 14)
    (callState 15) 33 4 .callc hcode hhold (by decide +kernel) (.call (.inr rfl) hat hrun.ends)
  exact hiff.mpr ⟨by decide, fun hsta => absurd hsta (by decide), fun hc =>
    hkept (stackSize - 5) (by decide) (by omega) hc hrun⟩

end LamaSM
