import LamaSM.Effects
import LamaSM.Boxing

/-! What every instruction handler does to the stack.

    `operandEffect` reads off the code how many operand words an instruction uses and how many it
    leaves in their place, `storeSlot` the one slot it may store to. `dispatch_plain` proves both
    right for the handlers of all instructions that stay in their activation. -/

namespace LamaSM
open Lib

/-! ### The table -/

/-- The operand words the instruction at `o` uses and the words it puts in their place. The index
    operand of STA decides how many it uses. For CALL and CALLC the callee's return is included. -/
def operandEffect (bf : Bytefile) (o : ℤ) (type : InstructionType) (integerIndex : Bool) :
    Result (ℕ × ℕ) :=
  match type with
  | .const | .string | .ld | .lda | .closure | .callRead => return (0, 1)
  | .jmp | .line | .begin | .cbegin | .fail | .ret | .other _ => return (0, 0)
  | .cjmpz | .cjmpnz | .drop => return (1, 0)
  | .dup => return (1, 2)
  | .swap => return (2, 2)
  | .callWrite | .callLength | .callString | .tag | .array | .end => return (1, 1)
  | .elem | .sti => return (2, 1)
  | .sta => return if integerIndex then (3, 1) else (2, 1)
  | .binop => do
    let low ← bf.lowBitsAt o
    match BinOp.ofByte low with
    | .other _ => return (0, 0)
    | _ => return (2, 1)
  | .st => do
    let low ← bf.lowBitsAt o
    match MemVar.ofByte low with
    | .other _ => return (0, 0)
    | _ => return (1, 1)
  | .patt => do
    let low ← bf.lowBitsAt o
    match Patt.ofByte low with
    | .other _ => return (0, 0)
    | .strCmp => return (2, 1)
    | _ => return (1, 1)
  | .callArray => do
    let n ← bf.code32 (o + 1)
    return (n, 1)
  | .sexp => do
    -- a count that wraps leaves no operand to use
    let n ← bf.code32 (o + 1 + 4)
    return if n + 1 < 2 ^ 32 then (n, 1) else (0, 0)
  | .call => do
    let n ← bf.code32 (o + 1 + 4)
    return (n, 1)
  | .callc => do
    let n ← bf.code32 (o + 1)
    return (n + 1, 1)

/-- The offsets control goes to from an instruction that stays in its activation. -/
def NextOffset (bf : Bytefile) (o : ℤ) (type : InstructionType) (o' : ℤ) : Prop :=
  match type with
  | .jmp => ∃ target, bf.code32 (o + 1) = .ok target ∧ o' = target
  | .cjmpz | .cjmpnz => o' = o + 5 ∨ ∃ target, bf.code32 (o + 1) = .ok target ∧ o' = target
  | .closure => ∃ n ≤ maxExtraRootsNumber, bf.code32 (o + 1 + 4) = .ok n ∧ o' = o + 9 + 5 * n
  | _ => o' = o + fixedLength type

/-- The operand that decides what STA does is an integer. -/
def integerIndex (s : State) : Bool := isBoxedInt (s.stack (s.top + 2))

/-- The slot the instruction at `code_ptr` stores to, if any. -/
def storeSlot (M : Machine) (s : State) (type : InstructionType) : Option ℤ :=
  match type with
  | .st => match M.bf.lowBitsAt s.codePtr, M.bf.code32 (s.codePtr + 1) with
    | .ok low, .ok index => match MemVar.ofByte low with
      | .global => some (globalSlot M s index)
      | .local => some (s.fp - index)
      | .argument => some (s.fp + 4 + index)
      | _ => none
    | _, _ => none
  | .sta | .sti => if integerIndex s then none else M.slotOf (s.stack (s.top + 1))
  | _ => none

/-! ### The handlers one by one -/

section Handlers

variable {M : Machine} {b : ℤ} {store : Option ℤ} {s₀ : State} {t pc : ℤ} (E : Env M)

theorem consumeArgs1_tracks : Tracks M b store s₀ t pc (consumeArgs1 M) t (pc + 5)
    (fun a => M.bf.code32 (pc + 1) = .ok a) :=
  (operand_tracks 0).bind fun a ha => (advance_tracks 5).bind fun _ _ => tracks_pure (by simpa using ha)

theorem consumeArgs2_tracks : Tracks M b store s₀ t pc (consumeArgs2 M) t (pc + 9)
    (fun a => M.bf.code32 (pc + 1) = .ok a.1 ∧ M.bf.code32 (pc + 1 + 4) = .ok a.2) :=
  (operand_tracks 0).bind fun a ha => (operand_tracks 1).bind fun b hb =>
    (advance_tracks 9).bind fun _ _ => tracks_pure ⟨by simpa using ha, by simpa using hb⟩

theorem lowBitsAt_of_code {o : ℤ} {c : ℕ} (h : M.bf.code o = .ok c) :
    M.bf.lowBitsAt o = .ok (lowBits c) := by
  rw [Bytefile.lowBitsAt, h]
  rfl

theorem consumeLowerBits0_tracks : Tracks M b store s₀ t pc (consumeLowerBits0 M) t (pc + 1)
    (fun low => M.bf.lowBitsAt pc = .ok low) :=
  tracks_get_bind fun _ _ hpc _ _ => by
    rw [hpc]
    exact readFileByte_tracks.bind fun c hc => (advance_tracks 1).bind fun _ _ =>
      tracks_pure (lowBitsAt_of_code hc)

theorem consumeLowerBits1_tracks : Tracks M b store s₀ t pc (consumeLowerBits1 M) t (pc + 5)
    (fun a => M.bf.lowBitsAt pc = .ok a.1 ∧ M.bf.code32 (pc + 1) = .ok a.2) :=
  tracks_get_bind fun _ _ hpc _ _ => by
    rw [hpc]
    exact readFileByte_tracks.bind fun c hc => (operand_tracks 0).bind fun a ha =>
      (advance_tracks 5).bind fun _ _ => tracks_pure ⟨lowBitsAt_of_code hc, by simpa using ha⟩

theorem consumeDesignations_tracks (n : ℕ) : ∀ {pc : ℤ}, Tracks M b store s₀ t pc
    (consumeDesignations M n) t (pc + 5 * n) (fun ds => ds.length = n) := by
  induction n with
  | zero => exact fun {pc} => (tracks_pure rfl).congr rfl (by omega)
  | succ n ih =>
    intro pc
    refine tracks_get_bind fun s _ _ _ _ => readFileByte_tracks.bind fun d _ =>
      (advance_tracks 5).bind fun _ _ => ?_
    exact (ih.bind fun ds hds => tracks_pure (by rw [List.length_cons, hds])).congr rfl (by omega)

theorem binopInterpreter_tracks {t' : ℤ} (h : ∀ low, M.bf.lowBitsAt pc = .ok low →
    (∀ raw, BinOp.ofByte low ≠ .other raw) → t + 2 ≤ b ∧ t' = t + 1) :
    Tracks M b store s₀ t pc (binopInterpreter M) t' (pc + 1) (fun _ => True) := by
  have two : ∀ {pc' : ℤ} (k : Word → Word → Exec Unit), t + 2 ≤ b →
      (∀ x y, Tracks M b store s₀ (t + 1 + 1) pc' (k x y) (t + 1) pc' (fun _ => True)) →
      Tracks M b store s₀ t pc' (do
        let x ← peekOp M
        popOp
        let y ← peekOp M
        popOp
        k x y) (t + 1) pc' (fun _ => True) := by
    intro pc' k hb hk
    exact (peekOp_tracks (by omega)).bind fun x _ => (popOp_tracks (by omega)).bind fun _ _ =>
      (peekOp_tracks (by omega)).bind fun y _ => (popOp_tracks (by omega)).bind fun _ _ => hk x y
  have boxed : ∀ {pc' : ℤ} (op : BinOp), t + 2 ≤ b →
      Tracks M b store s₀ t pc' (boxed M op) (t + 1) pc' (fun _ => True) := fun op hb =>
    two _ hb fun x y => (pushOp_tracks (by omega)).congr (by omega) rfl
  have unboxed : ∀ {pc' : ℤ} (op : BinOp), t + 2 ≤ b →
      Tracks M b store s₀ t pc' (boxedUnboxed M op) (t + 1) pc' (fun _ => True) := fun op hb =>
    two _ hb fun x y => by
      split
      · exact tracks_throw
      · exact (pushOp_tracks (by omega)).congr (by omega) rfl
  refine consumeLowerBits0_tracks.bind fun low hlow => ?_
  have hlow := h low hlow
  cases hop : BinOp.ofByte low <;> rw [hop] at hlow
  case other => exact tracks_throw
  case eq | neq => 
    obtain ⟨hb, rfl⟩ := hlow fun raw h => (nomatch h)
    exact boxed _ hb
  all_goals
    obtain ⟨hb, rfl⟩ := hlow fun raw h => (nomatch h)
    exact unboxed _ hb

theorem boxingSexp_tracks {t' : ℤ} (ht : t ≤ b) (h : ∀ n, M.bf.code32 (pc + 1 + 4) = .ok n →
    n + 1 < 2 ^ 32 → t + n ≤ b ∧ t' = t + n - 1) :
    Tracks M b store s₀ t pc (boxingSexp E) t' (pc + 9) (fun _ => True) := by
  refine consumeArgs2_tracks.bind fun ⟨tag, n⟩ ⟨_, hn⟩ => ?_
  have hlt := Bytefile.code32_lt hn
  have hargs : (n + 1 < 2 ^ 32 → toU32 (n + 1) = n + 1) ∧ (¬ n + 1 < 2 ^ 32 → toU32 (n + 1) = 0) := by
    unfold toU32
    omega
  have hb : t - 1 + toU32 (n + 1) ≤ b := by
    by_cases hwrap : n + 1 < 2 ^ 32
    · have := h n hn hwrap
      have := hargs.1 hwrap
      omega
    · have := hargs.2 hwrap
      omega
  refine (quiet_getStringPtr M tag).tracks.bind fun tagPtr _ =>
    (quiet_LtagHash tagPtr).tracks.bind fun hash _ => (pushOp_tracks ht).bind fun _ _ =>
    tracks_get_bind fun s htop _ _ _ => ?_
  rw [htop]
  refine (touch_tracks hb).bind fun _ _ =>
    (Bsexp_tracks E (by omega) (by omega)).bind fun res hpos => ?_
  by_cases hwrap : n + 1 < 2 ^ 32
  · obtain ⟨hle, rfl⟩ := h n hn hwrap
    rw [hargs.1 hwrap]
    exact (popOps_tracks (by omega)).bind fun _ _ => (pushOp_tracks (by omega)).congr (by omega) rfl
  · have := hargs.2 hwrap
    omega

theorem boxingString_tracks (h : t ≤ b) :
    Tracks M b store s₀ t pc (boxingString M) (t - 1) (pc + 5) (fun _ => True) :=
  consumeArgs1_tracks.bind fun index _ => (quiet_getStringPtr M index).tracks.bind fun _ _ =>
    pushOp_tracks h

theorem callRead_tracks (h : t ≤ b) :
    Tracks M b store s₀ t pc (callRead E) (t - 1) (pc + 1) (fun _ => True) :=
  (advance_tracks 1).bind fun _ _ => (quiet_Lread E).tracks.bind fun _ _ => pushOp_tracks h

theorem callWrite_tracks (h : t + 1 ≤ b) :
    Tracks M b store s₀ t pc (callWrite M) t (pc + 1) (fun _ => True) :=
  (advance_tracks 1).bind fun _ _ => (peekOp_tracks h).bind fun _ _ => (quiet_Lwrite _).tracks

theorem callLength_tracks (h : t + 1 ≤ b) :
    Tracks M b store s₀ t pc (callLength M) t (pc + 1) (fun _ => True) :=
  (advance_tracks 1).bind fun _ _ => (peekOp_tracks h).bind fun _ _ => (popOp_tracks h).bind fun _ _ =>
    (quiet_Llength _).tracks.bind fun _ _ => (pushOp_tracks h).congr (by omega) rfl

theorem callString_tracks (h : t + 1 ≤ b) :
    Tracks M b store s₀ t pc (callString E) t (pc + 1) (fun _ => True) :=
  (advance_tracks 1).bind fun _ _ => (peekOp_tracks h).bind fun a _ =>
    tracks_get_bind fun _ _ _ _ _ => (Lstring_tracks E _ a (by omega)).bind fun _ _ =>
    (popOp_tracks h).bind fun _ _ => (pushOp_tracks h).congr (by omega) rfl

theorem callArray_tracks {t' : ℤ} (h : ∀ n, M.bf.code32 (pc + 1) = .ok n →
    t + n ≤ b ∧ t' = t + n - 1) :
    Tracks M b store s₀ t pc (callArray E) t' (pc + 5) (fun _ => True) := by
  refine consumeArgs1_tracks.bind fun n hn => ?_
  obtain ⟨hb, rfl⟩ := h n hn
  refine tracks_get_bind fun s ht _ _ _ => ?_
  rw [ht]
  exact (touch_tracks hb).bind fun _ _ => (reverseSlots_tracks (by omega)).bind fun _ _ =>
    (Barray_tracks E (by omega) (by omega)).bind fun _ _ => (popOps_tracks hb).bind fun _ _ =>
    pushOp_tracks hb

theorem callElem_tracks (h : t + 2 ≤ b) :
    Tracks M b store s₀ t pc (callElem M) (t + 1) (pc + 1) (fun _ => True) :=
  (advance_tracks 1).bind fun _ _ => (peekOp_tracks (by omega)).bind fun _ _ =>
    (popOp_tracks (by omega)).bind fun _ _ => (peekOp_tracks (by omega)).bind fun _ _ =>
    (popOp_tracks (by omega)).bind fun _ _ => (quiet_Belem _ _).tracks.bind fun _ _ =>
    (pushOp_tracks (by omega)).congr (by omega) rfl

theorem helperLine_tracks : Tracks M b store s₀ t pc helperLine t (pc + 5) (fun _ => True) :=
  advance_tracks 5

theorem helperFail_tracks {u q : ℤ} :
    Tracks M b store s₀ t pc (helperFail M) u q (fun _ => True) :=
  consumeArgs2_tracks.bind fun _ _ => tracks_throw

theorem memLoad_tracks (h : t ≤ b) :
    Tracks M b store s₀ t pc (memLoad M) (t - 1) (pc + 5) (fun _ => True) := by
  refine consumeLowerBits1_tracks.bind fun ⟨low, index⟩ _ => ?_
  dsimp only
  cases MemVar.ofByte low with
  | global => exact (quiet_getGlobal M index).tracks.bind fun _ _ => pushOp_tracks h
  | «local» => exact (quiet_getLocal M index).tracks.bind fun _ _ => pushOp_tracks h
  | argument => exact (quiet_getArg M index).tracks.bind fun _ _ => pushOp_tracks h
  | closure => exact (quiet_getClosure M index).tracks.bind fun _ _ => pushOp_tracks h
  | other => exact tracks_throw

theorem stackLda_tracks (h : t ≤ b) :
    Tracks M b store s₀ t pc (stackLda M) (t - 1) (pc + 5) (fun _ => True) := by
  refine consumeLowerBits1_tracks.bind fun ⟨low, index⟩ _ => ?_
  dsimp only
  have link : ∀ f : State → Word, Quiet (do let s ← get; return f s : Exec Word) := fun f =>
    quiet_get_bind fun _ => quiet_pure _
  cases MemVar.ofByte low with
  | global => exact (link _).tracks.bind fun _ _ => pushOp_tracks h
  | «local» => exact (link _).tracks.bind fun _ _ => pushOp_tracks h
  | argument => exact (link _).tracks.bind fun _ _ => pushOp_tracks h
  | closure => exact (quiet_getClosure M index).tracks.bind fun _ _ => pushOp_tracks h
  | other => exact tracks_throw

theorem stackDup_tracks (h : t + 1 ≤ b) :
    Tracks M b store s₀ t pc (stackDup M) (t - 1) (pc + 1) (fun _ => True) :=
  (advance_tracks 1).bind fun _ _ => (peekOp_tracks h).bind fun _ _ => pushOp_tracks (by omega)

theorem stackDrop_tracks (h : t + 1 ≤ b) :
    Tracks M b store s₀ t pc stackDrop (t + 1) (pc + 1) (fun _ => True) :=
  (advance_tracks 1).bind fun _ _ => popOp_tracks h

theorem stackConst_tracks (h : t ≤ b) :
    Tracks M b store s₀ t pc (stackConst M) (t - 1) (pc + 5) (fun _ => True) :=
  consumeArgs1_tracks.bind fun _ _ => pushOp_tracks h

theorem stackSwap_tracks (h : t + 2 ≤ b) :
    Tracks M b store s₀ t pc (stackSwap M) t (pc + 1) (fun _ => True) :=
  (advance_tracks 1).bind fun _ _ => (peekOp_tracks (by omega)).bind fun _ _ =>
    (popOp_tracks (by omega)).bind fun _ _ => (peekOp_tracks (by omega)).bind fun _ _ =>
    (popOp_tracks (by omega)).bind fun _ _ => (pushOp_tracks (by omega)).bind fun _ _ =>
    (pushOp_tracks (by omega)).congr (by omega) rfl

theorem unboxingTag_tracks (h : t + 1 ≤ b) :
    Tracks M b store s₀ t pc (unboxingTag M) t (pc + 9) (fun _ => True) :=
  consumeArgs2_tracks.bind fun ⟨tag, _⟩ _ => (quiet_getStringPtr M tag).tracks.bind fun _ _ =>
    (peekOp_tracks h).bind fun _ _ => (popOp_tracks h).bind fun _ _ =>
    (quiet_LtagHash _).tracks.bind fun _ _ => (quiet_Btag _ _ _).tracks.bind fun _ _ =>
    (pushOp_tracks h).congr (by omega) rfl

theorem unboxingArray_tracks (h : t + 1 ≤ b) :
    Tracks M b store s₀ t pc (unboxingArray M) t (pc + 5) (fun _ => True) :=
  consumeArgs1_tracks.bind fun _ _ => (peekOp_tracks h).bind fun _ _ => (popOp_tracks h).bind fun _ _ =>
    (quiet_BarrayPatt _ _).tracks.bind fun _ _ => (pushOp_tracks h).congr (by omega) rfl

theorem quiet_Bsta {x i v : Word} (hi : isBoxedInt i = true) : Quiet (Bsta M x i v) := by
  unfold Bsta
  rw [if_pos hi]
  refine (quiet_getObj x).bind fun o => ?_
  split
  · exact (quiet_setObj _ _).bind fun _ => quiet_pure _
  · exact quiet_throw _

theorem quiet_setClosure (index : ℕ) (w : Word) : Quiet (setClosure M index w) :=
  (quiet_closurePtr M).bind fun _ => (quiet_Bsta (isBoxedInt_boxInt _)).bind fun _ => quiet_pure ()

/-- ST writes to the slot of its variable, which may lie above the operands. -/
theorem memStore_tracks (hpc : pc = s₀.codePtr) (hstore : store = storeSlot M s₀ .st)
    (h : ∀ low, M.bf.lowBitsAt pc = .ok low → (∀ raw, MemVar.ofByte low ≠ .other raw) → t + 1 ≤ b) :
    Tracks M b store s₀ t pc (memStore M) t (pc + 5) (fun _ => True) := by
  refine consumeLowerBits1_tracks.bind fun ⟨low, index⟩ ⟨hlow, hindex⟩ => ?_
  have hslot : ∀ i : ℤ, (match MemVar.ofByte low with
      | .global => some (globalSlot M s₀ index)
      | .local => some (s₀.fp - index)
      | .argument => some (s₀.fp + 4 + index)
      | _ => none) = some i → store = some i := by
    intro i hi
    rw [hstore, storeSlot, ← hpc]
    simp only [hlow, hindex]
    exact hi
  have hb := h low hlow
  dsimp only
  cases hvar : MemVar.ofByte low <;> rw [hvar] at hb hslot
  case global =>
    refine (peekOp_tracks (hb fun _ h => (nomatch h))).bind fun w _ =>
      tracks_get_bind fun s _ _ _ hcounter => writeSlot_tracks (.inr (hslot _ ?_))
    rw [globalSlot, globalSlot, hcounter]
  case «local» =>
    refine (peekOp_tracks (hb fun _ h => (nomatch h))).bind fun w _ =>
      tracks_get_bind fun s _ _ hfp _ => writeSlot_tracks (.inr (hslot _ ?_))
    rw [hfp]
  case argument =>
    refine (peekOp_tracks (hb fun _ h => (nomatch h))).bind fun w _ =>
      tracks_get_bind fun s _ _ hfp _ => writeSlot_tracks (.inr (hslot _ ?_))
    rw [hfp]
  case closure =>
    exact (peekOp_tracks (hb fun _ h => (nomatch h))).bind fun w _ =>
      (quiet_setClosure index w).tracks
  case other => exact tracks_throw

theorem patt_tracks {t' : ℤ} (h : ∀ low, M.bf.lowBitsAt pc = .ok low → match Patt.ofByte low with
      | .other _ => True
      | .strCmp => t + 2 ≤ b ∧ t' = t + 1
      | _ => t + 1 ≤ b ∧ t' = t) :
    Tracks M b store s₀ t pc (patt M) t' (pc + 1) (fun _ => True) := by
  refine consumeLowerBits0_tracks.bind fun low hlow => ?_
  have hb := h low hlow
  have one : ∀ {pc' : ℤ} (test : Word → Exec Word), (∀ x, Quiet (test x)) → t + 1 ≤ b ∧ t' = t →
      Tracks M b store s₀ t pc' (do
        let x ← peekOp M
        let r ← test x
        popOp
        pushOp M r) t' pc' (fun _ => True) := by
    rintro pc' test htest ⟨hb, rfl⟩
    exact (peekOp_tracks hb).bind fun x _ => (htest x).tracks.bind fun _ _ =>
      (popOp_tracks hb).bind fun _ _ => (pushOp_tracks hb).congr (by omega) rfl
  cases hp : Patt.ofByte low <;> rw [hp] at hb
  case strCmp =>
    obtain ⟨hb, rfl⟩ := hb
    exact (peekOp_tracks (by omega)).bind fun _ _ => (popOp_tracks (by omega)).bind fun _ _ =>
      (peekOp_tracks (by omega)).bind fun _ _ => (quiet_BstringPatt _ _).tracks.bind fun _ _ =>
      (popOp_tracks (by omega)).bind fun _ _ => (pushOp_tracks (by omega)).congr (by omega) rfl
  case closure => exact one _ (quiet_tagPatt _) hb
  case array => exact one _ (quiet_tagPatt _) hb
  case string => exact one _ (quiet_tagPatt _) hb
  case sexp => exact one _ (quiet_tagPatt _) hb
  case boxed => exact one (fun x => pure (BboxedPatt x)) (fun _ => quiet_pure _) hb
  case unBoxed => exact one (fun x => pure (BunboxedPatt x)) (fun _ => quiet_pure _) hb
  case other => exact (tracks_throw (q := pc) (u := t) (A := fun _ => False)).bind fun _ h => h.elim

theorem pushDesignations_tracks (ds : List Designation) : ∀ {t : ℤ}, t ≤ b →
    Tracks M b store s₀ t pc (pushDesignations M ds) (t - ds.length) pc (fun _ => True) := by
  induction ds with
  | nil => exact fun {t} _ => (tracks_pure trivial).congr (by simp) rfl
  | cons d ds ih =>
    intro t h
    have rest : Tracks M b store s₀ (t - 1) pc (pushDesignations M ds) (t - (d :: ds).length) pc
        (fun _ => True) :=
      (ih (by omega)).congr (by rw [List.length_cons]; omega) rfl
    unfold pushDesignations
    cases d.memVar
    case «local» => exact (quiet_getLocal M _).tracks.bind fun _ _ => (pushOp_tracks h).bind fun _ _ => rest
    case argument => exact (quiet_getArg M _).tracks.bind fun _ _ => (pushOp_tracks h).bind fun _ _ => rest
    case closure =>
      exact (quiet_getClosure M _).tracks.bind fun _ _ => (pushOp_tracks h).bind fun _ _ => rest
    all_goals exact (tracks_throw (q := pc) (u := t) (A := fun _ => False)).bind fun _ h => h.elim

/-! ### Handlers whose stores or jumps depend on operands -/

/-- The program leads to top `t'` and to one of the offsets in `N`. -/
def Lands (M : Machine) (b : ℤ) (store : Option ℤ) (s₀ : State) (t pc : ℤ) {α : Type} (x : Exec α)
    (t' : ℤ) (N : ℤ → Prop) : Prop :=
  Triple (Track M b store s₀ t pc) x (fun _ s => ∃ pc', N pc' ∧ Track M b store s₀ t' pc' s)
    (Within b s₀)

theorem Tracks.lands_of {α : Type} {t' pc' : ℤ} {x : Exec α} {A : α → Prop} {N : ℤ → Prop}
    (h : Tracks M b store s₀ t pc x t' pc' A) (hN : ∀ a, A a → N pc') :
    Lands M b store s₀ t pc x t' N := Triple.post h fun a _ hs => ⟨pc', hN a hs.1, hs.2⟩

theorem Tracks.lands {α : Type} {t' pc' : ℤ} {x : Exec α} {A : α → Prop} {N : ℤ → Prop}
    (h : Tracks M b store s₀ t pc x t' pc' A) (hN : N pc') :
    Lands M b store s₀ t pc x t' N := h.lands_of fun _ _ => hN

theorem Tracks.bind_lands {α β : Type} {t' t'' pc' : ℤ} {x : Exec α} {f : α → Exec β} {A : α → Prop}
    {N : ℤ → Prop} (hx : Tracks M b store s₀ t pc x t' pc' A)
    (hf : ∀ a, A a → Lands M b store s₀ t' pc' (f a) t'' N) :
    Lands M b store s₀ t pc (x >>= f) t'' N :=
  Triple.bind hx fun a => triple_of_fact (hf a)

theorem closuresCreate_lands {t' : ℤ} (h : t ≤ b) (ht' : t - 1 = t') :
    Lands M b store s₀ t pc (closuresCreate E) t' (NextOffset M.bf pc .closure) := by
  refine consumeArgs2_tracks.bind_lands fun ⟨ip, n⟩ ⟨_, hn⟩ =>
    Tracks.lands_of (A := fun _ => n ≤ maxExtraRootsNumber) ?_ fun _ hroots => ⟨n, hroots, hn, rfl⟩
  refine (consumeDesignations_tracks n).bind fun ds hds =>
    (pushDesignations_tracks ds.reverse h).bind fun _ _ => (pushOp_tracks (by omega)).bind fun _ _ =>
    tracks_get_bind fun s ht _ _ _ => ?_
  rw [List.length_reverse, hds] at ht ⊢
  rw [ht]
  refine (Bclosure_tracks E (by omega) (by omega)).bind fun res hroots => ?_
  have hn : toU32 (n + 1) = n + 1 := by
    unfold maxExtraRootsNumber at hroots
    unfold toU32
    omega
  rw [hn]
  refine (popOps_tracks (by omega)).bind fun _ _ => ?_
  exact ((pushOp_tracks (by omega)).congr (by omega) rfl).weaken fun _ _ => hroots

theorem jump_lands : Lands M b store s₀ t pc (jump M) t (NextOffset M.bf pc .jmp) :=
  consumeArgs1_tracks.bind_lands fun target htarget =>
    (jumpTo_tracks _).lands ⟨target, htarget, rfl⟩

/-- CJMPz and CJMPnz differ in the test only. -/
theorem jumpIf_lands (test : Word → Prop) [DecidablePred test] {t' : ℤ} (h : t + 1 ≤ b)
    (ht : t + 1 = t') :
    Lands M b store s₀ t pc (do
      let target ← consumeArgs1 M
      let val ← peekOp M
      popOp
      if test val then jumpTo target else return ()) t' (NextOffset M.bf pc .cjmpz) := by
  refine consumeArgs1_tracks.bind_lands fun target htarget => (peekOp_tracks h).bind_lands fun val _ =>
    ((popOp_tracks h).congr ht rfl).bind_lands fun _ _ => ?_
  split
  · exact (jumpTo_tracks _).lands (.inr ⟨target, htarget, rfl⟩)
  · exact (tracks_pure (A := fun _ => True) trivial).lands (.inl rfl)

theorem storeWord_tracks {ptr w : Word} (h : store = M.slotOf ptr) :
    Tracks M b store s₀ t pc (storeWord M ptr w) t pc (fun _ => True) := by
  have hobj : Tracks M b store s₀ t pc (storeWord.storeObj ptr w) t pc (fun _ => True) :=
    Quiet.tracks (quiet_of_still fun s => by
      have hset : ∀ o, Still s (finalState (setObj ptr o s)) :=
        fun _ => ⟨rfl, rfl, rfl, rfl, rfl, rfl, rfl, rfl, rfl⟩
      unfold storeWord.storeObj
      split
      · exact hset _
      · exact hset _
      · exact hset _
      · exact ⟨rfl, rfl, rfl, rfl, rfl, rfl, rfl, rfl, rfl⟩
      · exact Still.refl s)
  intro s hs
  unfold storeWord
  cases hslot : M.slotOf ptr with
  | none => exact hobj s hs
  | some i =>
    by_cases hr : 0 ≤ i ∧ i < M.maxStack
    · have hw := writeSlot_tracks (M := M) (b := b) (w := w) (.inr (h.trans hslot)) s hs
      rw [writeSlot, if_pos hr] at hw
      simp only [if_pos hr]
      exact hw
    · simp only [if_neg hr]
      exact hobj s hs

/-- The state is tracked and no word of the stack has changed yet. -/
def Idle (M : Machine) (b : ℤ) (store : Option ℤ) (s₀ : State) (t pc : ℤ) (s : State) : Prop :=
  Track M b store s₀ t pc s ∧ s.stack = s₀.stack

theorem advance_idle (n : ℕ) : Triple (Idle M b store s₀ t pc) (advance n)
    (fun _ => Idle M b store s₀ t (pc + n)) (Within b s₀) :=
  fun s hs => ⟨(advance_tracks n s hs.1).2, hs.2⟩

theorem peekOp_idle (h : t + 1 ≤ b) : Triple (Idle M b store s₀ t pc) (peekOp M)
    (fun w s => w = s₀.stack (t + 1) ∧ Idle M b store s₀ t pc s) (Within b s₀) := by
  intro s hs
  have htouch := (touch_tracks h (s := s) hs.1).2
  have hpeek : peekOp M s = readSlot M (s.top + 1) { s with touched := max s.touched (s.top + 1) } :=
    rfl
  rw [← hs.1.2.1] at h htouch ⊢
  rw [hpeek, readSlot]
  by_cases hr : 0 ≤ s.top + 1 ∧ s.top + 1 < M.maxStack
  · rw [if_pos hr]
    exact ⟨by rw [← hs.2], htouch, hs.2⟩
  · rw [if_neg hr]
    exact htouch.within

theorem popOp_idle (h : t + 1 ≤ b) : Triple (Idle M b store s₀ t pc) popOp
    (fun _ => Idle M b store s₀ (t + 1) pc) (Within b s₀) :=
  fun s hs => ⟨(popOp_tracks h s hs.1).2, hs.2⟩

/-- The start of STA and STI: the words of the first two operands. -/
theorem popTwo_triple (h : t + 2 ≤ b) {k : Word → Word → Exec Unit} {N : ℤ → Prop} {t' : ℤ}
    (hk : Lands M b store s₀ (t + 2) (pc + 1) (k (s₀.stack (t + 1)) (s₀.stack (t + 2))) t' N) :
    Triple (Idle M b store s₀ t pc) (do
      advance 1
      let z ← peekOp M
      popOp
      let i ← peekOp M
      popOp
      k z i) (fun _ s => ∃ pc', N pc' ∧ Track M b store s₀ t' pc' s) (Within b s₀) := by
  refine (advance_idle 1).bind fun _ => (peekOp_idle (by omega)).bind fun z =>
    triple_of_fact fun hz => (popOp_idle (by omega)).bind fun _ => (peekOp_idle (by omega)).bind fun i =>
    triple_of_fact fun hi => (popOp_idle (by omega)).bind fun _ => ?_
  have ht : t + 1 + 1 = t + 2 := by omega
  rw [ht] at hi ⊢
  subst hz hi
  exact Triple.pre hk fun s hs => hs.1

theorem stackSta_triple (t' : ℤ) (h : t + 2 ≤ b) (ht : t = s₀.top)
    (hstore : store = storeSlot M s₀ .sta)
    (hb : if integerIndex s₀ then t + 3 ≤ b ∧ t' = t + 2 else t' = t + 1) :
    Triple (Idle M b store s₀ t pc) (stackSta M)
      (fun _ s => ∃ pc', pc' = pc + 1 ∧ Track M b store s₀ t' pc' s) (Within b s₀) := by
  refine popTwo_triple h (k := fun z i => if isBoxedInt i then do
      let x ← peekOp M
      popOp
      let _ ← Bsta M x i z
      pushOp M z
    else do
      let w ← loadWord M i
      storeWord M z w
      pushOp M z) ?_
  unfold integerIndex at hb
  rw [← ht] at hb
  split
  · rename_i hi
    rw [if_pos hi] at hb
    obtain ⟨hb, rfl⟩ := hb
    exact ((peekOp_tracks (by omega)).bind fun x _ => (popOp_tracks (by omega)).bind fun _ _ =>
      (quiet_Bsta hi).tracks.bind fun _ _ =>
      (pushOp_tracks (by omega)).congr (by omega) rfl).lands rfl
  · rename_i hi
    rw [if_neg hi] at hb
    rw [storeSlot, integerIndex, ← ht, if_neg hi] at hstore
    exact ((quiet_loadWord M _).tracks.bind fun w _ => (storeWord_tracks hstore).bind fun _ _ =>
      (pushOp_tracks (by omega)).congr (by omega) rfl).lands rfl

theorem stackSti_triple (h : t + 2 ≤ b) (ht : t = s₀.top)
    (hstore : store = storeSlot M s₀ .sti) :
    Triple (Idle M b store s₀ t pc) (stackSti M)
      (fun _ s => ∃ pc', pc' = pc + 1 ∧ Track M b store s₀ (t + 1) pc' s) (Within b s₀) := by
  refine popTwo_triple h (k := fun z i =>
    if isBoxedInt i then throw (.runtimeError "For STI second argument should be a variable")
    else do
      let w ← loadWord M i
      storeWord M z w
      pushOp M z) ?_
  split
  · exact (tracks_throw (u := t + 1) (A := fun _ => True)).lands rfl
  · rename_i hi
    rw [storeSlot, integerIndex, ← ht, if_neg hi] at hstore
    exact ((quiet_loadWord M _).tracks.bind fun w _ => (storeWord_tracks hstore).bind fun _ _ =>
      (pushOp_tracks (by omega)).congr (by omega) rfl).lands rfl

/-! ### All of them -/

/-- The operand words the instruction uses, 0 when its operand bytes cannot be read. -/
def need (bf : Bytefile) (o : ℤ) (type : InstructionType) (integerIndex : Bool) : ℕ :=
  match operandEffect bf o type integerIndex with
  | .ok (n, _) => n
  | .error _ => 0

/-- The words the instruction puts in place of the operands it uses. -/
def leaves (bf : Bytefile) (o : ℤ) (type : InstructionType) (integerIndex : Bool) : ℕ :=
  match operandEffect bf o type integerIndex with
  | .ok (_, n) => n
  | .error _ => 0

/-- The instruction stays in its activation. -/
def InstructionType.isPlain : InstructionType → Bool
  | .begin | .cbegin | .call | .callc | .end => false
  | _ => true

theorem need_of_ok {bf : Bytefile} {o : ℤ} {type : InstructionType} {i : Bool} {n l : ℕ}
    (h : operandEffect bf o type i = .ok (n, l)) : need bf o type i = n ∧ leaves bf o type i = l := by
  rw [need, leaves, h]
  exact ⟨rfl, rfl⟩

theorem go_triple {P F : State → Prop} {handler : Exec Unit} {N : ℤ → Prop} {t' : ℤ}
    (h : Triple P handler (fun _ s => ∃ pc', N pc' ∧ Track M b store s₀ t' pc' s) F) :
    Triple P (do handler; return false)
      (fun ended s => ended = false ∧ ∃ pc', N pc' ∧ Track M b store s₀ t' pc' s) F :=
  h.bind fun _ => triple_pure fun _ hs => ⟨rfl, hs⟩

theorem track_start (s : State) (hs : s = s₀) : Track M b store s₀ s₀.top s₀.codePtr s := by
  subst hs
  exact ⟨Keeps.refl M _ _ s, rfl, rfl⟩

theorem idle_start (s : State) (hs : s = s₀) : Idle M b store s₀ s₀.top s₀.codePtr s :=
  ⟨track_start s hs, by rw [hs]⟩

/-- The instruction uses and leaves what the table says, stores only to the slot the table names, and
    goes to one of its next offsets; when it fails it has touched no more. -/
def RunsPlain (type : InstructionType) (s₀ : State) : Prop :=
  Triple (· = s₀) (dispatch E type)
    (fun ended s => ended = false ∧ ∃ pc', NextOffset M.bf s₀.codePtr type pc' ∧
      Track M (s₀.top + need M.bf s₀.codePtr type (integerIndex s₀)) (storeSlot M s₀ type) s₀
        (s₀.top + need M.bf s₀.codePtr type (integerIndex s₀)
          - leaves M.bf s₀.codePtr type (integerIndex s₀)) pc' s)
    (Within (s₀.top + need M.bf s₀.codePtr type (integerIndex s₀)) s₀)

section Plain

variable {E} {type : InstructionType} {handler : Exec Unit} {n l : ℕ} {t' pc' : ℤ}

/-- From what the handler does to an entry of the table that is not looked up in the code. -/
theorem RunsPlain.of_effect (heffect : operandEffect M.bf s₀.codePtr type (integerIndex s₀) = .ok (n, l))
    (hdispatch : dispatch E type = (do handler; return false))
    (h : Triple (· = s₀) handler (fun _ s => ∃ pc', NextOffset M.bf s₀.codePtr type pc' ∧
      Track M (s₀.top + n) (storeSlot M s₀ type) s₀ (s₀.top + n - l) pc' s) (Within (s₀.top + n) s₀)) :
    RunsPlain E type s₀ := by
  obtain ⟨hn, hl⟩ := need_of_ok heffect
  rw [RunsPlain, hn, hl, hdispatch]
  exact go_triple h

/-- A handler that goes on behind the instruction. -/
theorem RunsPlain.of_tracks (hdispatch : dispatch E type = (do handler; return false))
    (h : Tracks M (s₀.top + need M.bf s₀.codePtr type (integerIndex s₀)) (storeSlot M s₀ type) s₀ s₀.top
      s₀.codePtr handler t' pc' (fun _ => True))
    (ht : t' = s₀.top + need M.bf s₀.codePtr type (integerIndex s₀)
      - leaves M.bf s₀.codePtr type (integerIndex s₀))
    (hnext : NextOffset M.bf s₀.codePtr type pc') : RunsPlain E type s₀ := by
  rw [RunsPlain, hdispatch]
  exact go_triple (((h.congr ht rfl).lands hnext).pre track_start)

/-- Both at once -/
theorem RunsPlain.of_entry (heffect : operandEffect M.bf s₀.codePtr type (integerIndex s₀) = .ok (n, l))
    (hdispatch : dispatch E type = (do handler; return false))
    (h : Tracks M (s₀.top + n) (storeSlot M s₀ type) s₀ s₀.top s₀.codePtr handler t' pc' (fun _ => True))
    (ht : t' = s₀.top + n - l) (hnext : NextOffset M.bf s₀.codePtr type pc') : RunsPlain E type s₀ :=
  .of_effect heffect hdispatch (((h.congr ht rfl).lands hnext).pre track_start)

end Plain

variable {type : InstructionType}

/-- The instructions of the stack alone -/
theorem stack_plain (h : type = .const ∨ type = .drop ∨ type = .dup ∨ type = .swap) : RunsPlain E type s₀ := by
  rcases h with rfl | rfl | rfl | rfl
  · exact .of_entry (n := 0) (l := 1) rfl rfl (stackConst_tracks (by omega)) (by omega) rfl
  · exact .of_entry (n := 1) (l := 0) rfl rfl (stackDrop_tracks (by omega)) (by omega) rfl
  · exact .of_entry (n := 1) (l := 2) rfl rfl (stackDup_tracks (by omega)) (by omega) rfl
  · exact .of_entry (n := 2) (l := 2) rfl rfl (stackSwap_tracks (by omega)) (by omega) rfl

/-- The calls of the runtime with a fixed number of operands, and the strings of the table -/
theorem runtime_plain (h : type = .callRead ∨ type = .callWrite ∨ type = .callLength ∨ type = .callString ∨
    type = .elem ∨ type = .tag ∨ type = .array ∨ type = .string) : RunsPlain E type s₀ := by
  rcases h with rfl | rfl | rfl | rfl | rfl | rfl | rfl | rfl
  · exact .of_entry (n := 0) (l := 1) rfl rfl (callRead_tracks E (by omega)) (by omega) rfl
  · exact .of_entry (n := 1) (l := 1) rfl rfl (callWrite_tracks (by omega)) (by omega) rfl
  · exact .of_entry (n := 1) (l := 1) rfl rfl (callLength_tracks (by omega)) (by omega) rfl
  · exact .of_entry (n := 1) (l := 1) rfl rfl (callString_tracks E (by omega)) (by omega) rfl
  · exact .of_entry (n := 2) (l := 1) rfl rfl (callElem_tracks (by omega)) (by omega) rfl
  · exact .of_entry (n := 1) (l := 1) rfl rfl (unboxingTag_tracks (by omega)) (by omega) rfl
  · exact .of_entry (n := 1) (l := 1) rfl rfl (unboxingArray_tracks (by omega)) (by omega) rfl
  · exact .of_entry (n := 0) (l := 1) rfl rfl (boxingString_tracks (by omega)) (by omega) rfl

/-- LINE and FAIL -/
theorem helper_plain (h : type = .line ∨ type = .fail) : RunsPlain E type s₀ := by
  rcases h with rfl | rfl
  · exact .of_entry (n := 0) (l := 0) rfl rfl helperLine_tracks (by omega) rfl
  · exact .of_entry (n := 0) (l := 0) rfl rfl (helperFail_tracks (u := s₀.top) (q := s₀.codePtr + 9)) (by omega) rfl

/-- The jumps go to their target or fall through. -/
theorem jump_plain (h : type = .jmp ∨ type = .cjmpz ∨ type = .cjmpnz) : RunsPlain E type s₀ := by
  rcases h with rfl | rfl | rfl
  · refine .of_effect (n := 0) (l := 0) rfl rfl ?_
    rw [show s₀.top + (0 : ℕ) - (0 : ℕ) = s₀.top by omega]
    exact Triple.pre jump_lands track_start
  · exact .of_effect (n := 1) (l := 0) rfl rfl
      (Triple.pre (jumpIf_lands (t := s₀.top) (· = boxInt 0) (by omega) (by omega)) track_start)
  · exact .of_effect (n := 1) (l := 0) rfl rfl
      (Triple.pre (jumpIf_lands (t := s₀.top) (· ≠ boxInt 0) (by omega) (by omega)) track_start)

/-- The number of operands stands in the code. -/
theorem counted_plain (h : type = .callArray ∨ type = .sexp) : RunsPlain E type s₀ := by
  rcases h with rfl | rfl
  · refine .of_tracks rfl (callArray_tracks E fun n hn => ?_) rfl rfl
    have heffect : operandEffect M.bf s₀.codePtr .callArray (integerIndex s₀) = .ok (n, 1) := by
      rw [operandEffect, hn]
      rfl
    obtain ⟨hn, hl⟩ := need_of_ok heffect
    rw [hn, hl]
    omega
  · refine .of_tracks rfl (boxingSexp_tracks E (by omega) fun n hn hwrap => ?_) rfl rfl
    have heffect : operandEffect M.bf s₀.codePtr .sexp (integerIndex s₀) = .ok (n, 1) := by
      rw [operandEffect, hn, except_ok_bind, if_pos hwrap]
      rfl
    obtain ⟨hn, hl⟩ := need_of_ok heffect
    rw [hn, hl]
    omega

theorem binop_plain : RunsPlain E .binop s₀ := by
  refine .of_tracks rfl (binopInterpreter_tracks fun low hlow hop => ?_) rfl rfl
  have heffect : operandEffect M.bf s₀.codePtr .binop (integerIndex s₀) = .ok (2, 1) := by
    rw [operandEffect, hlow, except_ok_bind]
    split
    · rename_i raw hraw
      exact absurd hraw (hop raw)
    · rfl
  obtain ⟨hn, hl⟩ := need_of_ok heffect
  rw [hn, hl]
  omega

theorem patt_plain : RunsPlain E .patt s₀ := by
  refine .of_tracks rfl (patt_tracks fun low hlow => ?_) rfl rfl
  have heffect : operandEffect M.bf s₀.codePtr .patt (integerIndex s₀) = match Patt.ofByte low with
      | .other _ => .ok (0, 0)
      | .strCmp => .ok (2, 1)
      | _ => .ok (1, 1) := by
    rw [operandEffect, hlow, except_ok_bind]
    cases Patt.ofByte low <;> rfl
  cases hp : Patt.ofByte low <;> rw [hp] at heffect
  case other => trivial
  all_goals
    obtain ⟨hn, hl⟩ := need_of_ok heffect
    rw [hn, hl]
    dsimp only
    omega

/-- LD and LDA -/
theorem load_plain (h : type = .ld ∨ type = .lda) : RunsPlain E type s₀ := by
  rcases h with rfl | rfl
  · exact .of_entry (n := 0) (l := 1) rfl rfl (memLoad_tracks (by omega)) (by omega) rfl
  · exact .of_entry (n := 0) (l := 1) rfl rfl (stackLda_tracks (by omega)) (by omega) rfl

theorem st_plain : RunsPlain E .st s₀ := by
  have heffect : ∀ low, M.bf.lowBitsAt s₀.codePtr = .ok low →
      operandEffect M.bf s₀.codePtr .st (integerIndex s₀) = match MemVar.ofByte low with
        | .other _ => .ok (0, 0)
        | _ => .ok (1, 1) := fun low hlow => by
    rw [operandEffect, hlow, except_ok_bind]
    cases MemVar.ofByte low <;> rfl
  refine .of_tracks rfl (memStore_tracks rfl rfl fun low hlow hvar => ?_) ?_ rfl
  · have heffect := heffect low hlow
    cases hv : MemVar.ofByte low <;> rw [hv] at heffect
    case other raw => exact absurd hv (hvar raw)
    all_goals
      rw [(need_of_ok heffect).1]
      omega
  · cases hlow : M.bf.lowBitsAt s₀.codePtr with
    | error e =>
      rw [need, leaves, operandEffect, hlow]
      show s₀.top = s₀.top + (0 : ℕ) - (0 : ℕ)
      omega
    | ok low =>
      have heffect := heffect low hlow
      cases hv : MemVar.ofByte low <;> rw [hv] at heffect
      all_goals
        rw [(need_of_ok heffect).1, (need_of_ok heffect).2]
        omega

/-- STI, and STA with an element or a reference -/
theorem assign_plain (h : type = .sta ∨ type = .sti) : RunsPlain E type s₀ := by
  rcases h with rfl | rfl
  · cases hi : integerIndex s₀ with
    | true =>
      refine .of_effect (n := 3) (l := 1) (by rw [hi]; rfl) rfl (Triple.pre
        (stackSta_triple (s₀.top + (3 : ℕ) - (1 : ℕ)) (by omega) rfl rfl (by rw [if_pos hi]; omega)) idle_start)
    | false =>
      refine .of_effect (n := 2) (l := 1) (by rw [hi]; rfl) rfl (Triple.pre
        (stackSta_triple (s₀.top + (2 : ℕ) - (1 : ℕ)) (by omega) rfl rfl
          (by rw [hi]; simp only [Bool.false_eq_true, if_false]; omega)) idle_start)
  · refine .of_effect (n := 2) (l := 1) rfl rfl ?_
    rw [show s₀.top + (2 : ℕ) - (1 : ℕ) = s₀.top + 1 by omega]
    exact Triple.pre (stackSti_triple (by omega) rfl rfl) idle_start

theorem closure_plain : RunsPlain E .closure s₀ :=
  .of_effect (n := 0) (l := 1) rfl rfl
    (Triple.pre (closuresCreate_lands E (t := s₀.top) (by omega) (by omega)) track_start)

theorem unknown_plain (h : dispatch E type = throw (.runtimeError "Unknown instruction")) : RunsPlain E type s₀ := by
  rw [RunsPlain, h]
  have start : ∀ {b : ℤ} s, s = s₀ → Track M b none s₀ s₀.top s₀.codePtr s := track_start
  exact triple_throw fun s hs => (start s hs).within

/-- The handler of a plain instruction uses and leaves what the table says, stores only to the slot
    the table names, and goes to one of its next offsets; when it fails it has touched no more. -/
theorem dispatch_plain (type : InstructionType) (hplain : type.isPlain = true) (s₀ : State) :
    Triple (· = s₀) (dispatch E type)
      (fun ended s => ended = false ∧ ∃ pc', NextOffset M.bf s₀.codePtr type pc' ∧
        Track M (s₀.top + need M.bf s₀.codePtr type (integerIndex s₀)) (storeSlot M s₀ type) s₀
          (s₀.top + need M.bf s₀.codePtr type (integerIndex s₀)
            - leaves M.bf s₀.codePtr type (integerIndex s₀)) pc' s)
      (Within (s₀.top + need M.bf s₀.codePtr type (integerIndex s₀)) s₀) := by
  show RunsPlain E type s₀
  cases type
  case «begin» | cbegin | call | callc | «end» => cases hplain
  case const | drop | dup | swap => exact stack_plain E (by decide)
  case callRead | callWrite | callLength | callString | elem | tag | array | string =>
    exact runtime_plain E (by decide)
  case line | fail => exact helper_plain E (by decide)
  case jmp | cjmpz | cjmpnz => exact jump_plain E (by decide)
  case callArray | sexp => exact counted_plain E (by decide)
  case ld | lda => exact load_plain E (by decide)
  case sta | sti => exact assign_plain E (by decide)
  case binop => exact binop_plain E
  case patt => exact patt_plain E
  case st => exact st_plain E
  case closure => exact closure_plain E
  case ret | other => exact unknown_plain E rfl

end Handlers

end LamaSM
