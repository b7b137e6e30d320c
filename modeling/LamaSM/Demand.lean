import LamaSM.Depths

/-! How many operand words an instruction really uses.

    `dispatch_within` bounds what every handler reads and pops by its entry in `operandEffect`, the
    handlers of BEGIN, CALL, CALLC and END included. `Short` compares that entry with the depth the
    verifier computed: it holds of the marked instructions whose handler reaches below its own
    operands (`within_iff`). `LeftOpen` says of each opcode at which depth that gets past the tests of
    `collect_marks`. -/

namespace LamaSM
open Lib

/-! ### No handler uses more -/

section Within

variable {M : Machine} (E : Env M) {b : ℤ} {s₀ : State} {t pc : ℤ} {α β : Type}

/-- The program touches no operand above `b`. -/
def Modest (b : ℤ) (s₀ : State) (x : Exec α) : Prop :=
  Triple (Within b s₀) x (fun _ => Within b s₀) (Within b s₀)

theorem Modest.bind {x : Exec α} {f : α → Exec β} (hx : Modest b s₀ x)
    (hf : ∀ a, Modest b s₀ (f a)) : Modest b s₀ (x >>= f) := Triple.bind hx hf

theorem modest_pure (a : α) : Modest b s₀ (pure a : Exec α) := triple_pure fun _ h => h

theorem Quiet.modest {x : Exec α} (hx : Quiet x) : Modest b s₀ x := by
  intro s hs
  have h := hx s s (Still.refl s)
  cases hxs : x s with
  | ok a s' =>
    rw [hxs] at h
    exact (show s'.touched ≤ _ by rw [h.touched]; exact hs)
  | error e s' =>
    rw [hxs] at h
    exact (show s'.touched ≤ _ by rw [h.touched]; exact hs)

theorem modest_modify {f : State → State}
    (hf : ∀ s, (f s).touched = s.touched := by intro s; rfl) :
    Modest b s₀ (modify f : Exec PUnit) := fun s hs => by
  show (f s).touched ≤ _
  rw [hf]
  exact hs

theorem modest_writeSlot (i : ℤ) (w : Word) : Modest b s₀ (writeSlot M i w) := fun s hs => by
  unfold writeSlot
  split_ifs <;> exact hs

theorem modest_reverseSlots (a : ℤ) (n : ℕ) : Modest b s₀ (reverseSlots M a n) := fun s hs => by
  unfold reverseSlots
  split_ifs <;> exact hs

theorem modest_touch {i : ℤ} (hi : i ≤ b) : Modest b s₀ (touch i) := fun s hs => by
  unfold Within at hs
  show max s.touched i ≤ _
  omega

theorem modest_jumpTo (o : ℤ) : Modest b s₀ (jumpTo o) := fun _ hs => hs

/-- A frame is pushed at the current top, so its arguments lie right above. -/
theorem pushStackFrame_within {n isClosure : ℕ} {ra : Word} (h : t + toU32 (n + isClosure) ≤ b) :
    Triple (Track M b none s₀ t pc) (pushStackFrame M n ra isClosure) (fun _ => Within b s₀)
      (Within b s₀) := by
  intro s hs
  have htop := hs.2.1
  have hrest : Modest b s₀ (do
      touch (s.top + toU32 (n + isClosure))
      (if 1 < n then reverseSlots M (s.top + 1) n else return ())
      writeSlot M s.top ra
      writeSlot M (s.top - 1) (M.slotAddr s.fp)
      writeSlot M (s.top - 2) (M.slotAddr (s.top + toU32 (n + isClosure)))
      modify fun s => { s with
        top := s.top - 3
        fp := s.top - 3
        activations := ⟨s.top - 3, n, isClosure, ra, 0⟩ :: s.activations }) := by
    refine (modest_touch (by omega)).bind fun _ => Modest.bind ?_ fun _ =>
      (modest_writeSlot _ _).bind fun _ => (modest_writeSlot _ _).bind fun _ =>
      (modest_writeSlot _ _).bind fun _ => modest_modify
    split
    · exact modest_reverseSlots _ _
    · exact modest_pure ()
  exact hrest { s with argSizes := toI32 n :: s.argSizes } hs.within

theorem callStackBegin_within : Triple (Track M b none s₀ t pc) (callStackBegin M)
    (fun _ => Within b s₀) (Within b s₀) := by
  refine Triple.bind consumeArgs2_tracks fun ⟨arg, nLocals⟩ => triple_of_fact fun _ => ?_
  intro s hs
  have hrest : Modest b s₀ (if s.top + 1 < ((arg / 2 ^ 16 : ℕ) : ℤ) + nLocals then do
      let text ← readFileByte (M.bf.cString (M.bf.codePtr + s.codePtr - 9))
      throw (.runtimeError s!"Stack overflow at \x7b\x7d{asText text}")
    else reserveLocals nLocals) := by
    split
    · exact (quiet_readFileByte _).modest.bind fun _ => (quiet_throw _).modest
    · exact fun _ hs => hs
  exact hrest s hs.within

theorem callStackCall_within (h : ∀ n, M.bf.code32 (pc + 1 + 4) = .ok n → t + n ≤ b) :
    Triple (Track M b none s₀ t pc) (callStackCall M) (fun _ => Within b s₀) (Within b s₀) := by
  refine Triple.bind consumeArgs2_tracks fun ⟨target, n⟩ => triple_of_fact fun hargs => ?_
  have hn := hargs.2
  have hb := h n hn
  have hlt := Bytefile.code32_lt hn
  intro s hs
  have hpush : Triple (Track M b none s₀ t (pc + 9)) (pushStackFrame M n (M.codeAddr s.codePtr) 0)
      (fun _ => Within b s₀) (Within b s₀) := pushStackFrame_within (by unfold toU32; omega)
  exact (hpush.bind fun _ => modest_jumpTo (target : ℤ)) s hs

theorem closuresCall_within (h : ∀ n, M.bf.code32 (pc + 1) = .ok n → t + n + 1 ≤ b) :
    Triple (Track M b none s₀ t pc) (closuresCall M) (fun _ => Within b s₀) (Within b s₀) := by
  refine Triple.bind consumeArgs1_tracks fun n => triple_of_fact fun hn => ?_
  have hb := h n hn
  have hlt := Bytefile.code32_lt hn
  intro s hs
  have htop := hs.2.1
  refine (Triple.bind (readOperand_tracks (i := s.top + 1 + n) (by omega)) fun closurePtr =>
    triple_of_fact fun _ => Triple.bind (quiet_Belem _ _).tracks fun elem =>
    triple_of_fact fun _ => ?_) s hs
  intro u hu
  have hpush : Triple (Track M b none s₀ t (pc + 5)) (pushStackFrame M n (M.codeAddr u.codePtr) 1)
      (fun _ => Within b s₀) (Within b s₀) := pushStackFrame_within (by unfold toU32; omega)
  exact (hpush.bind fun _ => modest_jumpTo (unbox elem)) u hu

theorem popStackFrame_modest : Modest b s₀ (popStackFrame M) := by
  have hptr : ∀ w, Quiet (slotPtr M w) := fun w => by
    unfold slotPtr
    split
    · exact quiet_pure _
    · exact quiet_throw _
  intro s hs
  rw [popStackFrame, exec_get_bind]
  cases s.argSizes with
  | nil => exact (quiet_throw (α := Word) (.undefined .argSizes)).modest s hs
  | cons n ns =>
    exact (Modest.bind modest_modify fun _ => (quiet_readSlot M _).modest.bind fun _ =>
      (hptr _).modest.bind fun _ => Modest.bind modest_modify fun _ =>
      (quiet_readSlot M _).modest.bind fun _ => (hptr _).modest.bind fun _ =>
      Modest.bind modest_modify fun _ => (quiet_readSlot M _).modest) s hs

theorem pushOp_modest (w : Word) : Modest b s₀ (pushOp M w) := by
  intro s hs
  exact ((modest_writeSlot s.top w).bind fun _ => modest_modify) s hs

theorem callStackEnd_within (h : t + 1 ≤ b) :
    Triple (Track M b none s₀ t pc) (callStackEnd M) (fun _ => Within b s₀) (Within b s₀) := by
  refine Triple.bind (advance_tracks 1) fun _ => triple_of_fact fun _ =>
    Triple.bind (peekOp_tracks h) fun val => triple_of_fact fun _ => ?_
  have hrest : Modest b s₀ (do
      let codePtr ← popStackFrame M
      if codePtr = 0 then return true
      else do
        modify fun s => { s with codePtr := M.codeOffset codePtr }
        pushOp M val
        return false) := by
    refine popStackFrame_modest.bind fun codePtr => ?_
    split
    · exact modest_pure true
    · exact Modest.bind modest_modify fun _ => (pushOp_modest val).bind fun _ =>
        modest_pure false
  exact Triple.pre hrest fun s hs => hs.within

/-- No handler reads or pops an operand above those its entry in the table counts. -/
theorem dispatch_within (type : InstructionType) (s₀ : State) :
    Triple (· = s₀) (dispatch E type)
      (fun _ => Within (s₀.top + need M.bf s₀.codePtr type (integerIndex s₀)) s₀)
      (Within (s₀.top + need M.bf s₀.codePtr type (integerIndex s₀)) s₀) := by
  have start : ∀ {b : ℤ} (s : State), s = s₀ → Track M b none s₀ s₀.top s₀.codePtr s :=
    fun s hs => by
      subst hs
      exact ⟨Keeps.refl M _ _ s, rfl, rfl⟩
  have go : ∀ {b : ℤ} {handler : Exec Unit},
      Triple (Track M b none s₀ s₀.top s₀.codePtr) handler (fun _ => Within b s₀) (Within b s₀) →
      Triple (· = s₀) (do handler; return false : Exec Bool) (fun _ => Within b s₀) (Within b s₀) :=
    fun h => (h.pre start).bind fun _ => triple_pure fun _ hs => hs
  cases hplain : type.isPlain with
  | true =>
    refine Triple.post (dispatch_plain E type hplain s₀) fun ended s hs => ?_
    obtain ⟨-, pc', -, ht⟩ := hs
    exact ht.within
  | false =>
    cases type
    case «begin» | cbegin => exact go callStackBegin_within
    case call =>
      refine go (callStackCall_within fun n hn => ?_)
      rw [(need_of_ok (n := n) (l := 1) (by rw [operandEffect, hn]; rfl)).1]
    case callc =>
      refine go (closuresCall_within fun n hn => ?_)
      rw [(need_of_ok (n := n + 1) (l := 1) (by rw [operandEffect, hn]; rfl)).1]
      omega
    case «end» =>
      have hend : Triple (Track M (s₀.top + 1) none s₀ s₀.top s₀.codePtr) (callStackEnd M)
          (fun _ => Within (s₀.top + 1) s₀) (Within (s₀.top + 1) s₀) := callStackEnd_within (by omega)
      exact Triple.pre hend start
    all_goals cases hplain

end Within

/-! ### Instructions that run short -/

/-- The fixed operands of the instruction at `o` can be read. -/
def Readable (bf : Bytefile) (o : ℤ) (type : InstructionType) : Prop :=
  ∀ k < (fixedLength type - 1) / 4, ∃ w, bf.code32 (o + 1 + 4 * k) = .ok w

/-- There is an instruction at `o`, and by the table it uses more than `d` operand words, an STA
    taken with an integer index. -/
def Short (bf : Bytefile) (o d : ℤ) : Prop :=
  ∃ type n l, bf.typeAt o = .ok type ∧ Readable bf o type ∧
    operandEffect bf o type true = .ok (n, l) ∧ d < n

section Short

variable {M : Machine} {E : Env M} {s : State}

theorem operand_unreadable {k : ℕ} (h : ∀ w, M.bf.code32 (s.codePtr + 1 + 4 * k) ≠ .ok w) :
    ∃ e, operand M k s = .error e s := by
  cases hw : M.bf.code32 (s.codePtr + 1 + 4 * k) with
  | ok w => exact absurd hw (h w)
  | error e => exact ⟨e, exec_bind_error.mpr (.inr ⟨s, s, rfl, by rw [hw]; rfl⟩)⟩

theorem consumeArgs1_unreadable (h : ∀ w, M.bf.code32 (s.codePtr + 1 + 4 * (0 : ℕ)) ≠ .ok w) :
    ∃ e, consumeArgs1 M s = .error e s := by
  obtain ⟨e, he⟩ := operand_unreadable h
  exact ⟨e, exec_bind_error.mpr (.inl he)⟩

theorem consumeArgs2_unreadable {k : ℕ} (hk : k < 2)
    (h : ∀ w, M.bf.code32 (s.codePtr + 1 + 4 * k) ≠ .ok w) : ∃ e, consumeArgs2 M s = .error e s := by
  by_cases h0 : ∃ w, M.bf.code32 (s.codePtr + 1 + 4 * (0 : ℕ)) = .ok w
  · obtain ⟨w, hw⟩ := h0
    have hk1 : k = 1 := by
      have : k ≠ 0 := fun hk0 => h w (by rw [hk0]; exact hw)
      omega
    subst hk1
    obtain ⟨e, he⟩ := operand_unreadable h
    have hok : operand M 0 s = .ok w s :=
      exec_bind_ok.mpr ⟨s, s, rfl, by rw [hw]; rfl⟩
    exact ⟨e, exec_bind_error.mpr (.inr ⟨w, s, hok, exec_bind_error.mpr (.inl he)⟩)⟩
  · obtain ⟨e, he⟩ := operand_unreadable fun w hw => h0 ⟨w, hw⟩
    exact ⟨e, exec_bind_error.mpr (.inl he)⟩

theorem consumeLowerBits1_unreadable
    (h : ∀ w, M.bf.code32 (s.codePtr + 1 + 4 * (0 : ℕ)) ≠ .ok w) :
    ∃ e, consumeLowerBits1 M s = .error e s := by
  cases hc : M.bf.code s.codePtr with
  | error e =>
    exact ⟨e, exec_bind_error.mpr (.inr ⟨s, s, rfl, exec_bind_error.mpr (.inl (by rw [hc]; rfl))⟩)⟩
  | ok c =>
    obtain ⟨e, he⟩ := operand_unreadable h
    exact ⟨e, exec_bind_error.mpr (.inr ⟨s, s, rfl, exec_bind_error.mpr (.inr ⟨c, s, by rw [hc]; rfl,
      exec_bind_error.mpr (.inl he)⟩)⟩)⟩

/-- A handler that cannot read its operands touches nothing, or uses nothing anyway. -/
theorem dispatch_unreadable {type : InstructionType} (h : ¬ Readable M.bf s.codePtr type) :
    Within s.top s (finalState (dispatch E type s)) := by
  have hself : Within s.top s s := Int.le_max_left _ _
  obtain ⟨k, hk, hw⟩ : ∃ k < (fixedLength type - 1) / 4,
      ∀ w, M.bf.code32 (s.codePtr + 1 + 4 * k) ≠ .ok w := by
    by_contra hno
    exact h fun k hk => by_contra fun hw => hno ⟨k, hk, fun w hok => hw ⟨w, hok⟩⟩
  have first : ∀ {α : Type} {x : Exec α} {f : α → Exec Unit}, (∃ e, x s = .error e s) →
      Within s.top s (finalState ((do (x >>= f); return false : Exec Bool) s)) := by
    rintro α x f ⟨e, he⟩
    rw [exec_bind_error.mpr (.inl (exec_bind_error.mpr (.inl he)))]
    exact hself
  have unused : need M.bf s.codePtr type (integerIndex s) = 0 →
      Within s.top s (finalState (dispatch E type s)) := by
    intro hneed
    have hd := dispatch_within E type s s rfl
    rw [hneed, show s.top + ((0 : ℕ) : ℤ) = s.top by omega] at hd
    cases hr : dispatch E type s with
    | ok ended s' => rw [hr] at hd; exact hd
    | error e s' => rw [hr] at hd; exact hd
  have hzero : (fixedLength type - 1) / 4 = 1 → ∀ w, M.bf.code32 (s.codePtr + 1 + 4 * (0 : ℕ)) ≠ .ok w := by
    intro h1
    have hk0 : k = 0 := by omega
    rw [hk0] at hw
    exact hw
  cases type
  case cjmpz | cjmpnz | array | callArray | callc => exact first (consumeArgs1_unreadable (hzero rfl))
  case st => exact first (consumeLowerBits1_unreadable (hzero rfl))
  case tag | sexp | call => exact first (consumeArgs2_unreadable hk hw)
  case jmp | const | string | ld | lda | line | «begin» | cbegin | closure | fail | other =>
    exact unused rfl
  all_goals exact absurd hk (Nat.not_lt_zero k)

/-- Taking the index of STA for an integer only raises what the table says. -/
theorem need_le_true (bf : Bytefile) (o : ℤ) (type : InstructionType) (i : Bool) :
    need bf o type i ≤ need bf o type true := by
  cases type
  case sta =>
    cases i
    · exact show 2 ≤ 3 by decide
    · exact Nat.le_refl _
  all_goals exact Nat.le_refl _

/-- An instruction that is not short stays within its operands. -/
theorem within_of_not_short {d : ℤ} (h0 : 0 ≤ d) (h : ¬ Short M.bf s.codePtr d) :
    Within (s.top + d) s (finalState (turn E s)) := by
  have hmono : ∀ {b : ℤ} {u : State}, b ≤ s.top + d → Within b s u → Within (s.top + d) s u := by
    intro b u hb hu
    unfold Within at hu ⊢
    omega
  cases hc : M.bf.code s.codePtr with
  | error e =>
    have hturn : turn E s = .error e s := exec_bind_error.mpr (.inl
      (exec_bind_error.mpr (.inr ⟨s, s, rfl, exec_bind_error.mpr (.inl (by rw [hc]; rfl))⟩)))
    rw [hturn]
    exact Int.le_max_left _ _
  | ok c =>
    have hat : At M s (getInstructionType c) := by rw [At, Bytefile.typeAt, hc]; rfl
    have hturn : turn E s = dispatch E (getInstructionType c) s := by
      have hnext := nextInstruction_ok.mpr ⟨hat, rfl⟩
      simp only [turn, bind, EStateM.bind, hnext]
    rw [hturn]
    by_cases hread : Readable M.bf s.codePtr (getInstructionType c)
    · have hneed : need M.bf s.codePtr (getInstructionType c) (integerIndex s) ≤ d := by
        have hle := need_le_true M.bf s.codePtr (getInstructionType c) (integerIndex s)
        cases heff : operandEffect M.bf s.codePtr (getInstructionType c) true with
        | error e =>
          have hz : need M.bf s.codePtr (getInstructionType c) true = 0 := by rw [need, heff]
          omega
        | ok nl =>
          obtain ⟨n, l⟩ := nl
          rw [(need_of_ok heff).1] at hle
          by_contra hlt
          exact h ⟨_, n, l, hat, hread, heff, by omega⟩
      have hd := dispatch_within E (getInstructionType c) s s rfl
      cases hr : dispatch E (getInstructionType c) s with
      | ok ended s' => rw [hr] at hd; exact hmono (by omega) hd
      | error e s' => rw [hr] at hd; exact hmono (by omega) hd
    · exact hmono (by omega) (dispatch_unreadable hread)

end Short

/-! ### An instruction that is short -/

/-- The program leaves slot `i` or a higher one touched, also when it fails. -/
def Touches {α : Type} (i : ℤ) (x : Exec α) (s : State) : Prop := i ≤ (finalState (x s)).touched

section Touches

variable {M : Machine} {s s' : State} {i : ℤ} {α β : Type}

theorem touches_of_ok {x : Exec α} {f : α → Exec β} {a : α} (hx : x s = .ok a s')
    (hf : Touches i (f a) s') : Touches i (x >>= f) s := by
  unfold Touches at hf ⊢
  simp only [bind, EStateM.bind, hx]
  exact hf

theorem touches_of_error {x : Exec α} {f : α → Exec β} {e : Fault} (hx : x s = .error e s')
    (h : i ≤ s'.touched) : Touches i (x >>= f) s := by
  unfold Touches
  rw [exec_bind_error.mpr (.inl hx)]
  exact h

theorem Touches.go {handler : Exec Unit} (h : Touches i handler s) :
    Touches i (do handler; return false) s := by
  unfold Touches at h
  cases hs : handler s with
  | ok u s' =>
    rw [hs] at h
    exact touches_of_ok hs h
  | error e s' =>
    rw [hs] at h
    exact touches_of_error hs h

theorem touches_assoc {γ : Type} {x : Exec α} {g : α → Exec β} {f : β → Exec γ}
    (h : Touches i (x >>= fun a => g a >>= f) s) : Touches i ((x >>= g) >>= f) s := by
  rwa [bind_assoc]

/-- An operand read above the stack is touched all the same. -/
theorem touches_peek {f : Word → Exec β} (h : M.maxStack ≤ s.top + 1) :
    Touches M.maxStack (peekOp M >>= f) s := by
  have hpeek : peekOp M s = .error (.undefined (.stackRead (s.top + 1)))
      { s with touched := max s.touched (s.top + 1) } := by
    have hr : ¬ (0 ≤ s.top + 1 ∧ s.top + 1 < M.maxStack) := by omega
    show readSlot M (s.top + 1) { s with touched := max s.touched (s.top + 1) } = _
    rw [readSlot, if_neg hr]
  refine touches_of_error hpeek ?_
  show (M.maxStack : ℤ) ≤ max s.touched (s.top + 1)
  omega

theorem peekOp_inside (h0 : 0 ≤ s.top + 1) (h : s.top + 1 < M.maxStack) :
    peekOp M s = .ok (s.stack (s.top + 1)) { s with touched := max s.touched (s.top + 1) } := by
  show readSlot M (s.top + 1) { s with touched := max s.touched (s.top + 1) } = _
  rw [readSlot, if_pos ⟨h0, h⟩]

/-- Popping two operands, with at most one left. -/
theorem touches_peek_two {f : Word → Word → Exec β} (h : M.maxStack ≤ s.top + 2) (h0 : 0 ≤ s.top + 1) :
    Touches M.maxStack (do
      let x ← peekOp M
      popOp
      let y ← peekOp M
      f x y) s := by
  by_cases hlast : M.maxStack ≤ s.top + 1
  · exact touches_peek hlast
  · exact touches_of_ok (peekOp_inside h0 (by omega))
      (touches_of_ok rfl (touches_peek (show _ ≤ s.top + 1 + 1 by omega)))

/-- Popping two operands that are there. -/
theorem touches_pop_two {f : Word → Word → Exec β} (h0 : 0 ≤ s.top + 1) (h : s.top + 2 < M.maxStack)
    (hf : ∀ u : State, u.top = s.top + 2 →
      Touches i (f (s.stack (s.top + 1)) (s.stack (s.top + 1 + 1))) u) :
    Touches i (do
      let x ← peekOp M
      popOp
      let y ← peekOp M
      popOp
      f x y) s := by
  refine touches_of_ok (peekOp_inside h0 (by omega)) (touches_of_ok rfl ?_)
  refine touches_of_ok (peekOp_inside (show 0 ≤ s.top + 1 + 1 by omega)
    (show s.top + 1 + 1 < M.maxStack by omega)) (touches_of_ok rfl (hf _ ?_))
  show s.top + (1 : ℕ) + (1 : ℕ) = s.top + 2
  omega

theorem operand_readable {k w : ℕ} (h : M.bf.code32 (s.codePtr + 1 + 4 * k) = .ok w) :
    operand M k s = .ok w s :=
  exec_bind_ok.mpr ⟨s, s, rfl, by rw [h]; rfl⟩

theorem consumeArgs1_readable (h : ∃ w, M.bf.code32 (s.codePtr + 1 + 4 * (0 : ℕ)) = .ok w) :
    ∃ w, M.bf.code32 (s.codePtr + 1) = .ok w ∧
      consumeArgs1 M s = .ok w { s with codePtr := s.codePtr + 5 } := by
  obtain ⟨w, hw⟩ := h
  exact ⟨w, by simpa using hw, exec_bind_ok.mpr ⟨w, s, operand_readable hw, rfl⟩⟩

theorem consumeArgs2_readable (h0 : ∃ w, M.bf.code32 (s.codePtr + 1 + 4 * (0 : ℕ)) = .ok w)
    (h1 : ∃ w, M.bf.code32 (s.codePtr + 1 + 4 * (1 : ℕ)) = .ok w) :
    ∃ v w, M.bf.code32 (s.codePtr + 1 + 4) = .ok w ∧
      consumeArgs2 M s = .ok (v, w) { s with codePtr := s.codePtr + 9 } := by
  obtain ⟨v, hv⟩ := h0
  obtain ⟨w, hw⟩ := h1
  exact ⟨v, w, by simpa using hw, exec_bind_ok.mpr ⟨v, s, operand_readable hv,
    exec_bind_ok.mpr ⟨w, s, operand_readable hw, rfl⟩⟩⟩

theorem consumeLowerBits0_readable {low : ℕ} (h : M.bf.lowBitsAt s.codePtr = .ok low) :
    consumeLowerBits0 M s = .ok low { s with codePtr := s.codePtr + 1 } := by
  obtain ⟨c, hc, hlow⟩ := except_bind_ok.mp h
  cases hlow
  exact exec_bind_ok.mpr ⟨s, s, rfl, exec_bind_ok.mpr ⟨c, s, by rw [hc]; rfl, rfl⟩⟩

theorem consumeLowerBits1_readable {low : ℕ} (h : M.bf.lowBitsAt s.codePtr = .ok low)
    (h0 : ∃ w, M.bf.code32 (s.codePtr + 1 + 4 * (0 : ℕ)) = .ok w) :
    ∃ w, consumeLowerBits1 M s = .ok (low, w) { s with codePtr := s.codePtr + 5 } := by
  obtain ⟨c, hc, hlow⟩ := except_bind_ok.mp h
  cases hlow
  obtain ⟨w, hw⟩ := h0
  exact ⟨w, exec_bind_ok.mpr ⟨s, s, rfl, exec_bind_ok.mpr ⟨c, s, by rw [hc]; rfl,
    exec_bind_ok.mpr ⟨w, s, operand_readable hw, rfl⟩⟩⟩⟩

end Touches

/-- An environment in which no object can be allocated. -/
def barrenEnv (M : Machine) : Env M := Env.bump M fun _ => 0

/-- A state at offset `o` whose top is `t`, with the integer 0 in every slot; every address is that
    of a string. -/
def brink (M : Machine) (o t : ℤ) : State :=
  { emptyState (barrenEnv M) with
    codePtr := o
    top := t
    touched := t
    stack := fun _ => boxInt 0
    heap := fun _ => some (.string [97, 0]) }

section Brink

variable {M : Machine} {o d : ℤ} {type : InstructionType} {n l : ℕ}

/-- One operand more than the stack has is touched. -/
theorem brink_touches_one (hd : d = 0) (hread : Readable M.bf o type)
    (heff : operandEffect M.bf o type true = .ok (1, l)) (hpos : 0 < M.maxStack)
    (hcount : type ≠ .callArray ∧ type ≠ .sexp ∧ type ≠ .call ∧ type ≠ .callc) :
    Touches M.maxStack (dispatch (barrenEnv M) type) (brink M o (M.maxStack - 1 - d)) := by
  subst hd
  have hedge : ∀ {s : State}, s.top = M.maxStack - 1 - 0 → (M.maxStack : ℤ) ≤ s.top + 1 := by
    intro s hs
    omega
  cases type
  case dup => exact (touches_of_ok rfl (touches_peek (hedge rfl))).go
  case drop =>
    refine (touches_of_ok rfl ?_ : Touches _ (stackDrop) _).go
    show (M.maxStack : ℤ) ≤ max (M.maxStack - 1 - 0 : ℤ) (M.maxStack - 1 - 0 + (1 : ℕ))
    omega
  case callWrite => exact (touches_of_ok rfl (touches_peek (hedge rfl))).go
  case callLength => exact (touches_of_ok rfl (touches_peek (hedge rfl))).go
  case callString => exact (touches_of_ok rfl (touches_peek (hedge rfl))).go
  case «end» => exact touches_of_ok rfl (touches_peek (hedge rfl))
  case cjmpz | cjmpnz =>
    obtain ⟨w, -, hw⟩ := consumeArgs1_readable (s := brink M o (M.maxStack - 1 - 0)) (hread 0 (by decide))
    exact (touches_of_ok hw (touches_peek (hedge rfl))).go
  case array =>
    obtain ⟨w, -, hw⟩ := consumeArgs1_readable (s := brink M o (M.maxStack - 1 - 0)) (hread 0 (by decide))
    exact (touches_of_ok hw (touches_peek (hedge rfl))).go
  case tag =>
    obtain ⟨v, w, -, hw⟩ := consumeArgs2_readable (s := brink M o (M.maxStack - 1 - 0))
      (hread 0 (by decide)) (hread 1 (by decide))
    refine (touches_of_ok hw ?_).go
    have hptr : getStringPtr M v { brink M o (M.maxStack - 1 - 0) with codePtr := o + 9 } =
        .ok (boxInt 0) { brink M o (M.maxStack - 1 - 0) with
          codePtr := o + 9
          stringsMap := [(v, 0)] } := by
      show readSlot M (M.maxStack - 0 - 1) { brink M o (M.maxStack - 1 - 0) with
          codePtr := o + 9
          stringsMap := [(v, 0)] } = _
      rw [readSlot, if_pos (by omega)]
      rfl
    exact touches_of_ok hptr (touches_peek (hedge rfl))
  case st =>
    cases hlow : M.bf.lowBitsAt o with
    | error e =>
      rw [operandEffect, hlow] at heff
      cases heff
    | ok low =>
      rw [operandEffect, hlow, except_ok_bind] at heff
      obtain ⟨w, hw⟩ := consumeLowerBits1_readable (s := brink M o (M.maxStack - 1 - 0)) hlow
        (hread 0 (by decide))
      refine (touches_of_ok hw ?_).go
      dsimp only
      cases hv : MemVar.ofByte low <;> rw [hv] at heff <;> cases heff
      all_goals exact touches_peek (hedge rfl)
  case patt =>
    cases hlow : M.bf.lowBitsAt o with
    | error e =>
      rw [operandEffect, hlow] at heff
      cases heff
    | ok low =>
      rw [operandEffect, hlow, except_ok_bind] at heff
      refine (touches_of_ok (consumeLowerBits0_readable (s := brink M o (M.maxStack - 1 - 0)) hlow) ?_).go
      cases hv : Patt.ofByte low <;> rw [hv] at heff <;> cases heff
      all_goals exact touches_assoc (touches_peek (hedge rfl))
  case binop =>
    cases hlow : M.bf.lowBitsAt o with
    | error e =>
      rw [operandEffect, hlow] at heff
      cases heff
    | ok low =>
      rw [operandEffect, hlow, except_ok_bind] at heff
      cases hv : BinOp.ofByte low <;> rw [hv] at heff <;> cases heff
  case callArray => exact absurd rfl hcount.1
  case sexp => exact absurd rfl hcount.2.1
  case call => exact absurd rfl hcount.2.2.1
  case callc => exact absurd rfl hcount.2.2.2
  all_goals cases heff

/-- So is one of two operands, when there is at most one. -/
theorem brink_touches_two (hd : d = 0 ∨ d = 1)
    (heff : operandEffect M.bf o type true = .ok (2, l)) (hpos : 1 < M.maxStack)
    (hcount : type ≠ .callArray ∧ type ≠ .sexp ∧ type ≠ .call ∧ type ≠ .callc) :
    Touches M.maxStack (dispatch (barrenEnv M) type) (brink M o (M.maxStack - 1 - d)) := by
  have hedge : ∀ {s : State}, s.top = M.maxStack - 1 - d → (M.maxStack : ℤ) ≤ s.top + 2 := by
    intro s hs
    omega
  have hin : ∀ {s : State}, s.top = M.maxStack - 1 - d → 0 ≤ s.top + 1 := by
    intro s hs
    omega
  cases type
  case elem => exact (touches_of_ok rfl (touches_peek_two (hedge rfl) (hin rfl))).go
  case swap => exact (touches_of_ok rfl (touches_peek_two (hedge rfl) (hin rfl))).go
  case sti => exact (touches_of_ok rfl (touches_peek_two (hedge rfl) (hin rfl))).go
  case binop =>
    cases hlow : M.bf.lowBitsAt o with
    | error e =>
      rw [operandEffect, hlow] at heff
      cases heff
    | ok low =>
      rw [operandEffect, hlow, except_ok_bind] at heff
      refine (touches_of_ok (consumeLowerBits0_readable (s := brink M o (M.maxStack - 1 - d)) hlow) ?_).go
      cases hv : BinOp.ofByte low <;> rw [hv] at heff <;> cases heff
      all_goals exact touches_peek_two (hedge rfl) (hin rfl)
  case patt =>
    cases hlow : M.bf.lowBitsAt o with
    | error e =>
      rw [operandEffect, hlow] at heff
      cases heff
    | ok low =>
      rw [operandEffect, hlow, except_ok_bind] at heff
      refine (touches_of_ok (consumeLowerBits0_readable (s := brink M o (M.maxStack - 1 - d)) hlow) ?_).go
      cases hv : Patt.ofByte low <;> rw [hv] at heff <;> cases heff
      exact touches_assoc (touches_peek_two (hedge rfl) (hin rfl))
  case st =>
    cases hlow : M.bf.lowBitsAt o with
    | error e =>
      rw [operandEffect, hlow] at heff
      cases heff
    | ok low =>
      rw [operandEffect, hlow, except_ok_bind] at heff
      cases hv : MemVar.ofByte low <;> rw [hv] at heff <;> cases heff
  case callArray => exact absurd rfl hcount.1
  case sexp => exact absurd rfl hcount.2.1
  case call => exact absurd rfl hcount.2.2.1
  case callc => exact absurd rfl hcount.2.2.2
  all_goals cases heff

/-- STA with an integer index touches a third operand. -/
theorem brink_touches_sta (h0 : 0 ≤ d) (hd : d < 3) (hpos : 2 < M.maxStack) :
    Touches M.maxStack (dispatch (barrenEnv M) .sta) (brink M o (M.maxStack - 1 - d)) := by
  have htop : (brink M o (M.maxStack - 1 - d)).top = M.maxStack - 1 - d := rfl
  refine (touches_of_ok rfl ?_ : Touches _ (stackSta M) _).go
  by_cases hfirst : d < 2
  · exact touches_peek_two (show _ ≤ (M.maxStack : ℤ) - 1 - d + 2 by omega)
      (show 0 ≤ (M.maxStack : ℤ) - 1 - d + 1 by omega)
  · refine touches_pop_two (f := fun z i => if isBoxedInt i then do
        let x ← peekOp M
        popOp
        let _ ← Bsta M x i z
        pushOp M z
      else do
        let w ← loadWord M i
        storeWord M z w
        pushOp M z) (show 0 ≤ (M.maxStack : ℤ) - 1 - d + 1 by omega)
      (show (M.maxStack : ℤ) - 1 - d + 2 < M.maxStack by omega) fun u hu => ?_
    have hboxed : isBoxedInt (boxInt 0) = true := isBoxedInt_boxInt 0
    have hedge : (M.maxStack : ℤ) ≤ u.top + 1 := by
      rw [hu]
      show (M.maxStack : ℤ) ≤ (M.maxStack : ℤ) - 1 - d + 2 + 1
      omega
    show Touches M.maxStack (if isBoxedInt (boxInt 0) then _ else _) u
    rw [if_pos hboxed]
    exact touches_peek hedge

/-- Where nothing can be allocated a constructor fails without touching an operand. -/
theorem roots_barren {α : Type} {l : List RootRef} {f : Word → Exec α} {s : State} :
    ∃ e s', (do
      pushExtraRoots l
      let r ← alloc (barrenEnv M)
      f r) s = .error e s' ∧ s'.touched = s.touched := by
  have hq := quiet_pushExtraRoots l s s (Still.refl s)
  cases hps : pushExtraRoots l s with
  | error e s' =>
    rw [hps] at hq
    exact ⟨e, s', exec_bind_error.mpr (.inl hps), hq.touched⟩
  | ok u s' =>
    rw [hps] at hq
    have halloc : ∃ e, alloc (barrenEnv M) s' = .error e s' := by
      have hplace : (barrenEnv M).place s'.allocs s'.heap = none := by
        show (if M.heapZone 0 && _ then _ else _) = none
        rw [M.zone_null]
        rfl
      by_cases hnull : s'.allocs = 0 ∧ 0 ∈ rootWords M s'
      · exact ⟨_, exec_bind_of_error (if_pos hnull)⟩
      · refine ⟨.exit "ERROR: compact_phase: mmap failed\n",
          exec_bind_error.mpr (.inr ⟨(), s', if_neg hnull, ?_⟩)⟩
        rw [hplace]
    obtain ⟨e, halloc⟩ := halloc
    exact ⟨e, s', exec_bind_error.mpr (.inr ⟨u, s', hps, exec_bind_error.mpr (.inl halloc)⟩),
      hq.touched⟩

/-- A frame pushed above the stack touches its arguments before it fails. -/
theorem pushStackFrame_edge (ra : Word) {s : State} (hs : s.top = M.maxStack) (hn : 0 < n)
    (hlt : n < 2 ^ 32) : ∃ e s', pushStackFrame M n ra 0 s = .error e s' ∧ s.top + n ≤ s'.touched := by
  have hle : s.top + n ≤ max s.touched (s.top + toU32 (n + (0 : ℕ))) := by
    have h : ((n : ℤ) + (0 : ℕ)) = (n : ℤ) := by omega
    rw [h, toU32_of_lt hlt]
    omega
  by_cases h1 : 1 < n
  · refine ⟨.undefined (.stackRead (s.top + 1 + n - 1)), { s with
      argSizes := toI32 n :: s.argSizes
      touched := max s.touched (s.top + toU32 (n + (0 : ℕ))) }, ?_, hle⟩
    refine exec_bind_error.mpr (.inr ⟨(), _, rfl, exec_bind_error.mpr (.inr ⟨_, _, rfl,
      exec_bind_error.mpr (.inr ⟨(), _, rfl, exec_bind_error.mpr (.inl ?_)⟩)⟩)⟩)
    rw [if_pos h1]
    show reverseSlots M (s.top + 1) n _ = _
    rw [reverseSlots, if_neg (by omega), if_neg (by omega), if_pos (by omega)]
  · refine ⟨.undefined (.stackWrite s.top), { s with
      argSizes := toI32 n :: s.argSizes
      touched := max s.touched (s.top + toU32 (n + (0 : ℕ))) }, ?_, hle⟩
    refine exec_bind_error.mpr (.inr ⟨(), _, rfl, exec_bind_error.mpr (.inr ⟨_, _, rfl,
      exec_bind_error.mpr (.inr ⟨(), _, rfl, exec_bind_error.mpr (.inr ⟨(), _, by rw [if_neg h1]; rfl,
        exec_bind_error.mpr (.inl ?_)⟩)⟩)⟩)⟩)
    show writeSlot M s.top ra _ = _
    rw [writeSlot, if_neg (by omega)]

/-- CALL_ARRAY behind its operand. -/
theorem callArray_edge {s : State} (hs : s.top = M.maxStack) : Touches (s.top + n) (do
    let s ← get
    touch (s.top + n)
    reverseSlots M (s.top + 1) n
    let res ← Barray (barrenEnv M) (s.top + 1) n
    popOps n
    pushOp M res) s := by
  refine touches_of_ok (show (get : Exec State) s = .ok s s from rfl) (touches_of_ok
    (show touch (s.top + n) s = .ok () { s with touched := max s.touched (s.top + n) } from rfl) ?_)
  by_cases h1 : n ≤ 1
  · refine touches_of_ok (show reverseSlots M (s.top + 1) n _ = _ by rw [reverseSlots, if_pos h1]) ?_
    obtain ⟨e, s', hs', ht⟩ := roots_barren (M := M) (l := (argSlots (s.top + 1) 0 n).map .slot)
      (f := fun r => do
        let elems ← readArgs M (argSlots (s.top + 1) 0 n)
        popExtraRoots ((argSlots (s.top + 1) 0 n).reverse.map .slot)
        setObj r (.array elems)
        return r)
      (s := { s with touched := max s.touched (s.top + n) })
    refine touches_of_error hs' ?_
    rw [ht]
    exact Int.le_max_right _ _
  · refine touches_of_error (show reverseSlots M (s.top + 1) n _ =
      .error (.undefined (.stackRead (s.top + 1 + n - 1)))
        { s with touched := max s.touched (s.top + n) } from ?_) (Int.le_max_right _ _)
    rw [reverseSlots, if_neg h1, if_neg (by omega), if_pos (by omega)]

/-- SEXP behind its operands. -/
theorem boxingSexp_edge {s : State} {tag : ℕ} (hpos : 0 < M.maxStack) (hs : s.top = M.maxStack - 1)
    (hmap : s.stringsMap = []) (hheap : ∀ a, s.heap a = some (.string [97, 0])) (hn : n + 1 < 2 ^ 32) :
    Touches (s.top + n) (do
      let tagPtr ← getStringPtr M tag
      let hash ← LtagHash tagPtr
      pushOp M hash
      let nArgs := toU32 (n + 1)
      let s ← get
      touch (s.top + nArgs)
      let res ← Bsexp (barrenEnv M) (s.top + 1) nArgs
      popOps nArgs
      pushOp M res) s := by
  have hptr : getStringPtr M tag s = .ok (s.stack (M.maxStack - 0 - 1))
      { s with stringsMap := [(tag, 0)] } := by
    refine exec_bind_ok.mpr ⟨s, s, rfl, ?_⟩
    rw [hmap]
    show readSlot M (M.maxStack - 0 - 1) _ = _
    rw [readSlot, if_pos (by omega)]
    dsimp only
    rw [hmap]
  refine touches_of_ok hptr ?_
  have hhash : ∃ h, LtagHash (s.stack (M.maxStack - 0 - 1)) { s with stringsMap := [(tag, 0)] } =
      .ok h { s with stringsMap := [(tag, 0)] } := by
    refine ⟨boxInt 1, exec_bind_ok.mpr ⟨.string [97, 0], _, ?_, rfl⟩⟩
    rw [getObj, hheap]
  obtain ⟨hash, hhash⟩ := hhash
  refine touches_of_ok hhash ?_
  have hpush : pushOp M hash { s with stringsMap := [(tag, 0)] } = .ok () { s with
      stringsMap := [(tag, 0)]
      stack := Function.update s.stack s.top hash
      top := s.top - 1 } := by
    refine exec_bind_ok.mpr ⟨_, _, rfl, exec_bind_ok.mpr ⟨(), { s with
      stringsMap := [(tag, 0)]
      stack := Function.update s.stack s.top hash }, ?_, rfl⟩⟩
    show writeSlot M s.top hash _ = _
    rw [writeSlot, if_pos (by omega)]
  refine touches_of_ok hpush ?_
  have hargs : ((toU32 (n + 1) : ℕ) : ℤ) = n + 1 := by unfold toU32; omega
  obtain ⟨e, s', hs', ht⟩ := roots_barren (M := M)
    (l := (argSlots (s.top - 1 + 1) 1 (toU32 (n + 1) - 1)).map .slot)
    (f := fun r => if toU32 (n + 1) = 0 then throw (.undefined (.object r.toNat))
      else do
        let fields ← readArgs M (argSlots (s.top - 1 + 1) 1 (toU32 (n + 1) - 1))
        let tag ← readOperand M (s.top - 1 + 1)
        popExtraRoots ((argSlots (s.top - 1 + 1) 1 (toU32 (n + 1) - 1)).reverse.map .slot)
        setObj r (.sexp (BitVec.ofInt 64 (unbox tag)) fields.reverse)
        return r)
    (s := { s with
      stringsMap := [(tag, 0)]
      stack := Function.update s.stack s.top hash
      top := s.top - 1
      touched := max s.touched (s.top - 1 + toU32 (n + 1)) })
  refine touches_of_ok (s := { s with
      stringsMap := [(tag, 0)]
      stack := Function.update s.stack s.top hash
      top := s.top - 1 }) rfl (touches_of_ok rfl (touches_of_error hs' ?_))
  rw [ht]
  show s.top + n ≤ max s.touched (s.top - 1 + toU32 (n + 1))
  omega

/-- An instruction with a count touches as many operands as it counts. -/
theorem brink_touches_count (hpos : 0 < M.maxStack) (hn : 0 < n) (hread : Readable M.bf o type)
    (heff : operandEffect M.bf o type true = .ok (n, l))
    (hcount : type = .callArray ∨ type = .sexp ∨ type = .call ∨ type = .callc) :
    ∃ t, Touches (t + n) (dispatch (barrenEnv M) type) (brink M o t) := by
  rcases hcount with rfl | rfl | rfl | rfl
  · obtain ⟨w, hw, hok⟩ := consumeArgs1_readable (s := brink M o M.maxStack) (hread 0 (by decide))
    rw [operandEffect, show M.bf.code32 (o + 1) = .ok w from hw] at heff
    cases heff
    exact ⟨M.maxStack, (touches_of_ok hok (callArray_edge rfl)).go⟩
  · obtain ⟨v, w, hw, hok⟩ := consumeArgs2_readable (s := brink M o (M.maxStack - 1))
      (hread 0 (by decide)) (hread 1 (by decide))
    rw [operandEffect, show M.bf.code32 (o + 1 + 4) = .ok w from hw, except_ok_bind] at heff
    split at heff
    · rename_i hlt
      cases heff
      exact ⟨M.maxStack - 1, (touches_of_ok hok (boxingSexp_edge hpos rfl rfl (fun _ => rfl) hlt)).go⟩
    · cases heff
      exact absurd hn (Nat.lt_irrefl _)
  · obtain ⟨v, w, hw, hok⟩ := consumeArgs2_readable (s := brink M o M.maxStack)
      (hread 0 (by decide)) (hread 1 (by decide))
    rw [operandEffect, show M.bf.code32 (o + 1 + 4) = .ok w from hw] at heff
    cases heff
    obtain ⟨e, s', hs', ht⟩ := pushStackFrame_edge (M := M) (n := n) (M.codeAddr (o + 9))
      (s := { brink M o M.maxStack with codePtr := o + 9 }) rfl hn (Bytefile.code32_lt hw)
    exact ⟨M.maxStack, (touches_of_ok hok (touches_of_ok rfl (touches_of_error hs' ht))).go⟩
  · obtain ⟨w, hw, hok⟩ := consumeArgs1_readable (s := brink M o M.maxStack) (hread 0 (by decide))
    rw [operandEffect, show M.bf.code32 (o + 1) = .ok w from hw] at heff
    cases heff
    have hfail : readOperand M ((M.maxStack : ℤ) + 1 + w) { brink M o M.maxStack with codePtr := o + 5 } =
        .error (.undefined (.stackRead ((M.maxStack : ℤ) + 1 + w))) { brink M o M.maxStack with
          codePtr := o + 5
          touched := max (M.maxStack : ℤ) (M.maxStack + 1 + w) } := by
      show readSlot M ((M.maxStack : ℤ) + 1 + w) _ = _
      rw [readSlot, if_neg (by omega)]
      rfl
    refine ⟨M.maxStack, (touches_of_ok hok (touches_of_ok rfl (touches_of_error hfail ?_))).go⟩
    show (M.maxStack : ℤ) + ((w + 1 : ℕ) : ℤ) ≤ max (M.maxStack : ℤ) (M.maxStack + 1 + w)
    omega

theorem operandEffect_small (heff : operandEffect M.bf o type true = .ok (n, l))
    (hcount : type ≠ .callArray ∧ type ≠ .sexp ∧ type ≠ .call ∧ type ≠ .callc) :
    n = 0 ∨ n = 1 ∨ n = 2 ∨ type = .sta ∧ n = 3 := by
  cases type
  case callArray => exact absurd rfl hcount.1
  case sexp => exact absurd rfl hcount.2.1
  case call => exact absurd rfl hcount.2.2.1
  case callc => exact absurd rfl hcount.2.2.2
  case binop | st | patt =>
    obtain ⟨low, -, heff⟩ := except_bind_ok.mp heff
    split at heff <;> cases heff <;> simp
  all_goals
    cases heff
    simp

/-- At every depth that is not short the handler stays within it, and only there. -/
theorem within_iff (hpos : 2 < M.maxStack) (h0 : 0 ≤ d) :
    (∀ (E : Env M) s, s.codePtr = o → Within (s.top + d) s (finalState (turn E s))) ↔
      ¬ Short M.bf o d := by
  constructor
  · rintro hall ⟨type, n, l, hat, hread, heff, hlt⟩
    have hturn : ∀ t, turn (barrenEnv M) (brink M o t) =
        dispatch (barrenEnv M) type (brink M o t) := fun t => by
      have hnext := nextInstruction_ok.mpr ⟨show At M (brink M o t) type from hat, rfl⟩
      simp only [turn, bind, EStateM.bind, hnext]
    have hbound : ∀ t, (finalState (dispatch (barrenEnv M) type (brink M o t))).touched ≤ t + d := by
      intro t
      have h := hall (barrenEnv M) (brink M o t) rfl
      rw [hturn] at h
      have hle : _ ≤ max t (t + d) := h
      omega
    by_cases hcount : type = .callArray ∨ type = .sexp ∨ type = .call ∨ type = .callc
    · obtain ⟨t, ht⟩ := brink_touches_count (by omega) (by omega) hread heff hcount
      have hle := hbound t
      unfold Touches at ht
      omega
    · have hsmall : type ≠ .callArray ∧ type ≠ .sexp ∧ type ≠ .call ∧ type ≠ .callc := by
        simpa only [not_or] using hcount
      have hle := hbound (M.maxStack - 1 - d)
      have htouch : Touches M.maxStack (dispatch (barrenEnv M) type) (brink M o (M.maxStack - 1 - d)) := by
        rcases operandEffect_small heff hsmall with rfl | rfl | rfl | ⟨rfl, rfl⟩
        · omega
        · exact brink_touches_one (by omega) hread heff (by omega) hsmall
        · exact brink_touches_two (by omega) heff (by omega) hsmall
        · exact brink_touches_sta h0 hlt hpos
      unfold Touches at htouch
      omega
  · rintro hshort E s rfl
    exact within_of_not_short h0 hshort

end Brink

/-! ### What the tests of the verifier leave open -/

/-- The depths at which an instruction passes the tests of `collect_marks` although its handler uses more
    operands: the tests bound the counts of CALL, CALLC, ARRAY and SEXP, and what is left on the stack
    by all instructions, which for CALL_ARRAY may have wrapped. -/
def Untested (bf : Bytefile) (o d : ℤ) : InstructionType → Prop
  | .dup | .callWrite | .callLength | .callString | .tag | .array | .end => d = 0
  | .st => d = 0 ∧ ∃ low, bf.lowBitsAt o = .ok low ∧ ∀ raw, MemVar.ofByte low ≠ .other raw
  | .swap => d ≤ 1
  | .elem | .sti => d = 1
  | .sta => d = 2
  | .binop => d = 1 ∧ ∃ low, bf.lowBitsAt o = .ok low ∧ ∀ raw, BinOp.ofByte low ≠ .other raw
  | .patt => ∃ low, bf.lowBitsAt o = .ok low ∧ d = if Patt.ofByte low = .strCmp then 1 else 0
  | .callc => ∃ n : ℕ, bf.code32 (o + 1) = .ok n ∧ d = n
  | .callArray => ∃ n : ℕ, bf.code32 (o + 1) = .ok n ∧ (n = d + 1 ∨ 2 ^ 31 + d + 2 ≤ n)
  | _ => False

/-- The tests leave open what the instruction at `o` uses at depth `d`. -/
def LeftOpen (bf : Bytefile) (o d : ℤ) : Prop :=
  ∃ type, bf.typeAt o = .ok type ∧ Readable bf o type ∧ Untested bf o d type

section LeftOpen

variable {bf bf' : Bytefile} {o : ℕ} {d : ℤ} {type : InstructionType}

/-- The table entry of the instruction is above the depth. -/
def UsesMore (bf : Bytefile) (o d : ℤ) (type : InstructionType) : Prop :=
  ∃ n l, operandEffect bf o type true = .ok (n, l) ∧ d < n

theorem usesMore_iff {n l : ℕ} (heff : operandEffect bf o type true = .ok (n, l)) :
    UsesMore bf o d type ↔ d < n := by
  constructor
  · rintro ⟨n', l', heff', hlt⟩
    rw [heff] at heff'
    cases heff'
    exact hlt
  · exact fun hlt => ⟨n, l, heff, hlt⟩

/-- An instruction that leaves `k` words less on the stack passes at depths from `k` on. -/
theorem net_nonneg {k : ℤ} (h0 : 0 ≤ d) (h1 : d < 2 ^ 31) (hk : 0 ≤ k) (hk31 : k < 2 ^ 31) :
    0 ≤ toI32 (toU32 (toU32 d - k)) ↔ k ≤ d := by
  unfold toI32 toU32
  omega

/-- The depth CALL_ARRAY leaves has wrapped when it passes although there are too few operands. -/
theorem callArray_net {n : ℕ} (h0 : 0 ≤ d) (h1 : d < 2 ^ 31) (hn : n < 2 ^ 32) (hd : d < n) :
    0 ≤ toI32 (toU32 (toU32 d + 1 - n)) ↔ n = d + 1 ∨ 2 ^ 31 + d + 2 ≤ n := by
  unfold toI32 toU32
  omega

/-- CALL, CALLC, ARRAY and SEXP do not count more operands than the depth. -/
theorem checked_le {n : ℕ} {text : Fault} {u : Unit} (h0 : 0 ≤ d) (h1 : d < 2 ^ 31)
    (h : (if toU32 d < n then throw text else return () : Result Unit) = .ok u) : n ≤ d := by
  by_contra hlt
  rw [if_pos (by unfold toU32; omega)] at h
  cases h

/-- Where the tests of `collect_marks` are passed, the instructions they leave open are those that use
    more operands than there are. -/
theorem usesMore_iff_untested {n : ℕ} (h0 : 0 ≤ d) (h1 : d < 2 ^ 31)
    (hcheck : checkArgNumber bf o d type = .ok ()) (hnew : getNewStack bf (toU32 d) o type = .ok n)
    (hnet : 0 ≤ toI32 n) : UsesMore bf o d type ↔ Untested bf o d type := by
  cases type
  case dup | callWrite | callLength | callString | tag | array | «end» =>
    rw [usesMore_iff rfl, Untested]
    omega
  case swap =>
    rw [usesMore_iff rfl, Untested]
    omega
  case cjmpz | cjmpnz | drop =>
    cases hnew
    have hle := (net_nonneg h0 h1 (by decide) (by decide)).mp hnet
    exact iff_of_false (fun h => by have := (usesMore_iff rfl).mp h; omega) id
  case elem | sti =>
    cases hnew
    have hle := (net_nonneg h0 h1 (by decide) (by decide)).mp hnet
    rw [usesMore_iff rfl, Untested]
    omega
  case sta =>
    cases hnew
    have hle := (net_nonneg h0 h1 (by decide) (by decide)).mp hnet
    rw [usesMore_iff rfl, Untested]
    omega
  case st =>
    unfold UsesMore Untested operandEffect
    cases hlow : bf.lowBitsAt o with
    | error e => simp [bind, Except.bind]
    | ok low =>
      simp only [except_ok_bind, Except.ok.injEq, exists_eq_left']
      cases hv : MemVar.ofByte low <;> simp
      all_goals omega
  case binop =>
    cases hnew
    have hle := (net_nonneg h0 h1 (by decide) (by decide)).mp hnet
    unfold UsesMore Untested operandEffect
    cases hlow : bf.lowBitsAt o with
    | error e => simp [bind, Except.bind]
    | ok low =>
      simp only [except_ok_bind, Except.ok.injEq, exists_eq_left']
      cases hop : BinOp.ofByte low <;> simp
      all_goals omega
  case patt =>
    unfold UsesMore Untested operandEffect
    cases hlow : bf.lowBitsAt o with
    | error e => simp [bind, Except.bind]
    | ok low =>
      rw [getNewStack, hlow, except_ok_bind] at hnew
      simp only [except_ok_bind, Except.ok.injEq, exists_eq_left']
      cases hp : Patt.ofByte low <;> rw [hp] at hnew
      case other => cases hnew
      case strCmp =>
        cases hnew
        have hle := (net_nonneg h0 h1 (by decide) (by decide)).mp hnet
        simp
        omega
      all_goals
        simp
        omega
  case callArray =>
    obtain ⟨m, hm, hnew⟩ := except_bind_ok.mp hnew
    cases hnew
    rw [usesMore_iff (l := 1) (by rw [operandEffect, hm]; rfl), Untested, hm]
    simp only [Except.ok.injEq, exists_eq_left']
    have hlt := Bytefile.code32_lt hm
    constructor
    · exact fun hd => (callArray_net h0 h1 hlt hd).mp hnet
    · omega
  case sexp =>
    obtain ⟨m, hm, hcheck⟩ := except_bind_ok.mp hcheck
    have hle := checked_le h0 h1 hcheck
    refine iff_of_false ?_ id
    rintro ⟨m', l, heff, hlt⟩
    rw [operandEffect, hm, except_ok_bind] at heff
    split at heff <;> cases heff <;> omega
  case call =>
    obtain ⟨m, hm, hcheck⟩ := except_bind_ok.mp hcheck
    have hle := checked_le h0 h1 hcheck
    refine iff_of_false ?_ id
    rintro ⟨m', l, heff, hlt⟩
    rw [operandEffect, hm] at heff
    cases heff
    omega
  case callc =>
    obtain ⟨m, hm, hcheck⟩ := except_bind_ok.mp hcheck
    have hle := checked_le h0 h1 hcheck
    rw [usesMore_iff (n := m + 1) (l := 1) (by rw [operandEffect, hm]; rfl), Untested, hm]
    simp only [Except.ok.injEq, exists_eq_left']
    omega
  case ret | other => cases hnew
  all_goals exact iff_of_false (fun h => by have := (usesMore_iff rfl).mp h; omega) id

/-- An instruction that passes the tests is short exactly when they leave it open. -/
theorem short_iff_leftOpen {o : ℕ} (h0 : 0 ≤ d) (h1 : d < 2 ^ 31) (hpass : Passes bf (o, d)) :
    Short bf o d ↔ LeftOpen bf o d := by
  obtain ⟨nxt, type, n, hdec, hcheck, hnew, hnet⟩ := hpass
  have htype := (generalByterun_typeAt hdec).1
  have huses := usesMore_iff_untested h0 h1 hcheck hnew hnet
  constructor
  · rintro ⟨type', m, l, htype', hread, heff, hlt⟩
    rw [htype] at htype'
    cases htype'
    exact ⟨type, htype, hread, huses.mp ⟨m, l, heff, hlt⟩⟩
  · rintro ⟨type', htype', hread, hopen⟩
    rw [htype] at htype'
    cases htype'
    obtain ⟨m, l, heff, hlt⟩ := huses.mpr hopen
    exact ⟨type, m, l, htype, hread, heff, hlt⟩

/-- Where `verify` has not written over an instruction, it is short in both files or in none. -/
theorem SameInstruction.short_iff (h : SameInstruction bf bf' o) (h0 : 0 ≤ d) :
    Short bf' o d ↔ Short bf o d := by
  unfold Short
  rw [h.typeAt]
  refine exists_congr fun type => exists_congr fun n => exists_congr fun l =>
    and_congr_right fun htype => ?_
  rw [h.operandEffect htype true]
  by_cases hentry : type = .begin ∨ type = .cbegin
  · -- BEGIN and CBEGIN, where `verify` does write, use no operand
    have hnone : ¬ (LamaSM.operandEffect bf o type true = .ok (n, l) ∧ d < n) := by
      rintro ⟨heff, hlt⟩
      rcases hentry with rfl | rfl <;> cases heff <;> omega
    exact iff_of_false (fun hs => hnone hs.2) (fun hs => hnone hs.2)
  · refine and_congr_left' (forall_congr' fun k => forall_congr' fun hk => ?_)
    rw [h.operands type htype (fun hb => hentry (.inl hb)) (fun hc => hentry (.inr hc)) k hk]

end LeftOpen

/-- The instructions of an accepted file use no more operands than the depth `collect_marks` found,
    whatever the state, exactly when the labels reach none at a depth that the tests leave open. On an
    instruction that `verify` wrote over no test was made. -/
theorem operands_suffice_iff (bf bf' : Bytefile) (fuel : ℕ) (visited : List ℤ)
    (hverify : verify fuel bf = .ok bf') (hmarks : collectMarks bf = .ok visited) (M : Machine)
    (hM : M.bf = bf') (hstack : M.maxStack = stackSize) :
    (∀ (o : ℕ) d, visited[o]? = some d → d ≠ -1 → ∀ (E : Env M) (s : State), s.codePtr = o →
      Within (s.top + d) s (finalState (turn E s))) ↔
    ∀ (o : ℕ) d, DepthReach bf (o, d) →
      (SameInstruction bf bf' o → ¬ LeftOpen bf o d) ∧
      (¬ SameInstruction bf bf' o → ¬ Short bf' o d) := by
  subst hM
  have hexact := collectMarksBy_ok List.Perm.refl (show collectMarksBy id bf = .ok visited from hmarks)
  have hpos : 2 < M.maxStack := by rw [hstack]; decide
  refine forall_congr' fun o => forall_congr' fun d => ?_
  rw [← and_imp, hexact.marked o d]
  refine forall_congr' fun hreach => ?_
  obtain ⟨h0, h1⟩ := hexact.nonneg (o, d) hreach
  rw [within_iff hpos h0]
  by_cases hsame : SameInstruction bf M.bf o
  · rw [hsame.short_iff h0, short_iff_leftOpen h0 h1 (hexact.passes (o, d) hreach)]
    exact ⟨fun h => ⟨fun _ => h, fun hno => absurd hsame hno⟩, fun h => h.1 hsame⟩
  · exact ⟨fun h => ⟨fun hs => absurd hs hsame, fun _ => h⟩, fun h => h.2 hsame⟩

/-- `main` copies an operand it does not have. -/
def dupFile : Bytefile := .ofMain 0
  [0x52, 0, 0, 0, 0, 0, 0, 0, 0, 0x19, 0x16, 0xFF]

def dupVerified : Bytefile :=
  dupFile.withBytes (dupFile.bytes.set 28 1)

def dupMachine : Machine := Machine.layout dupVerified stackSize (by decide) stackSize_le

def dupEnv : Env dupMachine := Env.bump dupMachine fun k => BitVec.ofNat 64 (2 ^ 50 + 64 * k)

/-- The state of `dupFile` at DUP. -/
def dupState : State := nextState dupEnv (startState dupEnv)

/-- The same with the record of the slots used so far cleared. -/
def dupCleared : State := { dupState with touched := dupState.top }

theorem verify_dupFile : verify 20 dupFile = .ok dupVerified := by decide

theorem collectMarks_dupFile : collectMarks dupFile =
    .ok [0, -1, -1, -1, -1, -1, -1, -1, -1, 0, 1, -1] := by decide +kernel

/-- The accepted file reaches DUP at depth 0, and its handler reads an operand. -/
theorem dup_reads_below :
    verify 20 dupFile = .ok dupVerified ∧
      (∃ visited, collectMarks dupFile = .ok visited ∧ visited[9]? = some 0) ∧
      Starts dupEnv (startState dupEnv) ∧ Step dupEnv (startState dupEnv) dupState ∧
      dupState.codePtr = 9 ∧ dupState.operands = 0 ∧
      ¬ Within (dupCleared.top + 0) dupCleared (finalState (turn dupEnv dupCleared)) :=
  ⟨verify_dupFile, ⟨_, collectMarks_dupFile, rfl⟩, starts_startState dupEnv (by decide +kernel),
    turn_nextState dupEnv (by decide +kernel), by decide +kernel, by decide +kernel,
    fun h => absurd (show (finalState (turn dupEnv dupCleared)).touched ≤
      max dupCleared.touched (dupCleared.top + 0) from h) (by decide +kernel)⟩

theorem operands_suffice_dupFile :
    ¬ ∀ (o : ℕ) d, ([0, -1, -1, -1, -1, -1, -1, -1, -1, 0, 1, -1] : List ℤ)[o]? = some d → d ≠ -1 →
      ∀ (E : Env dupMachine) (s : State), s.codePtr = o →
        Within (s.top + d) s (finalState (turn E s)) := by
  intro h
  have hno := (operands_suffice_iff dupFile dupVerified 20 _ verify_dupFile collectMarks_dupFile
    dupMachine rfl rfl).mp h
  have hexact := collectMarksBy_ok List.Perm.refl
    (show collectMarksBy id dupFile = .ok _ from collectMarks_dupFile)
  have hreach : DepthReach dupFile (9, 0) := (hexact.marked 9 0).mp ⟨rfl, by decide⟩
  have hdup : dupFile.typeAt (9 : ℕ) = .ok .dup := by decide
  exact (hno 9 0 hreach).1 (by decide) ⟨.dup, hdup, fun k hk => absurd hk (Nat.not_lt_zero k), rfl⟩

end LamaSM
