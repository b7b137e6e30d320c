import LamaSM.Activations

/-! Calls and returns.

    A state is in a `Chain` when its registers and `arg_sizes` agree with the activations above some
    base and their headers are linked. Every turn that stays inside its activation keeps the chain and
    leaves the words above the base alone (`turn_chain`), so the END that matches a call finds the
    header the call wrote (`call_return`). -/

namespace LamaSM
open Lib

/-! ### The chain of a state -/

/-- The activations `as`, innermost first, were pushed on top of `A`, and the registers and
    `arg_sizes` are those of the innermost one. -/
structure Chain (M : Machine) (B : Base) (A : List Activation) (sizes : List ℤ)
    (as : List Activation) (s : State) : Prop where
  activations : s.activations = as ++ A
  argSizes : s.argSizes = as.map (fun a => toI32 a.nargs) ++ sizes
  fp : s.fp = (B.caller as).1
  top : s.top ≤ (B.caller as).2
  linked : Linked M B s.stack as

/-- The words above `low`, up to `bound`, are the old ones up to collections. -/
def Outer (M : Machine) (low bound : ℤ) (s s' : State) : Prop :=
  ∃ log, s'.collections = log ++ s.collections ∧ Collections M log ∧
    ∀ i, low < i → i ≤ bound → s'.stack i = relocated log (s.stack i)

/-- The instruction at `code_ptr` stays inside its activation. -/
def Stays (M : Machine) (bound : ℤ) (s : State) : Prop := ∀ type, At M s type → Inside M bound s type

instance (M : Machine) (bound : ℤ) (s : State) : Decidable (Stays M bound s) :=
  match h : M.bf.typeAt s.codePtr with
  | .ok type => decidable_of_iff (Inside M bound s type)
    ⟨fun hin _ hat => Except.ok.inj (h.symm.trans hat) ▸ hin, fun hstays => hstays type h⟩
  | .error _ => isTrue fun _ hat => by rw [At, h] at hat; cases hat

section Outer

variable {M : Machine} {low bound : ℤ} {s s' s'' : State}

theorem Outer.refl : Outer M low bound s s := ⟨[], rfl, Collections.nil M, fun _ _ _ => rfl⟩

theorem Outer.trans (h : Outer M low bound s s') (h' : Outer M low bound s' s'') :
    Outer M low bound s s'' := by
  obtain ⟨log, hlog, hc, hw⟩ := h
  obtain ⟨log', hlog', hc', hw'⟩ := h'
  refine ⟨log' ++ log, ?_, hc'.append hc, fun i hi hb => ?_⟩
  · rw [hlog', hlog, List.append_assoc]
  · rw [hw' i hi hb, hw i hi hb, relocated_append]

/-- Without a collection the words are the same. -/
theorem Outer.of_eq (hc : s'.collections = s.collections)
    (h : ∀ i, low < i → i ≤ bound → s'.stack i = s.stack i) : Outer M low bound s s' :=
  ⟨[], hc, Collections.nil M, h⟩

end Outer

/-! ### One turn -/

section Turn

variable {M : Machine} {E : Env M} {B : Base} {A : List Activation} {sizes : List ℤ}
  {as : List Activation} {a : Activation} {s s' : State} {bound : ℤ} {ended : Bool}

theorem Chain.floor_eq (h : Chain M B A sizes (a :: as) s) : s.floor = a.floor := by
  have hfp : s.fp = a.fp := h.fp
  rw [State.floor, State.reserved, h.activations, hfp]
  rfl

theorem Chain.passed_eq (h : Chain M B A sizes (a :: as) s) : s.passed = a.nargs := by
  rw [State.passed, h.activations]
  rfl

/-- The operands an instruction inside its activation uses lie below the locals. -/
theorem Chain.need_le (h : Chain M B A sizes (a :: as) s) {type : InstructionType}
    (hin : Inside M bound s type) : s.top + need M.bf s.codePtr type (integerIndex s) ≤ a.floor := by
  have hop := hin.operands
  unfold State.operands at hop
  rw [h.floor_eq] at hop
  omega

/-- A store inside the activation meets neither a header of the chain nor a word above it. -/
theorem Chain.store_off (h : Chain M B A sizes (a :: as) s) (hbound : B.floor ≤ bound)
    {type : InstructionType} (hin : Inside M bound s type) {i : ℤ} (h0 : 0 ≤ i) (hM : i < M.maxStack)
    (hi : (∃ b ∈ a :: as, b.fp < i ∧ i ≤ b.fp + 3) ∨ (B.floor < i ∧ i ≤ bound)) :
    storeSlot M s type ≠ some i := by
  intro hs
  have hfp : s.fp = a.fp := h.fp
  have hstore := hin.store i hs h0 hM
  rw [h.floor_eq, h.passed_eq, hfp] at hstore
  have hlast : a.last ≤ B.floor := h.linked.last_le a List.mem_cons_self
  have hl : a.last = a.fp + 3 + a.nargs + a.isClosure := rfl
  rcases hi with ⟨b, hb, hlo, hhi⟩ | hi
  · have hblast := h.linked.last_le b hb
    have hbl := b.fp_lt_last
    rcases List.mem_cons.mp hb with rfl | hb
    · omega
    · have habove := h.linked.above b hb
      have hfloor := b.floor_le_fp
      omega
  · omega

theorem chain_plain (hB : B.Valid M) (hbound : B.floor ≤ bound) (hM : bound < M.maxStack)
    (h : Chain M B A sizes (a :: as) s) {type : InstructionType} (hplain : type.isPlain = true)
    (hin : Inside M bound s type) (hd : dispatch E type s = .ok ended s') :
    Chain M B A sizes (a :: as) s' ∧ Outer M B.floor bound s s' := by
  obtain ⟨-, pc', -, hkeeps, htop, -⟩ := (dispatch_plain E type hplain s).of_ok rfl hd
  obtain ⟨log, hlog, hc, hw⟩ := hkeeps.words
  have hneed := h.need_le hin
  have hfloor := a.floor_le_fp
  have hheader : ∀ b ∈ a :: as, ∀ i, b.fp < i → i ≤ b.fp + 3 → s'.stack i = s.stack i := by
    intro b hb i hlo hhi
    have hblast := h.linked.last_le b hb
    have hbl := b.fp_lt_last
    have habove : a.fp ≤ b.fp := by
      rcases List.mem_cons.mp hb with rfl | hb
      · exact Int.le_refl _
      · have := h.linked.above b hb
        have := b.floor_le_fp
        have := a.fp_lt_last
        omega
    have hfp := h.linked.1.fp_ge
    rw [hw i (by omega) (by omega)
      (h.store_off hbound hin (by omega) (by omega) (.inl ⟨b, hb, hlo, hhi⟩)),
      hc.relocated_eq (h.linked.zone hB b hb i hlo hhi)]
  refine ⟨⟨?_, ?_, ?_, ?_, h.linked.congr hheader⟩, log, hlog, hc, fun i hlo hhi => ?_⟩
  · rw [hkeeps.activations, h.activations]
  · rw [hkeeps.argSizes, h.argSizes]
  · rw [hkeeps.fp, h.fp]
  · show s'.top ≤ a.floor
    omega
  · have hlast := h.linked.last_le a List.mem_cons_self
    have hl := a.fp_lt_last
    have hfp := h.linked.1.fp_ge
    exact hw i (by omega) (by omega)
      (h.store_off hbound hin (by omega) (by omega) (.inr ⟨hlo, hhi⟩))

/-- Reserving locals takes them off the operands. -/
theorem chain_begin (h : Chain M B A sizes (a :: as) s) (nLocals : ℕ) :
    Chain M B A sizes ({ a with reserved := a.reserved + nLocals } :: as)
      { s with codePtr := s.codePtr + 9, top := s.top - nLocals
               activations := Activation.reserve nLocals s.activations } := by
  obtain ⟨hf, hbot, hra, hrest⟩ := h.linked
  refine ⟨?_, h.argSizes, h.fp, ?_, ⟨hf.savedTop, hf.savedFp, hf.ra, hf.last_le, hf.fp_ge,
    hf.zone⟩, hbot, hra, hrest⟩
  · dsimp only
    rw [h.activations]
    rfl
  · have htop : s.top ≤ a.floor := h.top
    unfold Activation.floor at htop
    show s.top - nLocals ≤ a.fp - ((a.reserved + nLocals : ℕ) : ℤ)
    omega

/-- A frame pushed for operands of the activation is a new link of the chain. -/
theorem chain_pushed (bound : ℤ) (h : Chain M B A sizes (a :: as) s) {n isClosure : ℕ} {ra : Word} {entry : ℤ}
    (hp : Pushed M s n isClosure ra entry s') (hle : s.top + (n + isClosure : ℕ) ≤ a.floor)
    (hlt : n + isClosure < 2 ^ 32) (hzone : M.heapZone ra = false) (hra : ra ≠ 0) :
    Chain M B A sizes (⟨s.top - 3, n, isClosure, ra, 0⟩ :: a :: as) s' ∧
      Outer M B.floor bound s s' := by
  have hroom := hp.room
  have hfp : s.fp = a.fp := h.fp
  have hlast : (⟨s.top - 3, n, isClosure, ra, 0⟩ : Activation).last = s.top + (n + isClosure : ℕ) := by
    unfold Activation.last
    dsimp only
    omega
  have hkeep : ∀ i, a.fp < i → s'.stack i = s.stack i := fun i hi => by
    have := a.floor_le_fp
    exact hp.rest i (.inr (by omega))
  refine ⟨⟨?_, ?_, hp.fp, ?_, ⟨?_, ?_, ?_, ?_, ?_, hzone⟩, fun h => (nomatch h), fun _ => hra,
    h.linked.congr fun b hb i hlo hhi => hkeep i ?_⟩, Outer.of_eq hp.collections fun i hlo hhi => ?_⟩
  · rw [hp.activations, h.activations]
    rfl
  · rw [hp.argSizes, h.argSizes]
    rfl
  · rw [hp.top]
    show s.top - 3 ≤ s.top - 3 - ((0 : ℕ) : ℤ)
    omega
  · rw [hlast, show s.top - 3 + 1 = s.top - 2 by omega, hp.savedTop, ← Int.natCast_add,
      toU32_of_lt hlt]
  · show s'.stack (s.top - 3 + 2) = M.slotAddr a.fp
    rw [show s.top - 3 + 2 = s.top - 1 by omega, hp.savedFp, hfp]
  · show s'.stack (s.top - 3 + 3) = ra
    rw [show s.top - 3 + 3 = s.top by omega, hp.savedRa]
  · rw [hlast]
    exact hle
  · show -1 ≤ s.top - 3
    omega
  · rcases List.mem_cons.mp hb with rfl | hb
    · exact hlo
    · have := h.linked.above b hb
      have := b.floor_le_fp
      have := a.fp_lt_last
      omega
  · have := h.linked.last_le a List.mem_cons_self
    have := a.fp_lt_last
    exact hkeep i (by omega)

/-- END takes the innermost activation off the chain: its caller gets back its registers, and the
    result in place of the arguments. -/
theorem chain_end (bound : ℤ) (hB : B.Valid M) (h : Chain M B A sizes (a :: as) s)
    (hd : dispatch E .end s = .ok ended s') :
    (ended = true ↔ a.ra = 0) ∧ (ended = false → s'.codePtr = M.codeOffset a.ra ∧
      s'.top = a.last - 1 ∧ s'.stack = Function.update s.stack a.last (s.stack (s.top + 1)) ∧
      Chain M B A sizes as s' ∧ Outer M B.floor bound s s') := by
  have hr := end_ok hd
  have hfp : s.fp = a.fp := h.fp
  obtain ⟨hf, hbot, hra, hrest⟩ := h.linked
  have hslot := h.linked.last_slot hB
  refine ⟨by rw [hr.over_iff, hfp, hf.ra], fun hover => ?_⟩
  obtain ⟨top, htop, -, hgo⟩ := hr.savedTop
  obtain ⟨htop', -, hstack⟩ := hgo hover
  have hlast : top = a.last := by
    rw [hfp, hf.savedTop, Machine.slotOf_slotAddr (by unfold Machine.nullSlot; omega) (by omega)]
      at htop
    exact (Option.some.inj htop).symm
  subst hlast
  have hcaller : s'.fp = (B.caller as).1 := by
    have hsaved := hr.savedFp
    rw [hfp, hf.savedFp, (h.linked.callerFp hB).1] at hsaved
    exact (Option.some.inj hsaved).symm
  have hle : a.last ≤ (B.caller as).2 := hf.last_le
  refine ⟨by rw [hr.codePtr hover, hfp, hf.ra], htop', hstack, ⟨?_, ?_, hcaller, by omega, ?_⟩,
    Outer.of_eq hr.collections fun i hlo hhi => ?_⟩
  · rw [hr.activations, h.activations]
    rfl
  · rw [hr.argSizes, h.argSizes]
    rfl
  · refine hrest.congr fun b hb i hlo hhi => ?_
    have habove := h.linked.above b hb
    have hfloor := b.floor_le_fp
    rw [hstack, Function.update_of_ne (by omega)]
  · have hlast := h.linked.last_le a List.mem_cons_self
    rw [hstack, Function.update_of_ne (by omega)]

/-- The word behind an instruction whose operand can be read is a code address. -/
theorem codeAddr_behind {o : ℤ} {n : ℕ} (h : M.bf.code32 o = .ok n) (o' : ℤ) (ho : o' = o + 4) :
    M.heapZone (M.codeAddr o') = false ∧ M.codeAddr o' ≠ 0 ∧ M.codeOffset (M.codeAddr o') = o' := by
  obtain ⟨h0, hle⟩ := Bytefile.uint32_range h
  have h0' : 0 ≤ M.bf.codePtr + o' := by omega
  have hle' : M.bf.codePtr + o' ≤ M.bf.bytes.length := by omega
  exact ⟨Machine.heapZone_codeAddr h0' hle', Machine.codeAddr_ne_zero h0' hle',
    Machine.codeOffset_codeAddr h0' hle'⟩

/-- What a turn that goes on did to the chain `a :: as`. -/
inductive Turned {M : Machine} (E : Env M) (B : Base) (A : List Activation) (sizes : List ℤ)
    (a : Activation) (as : List Activation) (s s' : State) : Prop
  | plain {type : InstructionType} : At M s type → type.isPlain = true →
      dispatch E type s = .ok false s' → Chain M B A sizes (a :: as) s' → Turned E B A sizes a as s s'
  | enter {type : InstructionType} {arg nLocals : ℕ} : At M s type → type = .begin ∨ type = .cbegin →
      dispatch E type s = .ok false s' → M.bf.code32 (s.codePtr + 1) = .ok arg →
      M.bf.code32 (s.codePtr + 1 + 4) = .ok nLocals →
      ((arg / 2 ^ 16 : ℕ) : ℤ) + nLocals ≤ s.top + 1 →
      s' = { s with codePtr := s.codePtr + 9, top := s.top - nLocals
                    activations := Activation.reserve nLocals s.activations } →
      Chain M B A sizes ({ a with reserved := a.reserved + nLocals } :: as) s' →
      Turned E B A sizes a as s s'
  | call {target n : ℕ} : At M s .call → dispatch E .call s = .ok false s' →
      M.bf.code32 (s.codePtr + 1) = .ok target → M.bf.code32 (s.codePtr + 1 + 4) = .ok n →
      Pushed M s n 0 (M.codeAddr (s.codePtr + 9)) target s' →
      M.codeOffset (M.codeAddr (s.codePtr + 9)) = s.codePtr + 9 →
      Chain M B A sizes (⟨s.top - 3, n, 0, M.codeAddr (s.codePtr + 9), 0⟩ :: a :: as) s' →
      Turned E B A sizes a as s s'
  | callc {n : ℕ} {elem : Word} : At M s .callc → dispatch E .callc s = .ok false s' →
      M.bf.code32 (s.codePtr + 1) = .ok n →
      (∃ o, s.heap (s.stack (s.top + 1 + n)) = some o ∧ o.elem 0 = some elem) →
      Pushed M s n 1 (M.codeAddr (s.codePtr + 5)) (unbox elem) s' →
      M.codeOffset (M.codeAddr (s.codePtr + 5)) = s.codePtr + 5 →
      Chain M B A sizes (⟨s.top - 3, n, 1, M.codeAddr (s.codePtr + 5), 0⟩ :: a :: as) s' →
      Turned E B A sizes a as s s'
  | leave : At M s .end → dispatch E .end s = .ok false s' → a.ra ≠ 0 →
      s'.codePtr = M.codeOffset a.ra → s'.top = a.last - 1 →
      s'.stack = Function.update s.stack a.last (s.stack (s.top + 1)) →
      Chain M B A sizes as s' → Turned E B A sizes a as s s'

/-- The chain after the turn. -/
theorem Turned.chain (h : Turned E B A sizes a as s s') : ∃ as', Chain M B A sizes as' s' ∧
    (as' = [] → a.ra ≠ 0 ∧ as = []) := by
  cases h with
  | plain _ _ _ hc => exact ⟨_, hc, fun h => (nomatch h)⟩
  | enter _ _ _ _ _ _ _ hc => exact ⟨_, hc, fun h => (nomatch h)⟩
  | call _ _ _ _ _ _ hc => exact ⟨_, hc, fun h => (nomatch h)⟩
  | callc _ _ _ _ _ _ hc => exact ⟨_, hc, fun h => (nomatch h)⟩
  | leave _ _ hra _ _ _ hc => exact ⟨_, hc, fun h => ⟨hra, h⟩⟩

/-- A turn inside the innermost activation keeps the chain of those around it, and what lies above
    the base. Only END of an activation with a null return address ends the run. -/
theorem turn_chain (hmax : M.maxStack < 2 ^ 32) (hB : B.Valid M) (hbound : B.floor ≤ bound)
    (hM : bound < M.maxStack) (h : Chain M B A sizes (a :: as) s) (hin : Stays M bound s)
    (ht : turn E s = .ok ended s') :
    (ended = true ↔ At M s .end ∧ a.ra = 0) ∧
      (ended = false → Turned E B A sizes a as s s' ∧ Outer M B.floor bound s s') := by
  obtain ⟨type, hat, hd⟩ := (turn_ok E).mp ht
  have hin := hin type hat
  have hnot : ∀ {p : Prop}, type ≠ .end → ended = false →
      (ended = true ↔ At M s .end ∧ p) :=
    fun hne hover => ⟨fun h => absurd (hover.symm.trans h) (by decide),
      fun h => absurd (hat.unique h.1) hne⟩
  have hneed := h.need_le hin
  have hfloor : a.floor < 2 ^ 32 := by
    have h1 := h.linked.last_le a List.mem_cons_self
    have h2 := a.fp_lt_last
    have h3 := a.floor_le_fp
    omega
  cases hplain : type.isPlain with
  | true =>
    obtain rfl := ((dispatch_plain E type hplain s).of_ok rfl hd).1
    obtain ⟨hc, ho⟩ := chain_plain hB hbound hM h hplain hin hd
    exact ⟨hnot (fun he => by rw [he] at hplain; cases hplain) rfl,
      fun _ => ⟨.plain hat hplain hd hc, ho⟩⟩
  | false =>
    have enter : type = .begin ∨ type = .cbegin → ended = false ∧
        (ended = false → Turned E B A sizes a as s s' ∧ Outer M B.floor bound s s') := by
      intro hbegin
      obtain ⟨rfl, arg, nLocals, harg, hn, hroom, hs'⟩ := begin_ok hbegin hd
      refine ⟨rfl, fun _ => ⟨.enter hat hbegin hd harg hn hroom hs' ?_, ?_⟩⟩
      · rw [hs']
        exact chain_begin h nLocals
      · rw [hs']
        exact Outer.of_eq rfl fun _ _ _ => rfl
    cases type
    case «begin» => exact ⟨hnot (fun h => by cases h) (enter (.inl rfl)).1, (enter (.inl rfl)).2⟩
    case cbegin => exact ⟨hnot (fun h => by cases h) (enter (.inr rfl)).1, (enter (.inr rfl)).2⟩
    case call =>
      obtain ⟨rfl, target, n, htarget, hn, hp⟩ := call_ok hd
      rw [(need_of_ok (n := n) (l := 1) (by rw [operandEffect, hn]; rfl)).1] at hneed
      obtain ⟨hzone, hra, hback⟩ := codeAddr_behind hn (s.codePtr + 9) (by omega)
      obtain ⟨hc, ho⟩ := chain_pushed bound h hp (by omega) (Bytefile.code32_lt hn) hzone hra
      exact ⟨hnot (fun h => by cases h) rfl, fun _ => ⟨.call hat hd htarget hn hp hback hc, ho⟩⟩
    case callc =>
      obtain ⟨rfl, n, elem, hn, hentry, -, hp⟩ := callc_ok hd
      rw [(need_of_ok (n := n + 1) (l := 1) (by rw [operandEffect, hn]; rfl)).1] at hneed
      have htop := hp.room
      obtain ⟨hzone, hra, hback⟩ := codeAddr_behind hn (s.codePtr + 5) (by omega)
      obtain ⟨hc, ho⟩ := chain_pushed bound h hp (by omega) (by omega) hzone hra
      exact ⟨hnot (fun h => by cases h) rfl, fun _ => ⟨.callc hat hd hn hentry hp hback hc, ho⟩⟩
    case «end» =>
      obtain ⟨hiff, hgo⟩ := chain_end bound hB h hd
      refine ⟨hiff.trans ⟨fun h => ⟨hat, h⟩, fun h => h.2⟩, fun hover => ?_⟩
      subst hover
      obtain ⟨hpc, htop, hstack, hc, ho⟩ := hgo rfl
      have hra : a.ra ≠ 0 := fun hra => absurd (hiff.mpr hra) (by decide)
      exact ⟨.leave hat hd hra hpc htop hstack hc, ho⟩
    all_goals cases hplain

/-! ### Runs -/

/-- A run that stays above the base keeps the chain and the words above it. -/
theorem run_chain (hmax : M.maxStack < 2 ^ 32) (hB : B.Valid M) (hbound : B.floor ≤ bound)
    (hM : bound < M.maxStack) (h : ∃ as, Chain M B A sizes as s)
    (hrun : Run (Step E) (fun u => Stays M bound u ∧ A.length < u.activations.length) s s') :
    (∃ as, Chain M B A sizes as s') ∧ Outer M B.floor bound s s' := by
  refine Run.invariant (I := fun u => (∃ as, Chain M B A sizes as u) ∧ Outer M B.floor bound s u)
    ?_ ⟨h, Outer.refl⟩ hrun
  intro u v ⟨⟨as, hc⟩, ho⟩ ⟨hin, hlen⟩ hstep
  cases as with
  | nil =>
    rw [hc.activations] at hlen
    exact absurd hlen (Nat.lt_irrefl _)
  | cons a as =>
    obtain ⟨-, hgo⟩ := turn_chain hmax hB hbound hM hc hin hstep
    obtain ⟨hturned, ho'⟩ := hgo rfl
    obtain ⟨as', hc', -⟩ := hturned.chain
    exact ⟨⟨as', hc'⟩, ho.trans ho'⟩

end Turn

/-! ### A call and its return -/

/-- `s` is at a CALL or CALLC that takes `k` words off the caller's operands and is `length` bytes
    long. -/
inductive AtCall (M : Machine) (s : State) : ℕ → ℕ → Prop
  | call {n : ℕ} : At M s .call → M.bf.code32 (s.codePtr + 1 + 4) = .ok n → AtCall M s n 9
  | callc {n : ℕ} : At M s .callc → M.bf.code32 (s.codePtr + 1) = .ok n → AtCall M s (n + 1) 5

/-- An execution from the call at `s` to the state `s'` behind the matching END at `t`. Until then
    there are more activations than before the call, and every instruction stays inside its own. -/
structure CallRun {M : Machine} (E : Env M) (bound : ℤ) (s t s' : State) : Prop where
  stays : Stays M bound s ∧ Stays M bound t
  callee : ∃ s₁, Step E s s₁ ∧ Run (Step E)
    (fun u => Stays M bound u ∧ s.activations.length < u.activations.length) s₁ t
  atEnd : At M t .end
  depth : t.activations.length = s.activations.length + 1
  returns : Step E t s'

section CallReturn

variable {M : Machine} {E : Env M} {s s' : State} {bound : ℤ}

/-- What the call pushes is a chain of one activation, on the slots of the arguments. -/
theorem chain_of_pushed {n isClosure : ℕ} {ra : Word} {entry : ℤ}
    (hp : Pushed M s n isClosure ra entry s') (hlt : n + isClosure < 2 ^ 32)
    (hzone : M.heapZone ra = false) :
    Chain M ⟨s.fp, s.top + (n + isClosure : ℕ), ⟨s.top - 3, n, isClosure, ra, 0⟩⟩ s.activations
      s.argSizes [⟨s.top - 3, n, isClosure, ra, 0⟩] s' := by
  have hroom := hp.room
  have hlast : (⟨s.top - 3, n, isClosure, ra, 0⟩ : Activation).last = s.top + (n + isClosure : ℕ) := by
    unfold Activation.last
    dsimp only
    omega
  refine ⟨hp.activations, hp.argSizes, hp.fp, ?_, ⟨?_, ?_, ?_, ?_, ?_, hzone⟩,
    fun _ => ⟨rfl, rfl, rfl, rfl⟩, fun h => absurd rfl h, trivial⟩
  · rw [hp.top]
    show s.top - 3 ≤ s.top - 3 - ((0 : ℕ) : ℤ)
    omega
  · rw [hlast, show s.top - 3 + 1 = s.top - 2 by omega, hp.savedTop, ← Int.natCast_add,
      toU32_of_lt hlt]
  · show s'.stack (s.top - 3 + 2) = M.slotAddr s.fp
    rw [show s.top - 3 + 2 = s.top - 1 by omega, hp.savedFp]
  · show s'.stack (s.top - 3 + 3) = ra
    rw [show s.top - 3 + 3 = s.top by omega, hp.savedRa]
  · rw [hlast]
    exact Int.le_refl _
  · show -1 ≤ s.top - 3
    omega

/-- The caller has the words a call takes. -/
theorem AtCall.operands {k length : ℕ} (h : AtCall M s k length) (hin : Stays M bound s) :
    (k : ℤ) ≤ s.operands := by
  cases h with
  | call hat hn =>
    have hop := (hin _ hat).operands
    rwa [(need_of_ok (l := 1) (by rw [operandEffect, hn]; rfl)).1] at hop
  | callc hat hn =>
    have hop := (hin _ hat).operands
    rwa [(need_of_ok (l := 1) (by rw [operandEffect, hn]; rfl)).1] at hop

/-- A call instruction pushes a frame whose return address is the byte behind it. -/
theorem AtCall.pushed {k length : ℕ} (h : AtCall M s k length) (hstep : Step E s s') :
    ∃ n isClosure entry ra, n + isClosure = k ∧ Pushed M s n isClosure ra entry s' ∧
      M.heapZone ra = false ∧ ra ≠ 0 ∧ M.codeOffset ra = s.codePtr + length := by
  obtain ⟨type, hat, hd⟩ := (turn_ok E).mp hstep
  cases h with
  | call hcall hn =>
    cases hat.unique hcall
    obtain ⟨-, target, m, -, hm, hp⟩ := call_ok hd
    rw [hn] at hm
    cases hm
    exact ⟨_, 0, _, _, Nat.add_zero _, hp, codeAddr_behind hn _ (by omega)⟩
  | callc hcall hn =>
    cases hat.unique hcall
    obtain ⟨-, m, elem, hm, -, -, hp⟩ := callc_ok hd
    rw [hn] at hm
    cases hm
    exact ⟨_, 1, _, _, rfl, hp, codeAddr_behind hn _ (by omega)⟩

/-- What a call and its return do to the caller. -/
structure CallReturned (M : Machine) (bound : ℤ) (s t s' : State) (k length : ℕ) : Prop where
  codePtr : s'.codePtr = s.codePtr + length
  fp : s'.fp = s.fp
  argSizes : s'.argSizes = s.argSizes
  activations : s'.activations = s.activations
  top : s'.top = s.top + k - 1
  result : s'.stack (s.top + k) = t.stack (t.top + 1)
  outer : Outer M (s.top + k) bound s s'

theorem CallRun.returned {t : State} {k length : ℕ} (hmax : M.maxStack < 2 ^ 32)
    (hM : bound < M.maxStack) (hfp : s.fp ≤ bound) (hcall : AtCall M s k length)
    (hrun : CallRun E bound s t s') : CallReturned M bound s t s' k length := by
  obtain ⟨s₁, hstep, hcallee⟩ := hrun.callee
  have hk := hcall.operands hrun.stays.1
  obtain ⟨n, isClosure, entry, ra, rfl, hp, hzone, hra, hoffset⟩ := hcall.pushed hstep
  unfold State.operands State.floor at hk
  have hroom := hp.room
  have hB : Base.Valid M ⟨s.fp, s.top + (n + isClosure : ℕ), ⟨s.top - 3, n, isClosure, ra, 0⟩⟩ :=
    Base.valid_of_slot _ (by omega) (by omega) (by omega)
  obtain ⟨⟨as, hc⟩, ho⟩ := run_chain hmax hB
    (show s.top + (n + isClosure : ℕ) ≤ bound by omega) hM
    ⟨_, chain_of_pushed hp (by omega) hzone⟩ hcallee
  obtain ⟨a, rfl⟩ : ∃ a, as = [a] := by
    have hlen := hrun.depth
    rw [hc.activations, List.length_append] at hlen
    exact List.length_eq_one_iff.mp (by omega)
  obtain ⟨ha, hnargs, hclosure, hra'⟩ := hc.linked.2.1 rfl
  obtain ⟨type, hat, hd⟩ := (turn_ok E).mp hrun.returns
  cases hat.unique hrun.atEnd
  obtain ⟨hpc, htop, hstack, hc', ho'⟩ := (chain_end bound hB hc hd).2 rfl
  have hlast : a.last = s.top + (n + isClosure : ℕ) := by
    unfold Activation.last
    rw [ha, hnargs, hclosure]
    dsimp only
    omega
  refine ⟨by rw [hpc, hra', hoffset], hc'.fp, hc'.argSizes, hc'.activations, by rw [htop, hlast],
    ?_, (Outer.of_eq hp.collections fun i hlo hhi => ?_).trans (ho.trans ho')⟩
  · rw [hstack, hlast, Function.update_self]
  · exact hp.rest i (.inr (by omega))

/-- The activation `interpret` starts with is a chain of one, with a null return address. -/
theorem chain_of_starts (h : Starts E s) :
    ∃ B, B.Valid M ∧ B.floor = s.fp + 3 ∧ B.bottom.ra = 0 ∧ ∃ a, Chain M B [] [] [a] s := by
  obtain ⟨_, s₁, hctor, hpush⟩ := exec_bind_ok.mp h
  have hp := pushStackFrame_ok hpush
  have hroom := hp.room
  obtain ⟨hfp, hsizes, hact, -⟩ := frameStack_registers hctor
  have hc := chain_of_pushed hp (by decide) M.zone_null
  rw [hfp, hsizes, hact] at hc
  have hnull : M.nullSlot ≤ M.maxStack := by unfold Machine.nullSlot; omega
  refine ⟨_, ⟨?_, Machine.slotOf_slotAddr (Int.le_refl _) hnull, ?_⟩, ?_, rfl, _, hc⟩
  · show s₁.top + ((0 + 0 : ℕ) : ℤ) < M.maxStack
    omega
  · rw [Machine.slotAddr_nullSlot]
    exact M.zone_null
  · rw [hp.fp]
    show s₁.top + ((0 + 0 : ℕ) : ℤ) = s₁.top - 3 + 3
    omega

/-- Only the outermost activation has a null return address. -/
theorem Chain.outermost_iff {B : Base} {a : Activation} {as : List Activation}
    (hbot : B.bottom.ra = 0) (h : Chain M B [] [] (a :: as) s) : a.ra = 0 ↔ as = [] := by
  obtain ⟨-, hsame, hra, -⟩ := h.linked
  refine ⟨fun h => Classical.byContradiction fun hne => hra hne h, fun h => ?_⟩
  rw [(hsame h).2.2.2, hbot]

/-- A turn that goes on leaves an activation running. -/
theorem Chain.step {B : Base} {a : Activation} {as : List Activation} (hmax : M.maxStack < 2 ^ 32)
    (hB : B.Valid M) (hbound : B.floor ≤ bound) (hM : bound < M.maxStack) (hbot : B.bottom.ra = 0)
    (h : Chain M B [] [] (a :: as) s) (hin : Stays M bound s) (hstep : Step E s s') :
    Turned E B [] [] a as s s' ∧ ∃ a' as', Chain M B [] [] (a' :: as') s' := by
  obtain ⟨-, hgo⟩ := turn_chain hmax hB hbound hM h hin hstep
  have hturned := (hgo rfl).1
  obtain ⟨as', hc', hnil⟩ := hturned.chain
  refine ⟨hturned, ?_⟩
  cases as' with
  | cons a' as' => exact ⟨a', as', hc'⟩
  | nil => exact absurd ((h.outermost_iff hbot).mpr (hnil rfl).2) (hnil rfl).1

/-- In a run from the start there is always an activation running. -/
theorem chain_of_run {s₀ : State} (hmax : M.maxStack < 2 ^ 32) (hM : bound < M.maxStack)
    (hstart : Starts E s₀) (hfp : s₀.fp + 3 ≤ bound) (hrun : Run (Step E) (Stays M bound) s₀ s) :
    ∃ B, B.Valid M ∧ B.floor ≤ bound ∧ B.bottom.ra = 0 ∧ ∃ a as, Chain M B [] [] (a :: as) s := by
  obtain ⟨B, hB, hfloor, hbot, a₀, hc₀⟩ := chain_of_starts hstart
  have hbound : B.floor ≤ bound := by omega
  have hinv : ∃ a as, Chain M B [] [] (a :: as) s :=
    Run.invariant (I := fun u => ∃ a as, Chain M B [] [] (a :: as) u)
      (fun _ _ ⟨_, _, hc⟩ hstay hstep => (hc.step hmax hB hbound hM hbot hstay hstep).2) ⟨a₀, [], hc₀⟩
      hrun
  exact ⟨B, hB, hbound, hbot, hinv⟩

/-- In a run from the start, only the END of the first activation ends the run. -/
theorem stops_iff {s₀ : State} {ended : Bool} (hmax : M.maxStack < 2 ^ 32) (hM : bound < M.maxStack)
    (hstart : Starts E s₀) (hfp : s₀.fp + 3 ≤ bound) (hrun : Run (Step E) (Stays M bound) s₀ s)
    (hin : Stays M bound s) (ht : turn E s = .ok ended s') :
    ended = true ↔ At M s .end ∧ ∃ a, s.activations = [a] ∧ a.ra = 0 := by
  obtain ⟨B, hB, hbound, hbot, a, as, hc⟩ := chain_of_run hmax hM hstart hfp hrun
  obtain ⟨hover, -⟩ := turn_chain hmax hB hbound hM hc hin ht
  rw [hover, hc.outermost_iff hbot]
  have hact : s.activations = a :: as := by rw [hc.activations, List.append_nil]
  refine and_congr_right fun _ => ⟨fun h => ⟨a, ?_, ?_⟩, fun ⟨a', h, _⟩ => ?_⟩
  · rw [hact, h]
  · exact (hc.outermost_iff hbot).mpr h
  · rw [hact] at h
    exact (List.cons.inj h).2

end CallReturn

/-- The discipline of calls and returns on the stack `interpret` allocates: the END that matches a
    call gives the caller back its registers, its result and all its other words, and only the END
    of the first activation ends a run. -/
theorem call_discipline (M : Machine) (E : Env M) (hstack : M.maxStack = stackSize) (bound : ℤ)
    (hbound : bound < M.maxStack) :
    (∀ s t s' k length, s.fp ≤ bound → AtCall M s k length → CallRun E bound s t s' →
      CallReturned M bound s t s' k length) ∧
    (∀ s₀ s s' ended, Starts E s₀ → s₀.fp + 3 ≤ bound → Run (Step E) (Stays M bound) s₀ s →
      Stays M bound s → turn E s = .ok ended s' →
      (ended = true ↔ At M s .end ∧ ∃ a, s.activations = [a] ∧ a.ra = 0)) := by
  have hmax : M.maxStack < 2 ^ 32 := by rw [hstack]; decide
  exact ⟨fun _ _ _ _ _ hfp hcall hrun => hrun.returned hmax hbound hfp hcall,
    fun _ _ _ _ hstart hfp hrun hin ht => stops_iff hmax hbound hstart hfp hrun hin ht⟩

/-- `main` calls a closure on 7 and 8 above the operand 5; the closure passes its first argument on to
    a function that returns it, and adds the second. -/
def callFile : Bytefile := .ofMain 0
  [0x52, 0, 0, 0, 0, 0, 0, 0, 0, 0x10, 5, 0, 0, 0, 0x54, 40, 0, 0, 0, 0, 0, 0, 0,
    0x10, 7, 0, 0, 0, 0x10, 8, 0, 0, 0, 0x55, 2, 0, 0, 0, 0x01, 0x16,
    0x53, 2, 0, 0, 0, 0, 0, 0, 0, 0x22, 0, 0, 0, 0, 0x56, 70, 0, 0, 0, 1, 0, 0, 0,
    0x22, 1, 0, 0, 0, 0x01, 0x16,
    0x52, 1, 0, 0, 0, 0, 0, 0, 0, 0x22, 0, 0, 0, 0, 0x16, 0xFF]

/-- `callFile` on the stack of the interpreter. -/
def callMachine : Machine := Machine.layout callFile stackSize (by decide) stackSize_le

def callEnv : Env callMachine := Env.bump callMachine fun k => BitVec.ofNat 64 (2 ^ 50 + 64 * k)

/-- The state of `callFile` after `n` turns. -/
def callState : ℕ → State
  | 0 => startState callEnv
  | n + 1 => nextState callEnv (callState n)

/-- Its offset and the number of activations. -/
def callTrace : List (ℤ × ℕ) :=
  [(0, 1), (9, 1), (14, 1), (23, 1), (28, 1), (33, 1), (40, 2), (49, 2), (54, 2), (70, 3), (79, 3), (84, 3),
    (63, 2), (68, 2), (69, 2), (38, 1), (39, 1)]

/-- Every turn of `callFile` stays inside its activation, and only the last one ends the run. -/
theorem callState_trace : ∀ n < 17, Stays callMachine (stackSize - 5) (callState n) ∧
    turnResult callEnv (callState n) = some (n == 16) ∧ (callState n).fp + 3 ≤ stackSize - 5 ∧
    (callState n).codePtr = (callTrace.getD n (0, 0)).1 ∧
    (callState n).activations.length = (callTrace.getD n (0, 0)).2 := by decide +kernel

theorem callState_step {n : ℕ} (hn : n < 16) : Step callEnv (callState n) (callState (n + 1)) := by
  have hturn := (callState_trace n (by omega)).2.1
  rw [beq_false_of_ne (by omega)] at hturn
  exact turn_nextState callEnv hturn

/-- The run from the call at state `i` to its return, when the trace has the states of the callee in
    between. -/
theorem callState_run {i n : ℕ} (hi : i + 1 + n < 16)
    (hcallee : ∀ k < n, (callTrace.getD i (0, 0)).2 < (callTrace.getD (i + 1 + k) (0, 0)).2)
    (hdepth : (callTrace.getD (i + 1 + n) (0, 0)).2 = (callTrace.getD i (0, 0)).2 + 1)
    (hend : callFile.typeAt (callTrace.getD (i + 1 + n) (0, 0)).1 = .ok .end) :
    CallRun callEnv (stackSize - 5) (callState i) (callState (i + 1 + n)) (callState (i + 1 + n + 1)) := by
  have stays : ∀ k < 17, Stays callMachine (stackSize - 5) (callState k) := fun k hk =>
    (callState_trace k hk).1
  have length : ∀ k < 17, (callState k).activations.length = (callTrace.getD k (0, 0)).2 := fun k hk =>
    (callState_trace k hk).2.2.2.2
  refine ⟨⟨stays i (by omega), stays _ (by omega)⟩, ⟨callState (i + 1), callState_step (by omega),
    Run.of_turns (f := fun k => callState (i + 1 + k)) fun k hk =>
      ⟨⟨stays _ (by omega), ?_⟩, callState_step (by omega)⟩⟩, ?_, ?_, callState_step hi⟩
  · rw [length i (by omega), length _ (by omega)]
    exact hcallee k hk
  · rw [At, (callState_trace _ (by omega)).2.2.2.1]
    exact hend
  · rw [length _ (by omega), length i (by omega), hdepth]

theorem call_discipline_callFile :
    CallReturned callMachine (stackSize - 5) (callState 5) (callState 14) (callState 15) 3 5 ∧
      CallReturned callMachine (stackSize - 5) (callState 8) (callState 11) (callState 12) 1 9 ∧
      ∃ a, (callState 16).activations = [a] ∧ a.ra = 0 := by
  have hstart : Starts callEnv (callState 0) := starts_startState callEnv (by decide +kernel)
  have hstays : ∀ n < 17, Stays callMachine (stackSize - 5) (callState n) := fun n hn =>
    (callState_trace n hn).1
  have hfp : ∀ n < 17, (callState n).fp + 3 ≤ stackSize - 5 := fun n hn => (callState_trace n hn).2.2.1
  have hrun : Run (Step callEnv) (Stays callMachine (stackSize - 5)) (callState 0) (callState 16) :=
    Run.of_turns fun n hn => ⟨hstays n (by omega), callState_step hn⟩
  have hover : turn callEnv (callState 16) = .ok true (callState 17) :=
    turn_nextState callEnv (callState_trace 16 (by decide)).2.1
  have hcallc : AtCall callMachine (callState 5) 3 5 := by
    have hcode := (callState_trace 5 (by decide)).2.2.2.1
    exact .callc (n := 2) (by rw [At, hcode]; decide) (by rw [hcode]; decide)
  have hcall : AtCall callMachine (callState 8) 1 9 := by
    have hcode := (callState_trace 8 (by decide)).2.2.2.1
    exact .call (n := 1) (by rw [At, hcode]; decide) (by rw [hcode]; decide)
  obtain ⟨hreturn, hstop⟩ := call_discipline callMachine callEnv rfl (stackSize - 5) (by decide)
  refine ⟨hreturn (callState 5) (callState 14) (callState 15) 3 5 (by have := hfp 5 (by decide); omega) hcallc
      (callState_run (i := 5) (n := 8) (by decide) (by decide) (by decide) (by decide)),
    hreturn (callState 8) (callState 11) (callState 12) 1 9 (by have := hfp 8 (by decide); omega) hcall
      (callState_run (i := 8) (n := 2) (by decide) (by decide) (by decide) (by decide)),
    ((hstop (callState 0) (callState 16) _ true hstart (hfp 0 (by decide)) hrun
      (hstays 16 (by decide)) hover).mp rfl).2⟩

end LamaSM
