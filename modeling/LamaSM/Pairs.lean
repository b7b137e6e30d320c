import LamaSM.Blocks
import LamaSM.CallReturn
import LamaSM.HeapSteps
import LamaSM.StringPool

/-! The pairs of the analyzer in runs of the interpreter.

    Wherever a run goes, it goes to an instruction the analyzer has recorded: to the next one, to a
    label, to the entry of a closure, which is the label of a CLOSURE, or back behind a call. All but
    the last two kinds of places are leaders or the end of the instruction executed before. The
    instruction after a CALL is a leader as well; the one after a CALLC need not be, so a pair whose
    first instruction is a CALLC is not executed back to back. -/

namespace LamaSM
namespace Analyzer
open Lib

/-! ### What a run keeps -/

/-- The entry of every closure is the label of a CLOSURE that control can reach. -/
def Entered (bf : Bytefile) (h : Heap) : Prop :=
  ∀ a entry captured, h a = some (.closure entry captured) →
    ∃ p t : ℕ, Reachable bf p ∧ LabelOf bf p t ∧ entry = boxInt t

/-- The activation returns behind a call that control can reach. -/
def Resumes (M : Machine) (b : Activation) (c : ℕ) : Prop :=
  M.codeOffset b.ra = c ∧ ∃ p : ℕ, Reachable M.bf p ∧
    Next (· == if b.isClosure = 1 then .callc else .call) M.bf p c

/-- Control is at an instruction the analyzer meets, and so is every place it can return to or enter
    a closure at. -/
structure Flowing (M : Machine) (B : Base) (s : State) : Prop where
  code : ∃ o : ℕ, s.codePtr = o ∧ Reachable M.bf o
  chain : ∃ a as, Chain M B [] [] (a :: as) s
  returns : ∀ b ∈ s.activations, b.ra ≠ 0 → ∃ c, Resumes M b c
  closures : Entered M.bf s.heap

/-- The instruction stays inside its activation, calls closures only, and replaces the entry of
    none. -/
structure Proper (M : Machine) (bound : ℤ) (s : State) : Prop where
  stays : Stays M bound s
  callee : At M s .callc → ∀ n, M.bf.code32 (s.codePtr + 1) = .ok n →
    ∃ entry captured, s.heap (s.stack (s.top + 1 + n)) = some (.closure entry captured)
  entries : ∀ type a entry captured o', At M s type → s.heap a = some (.closure entry captured) →
    Overwrites M s type a (.closure entry captured) o' → ∃ captured', o' = .closure entry captured'

/-- How control comes from the instruction at `o` to `c`. -/
inductive Comes (M : Machine) (s : State) (o c : ℕ) : Prop
  | flows : FlowEdge M.bf o c → Comes M s o c
  | enters {p : ℕ} : At M s .callc → Reachable M.bf p → LabelOf M.bf p c → Comes M s o c
  | returns {b : Activation} : At M s .end → s.activations.head? = some b → Resumes M b c →
      Comes M s o c

section Steps

variable {M : Machine} {E : Env M} {B : Base} {bound : ℤ} {s s' : State} {o : ℕ} {i : Instruction}

theorem Resumes.falls {b : Activation} {c : ℕ} (h : Resumes M b c) :
    ∃ p, Reachable M.bf p ∧ Falls M.bf p c := by
  obtain ⟨-, p, hp, i, hi, htype, rfl⟩ := h
  refine ⟨p, hp, i, hi, ?_, rfl⟩
  rw [beq_iff_eq] at htype
  rw [htype]
  split <;> rfl

/-- Control only comes to instructions the analyzer meets. -/
theorem Comes.reachable {c : ℕ} (h : Comes M s o c) (ho : Reachable M.bf o) : Reachable M.bf c := by
  cases h with
  | flows he => exact .step ho he
  | enters _ hp hl => exact .step hp (.inl hl)
  | returns _ _ hb =>
    obtain ⟨p, hp, hf⟩ := hb.falls
    exact .step hp (.inr hf)

/-- The instruction a turn at `o` executes. -/
theorem placed_of_at (hw : WellSwept M.bf) (ho : Reachable M.bf o) (hpc : s.codePtr = o)
    {type : InstructionType} (hat : At M s type) (hknown : type.isOther = false) :
    ∃ i : Instruction, Placed M.bf o i.encode ∧ i.type = type := by
  have hff : M.bf.code o ≠ .ok 0xFF := by
    intro hff
    rw [At, Bytefile.typeAt, hpc, hff] at hat
    cases hat
    cases hknown
  obtain ⟨i, hi, -⟩ := hw.decode ho.swept hff
  rw [At, hpc, Instruction.typeAt hi] at hat
  exact ⟨i, hi, Except.ok.inj hat⟩

theorem length_closure (hi : Placed M.bf o i.encode) (htype : i.type = .closure) {n : ℕ}
    (hn : M.bf.code32 (o + 1 + 4) = .ok n) : i.length = 9 + 5 * n := by
  obtain ⟨entry, count, hargs, hcount⟩ := i.closure_args htype
  have hk := Instruction.operand hi (k := 1) (w := count) (by rw [hargs]; rfl)
  obtain rfl : count.toNat = n := Except.ok.inj (hk.symm.trans hn)
  rw [Instruction.length, hargs, hcount]
  rfl

/-- The label a turn reads is the label of the instruction. -/
theorem labelOf_of_placed (hi : Placed M.bf o i.encode) (hl : i.type.takesLabel = true)
    (hpc : s.codePtr = o) {t : ℕ} (ht : M.bf.code32 (s.codePtr + 1) = .ok t) : LabelOf M.bf o t :=
  ⟨i, hi, hl, hpc ▸ ht⟩

/-- From an instruction that stays in its activation, control goes along the analyzer's edges. -/
theorem plain_flows (hw : WellSwept M.bf) (ho : Reachable M.bf o) (hpc : s.codePtr = o)
    {type : InstructionType} (hat : At M s type) (hplain : type.isPlain = true)
    (hd : dispatch E type s = .ok false s') : ∃ c : ℕ, s'.codePtr = c ∧ FlowEdge M.bf o c := by
  have hknown : type.isOther = false := by
    cases type <;> first | rfl | cases hd
  obtain ⟨i, hi, rfl⟩ := placed_of_at hw ho hpc hat hknown
  obtain ⟨-, pc', hnext, -, -, rfl⟩ := (dispatch_plain E i.type hplain s).of_ok rfl hd
  have label : ∀ {t : ℕ}, i.type.takesLabel = true → M.bf.code32 (s.codePtr + 1) = .ok t →
      s'.codePtr = t → ∃ c : ℕ, s'.codePtr = c ∧ FlowEdge M.bf o c :=
    fun hl ht heq => ⟨_, heq, .inl (labelOf_of_placed hi hl hpc ht)⟩
  have falls : i.type.fallsThrough = true → s'.codePtr = o + i.length →
      ∃ c : ℕ, s'.codePtr = c ∧ FlowEdge M.bf o c :=
    fun hf heq => ⟨o + i.length, by rw [heq]; omega, .inr ⟨i, hi, hf, rfl⟩⟩
  have hlength := i.length_of_type
  cases htype : i.type
  all_goals rw [htype] at hnext hlength hplain hd label falls
  case jmp =>
    obtain ⟨t, ht, heq⟩ := hnext
    exact label rfl ht heq
  case cjmpz | cjmpnz =>
    rcases hnext with heq | ⟨t, ht, heq⟩
    · exact falls rfl (by rw [heq, hpc, hlength (by decide)]; rfl)
    · exact label rfl ht heq
  case closure =>
    obtain ⟨n, -, hn, heq⟩ := hnext
    rw [hpc] at hn
    refine falls rfl ?_
    rw [heq, hpc, length_closure hi htype hn]
    omega
  case ret => cases hd
  case fail =>
    obtain ⟨_, _, -, hthrow⟩ := exec_bind_ok.mp (go_ok hd).2
    cases hthrow
  case «begin» | cbegin | call | callc | «end» => cases hplain
  case other b => exact absurd htype (i.type_ne_other b)
  all_goals
    refine falls rfl ?_
    rw [hlength (by decide), ← hpc]
    exact hnext

/-- The closures stay those of CLOSURE instructions that control can reach. -/
theorem Entered.step (hw : WellSwept M.bf) (h : Entered M.bf s.heap) (hp : Proper M bound s)
    (ho : Reachable M.bf o) (hpc : s.codePtr = o) (hstep : Step E s s') : Entered M.bf s'.heap := by
  intro b entry captured hb
  obtain ⟨type, hat, hd⟩ := (turn_ok E).mp hstep
  rcases (dispatch_heap hd).entry (fun a entry captured o' => hp.entries type a entry captured o' hat) hb
    with ⟨c, captured', hc⟩ | ⟨rfl, ip, hip, rfl⟩
  · exact h c entry captured' hc
  · obtain ⟨i, hi, htype⟩ := placed_of_at hw ho hpc hat rfl
    exact ⟨o, ip, ho, labelOf_of_placed hi (by rw [htype]; rfl) hpc hip, rfl⟩

/-- A call makes an activation that returns behind it. -/
theorem resumes_behind (hw : WellSwept M.bf) (ho : Reachable M.bf o) (hpc : s.codePtr = o)
    {type : InstructionType} (hat : At M s type) {b : Activation}
    (htype : type = if b.isClosure = 1 then .callc else .call)
    (hra : M.codeOffset b.ra = s.codePtr + fixedLength type) : ∃ c, Resumes M b c := by
  have hknown : type.isOther = false ∧ type ≠ .closure := by
    rw [htype]
    split <;> exact ⟨rfl, by decide⟩
  obtain ⟨i, hi, rfl⟩ := placed_of_at hw ho hpc hat hknown.1
  refine ⟨o + i.length, ?_, o, ho, i, hi, by simpa using htype, rfl⟩
  rw [hra, hpc, i.length_of_type hknown.2]
  omega

/-- A turn leads to an instruction the analyzer meets, along one of its edges, into a closure or back
    behind a call. -/
theorem Flowing.turn (hmax : M.maxStack < 2 ^ 32) (hB : B.Valid M) (hbound : B.floor ≤ bound)
    (hM : bound < M.maxStack) (hbot : B.bottom.ra = 0) (hw : WellSwept M.bf) (hf : Flowing M B s)
    (hp : Proper M bound s) (ho : Reachable M.bf o) (hpc : s.codePtr = o) (hstep : Step E s s') :
    ∃ c : ℕ, s'.codePtr = c ∧ Comes M s o c ∧ Flowing M B s' := by
  obtain ⟨a, as, hc⟩ := hf.chain
  obtain ⟨hturned, hchain⟩ := hc.step hmax hB hbound hM hbot hp.stays hstep
  have hclosures := hf.closures.step hw hp ho hpc hstep
  have hact : s.activations = a :: as := hc.activations.trans (List.append_nil _)
  have land : ∀ {c : ℕ}, s'.codePtr = c → Comes M s o c →
      (∀ b ∈ s'.activations, b.ra ≠ 0 → ∃ c, Resumes M b c) →
      ∃ c : ℕ, s'.codePtr = c ∧ Comes M s o c ∧ Flowing M B s' :=
    fun hcode hcomes hreturns =>
      ⟨_, hcode, hcomes, ⟨_, hcode, hcomes.reachable ho⟩, hchain, hreturns, hclosures⟩
  -- the activations of `s` and one more
  have pushed : ∀ {b : Activation}, s'.activations = b :: s.activations → (∃ c, Resumes M b c) →
      ∀ b ∈ s'.activations, b.ra ≠ 0 → ∃ c, Resumes M b c := by
    intro b hact' hb b' hb' hra
    rw [hact'] at hb'
    rcases List.mem_cons.mp hb' with rfl | hb'
    · exact hb
    · exact hf.returns b' hb' hra
  cases hturned with
  | plain hat hplain hd =>
    obtain ⟨c, hcode, hedge⟩ := plain_flows hw ho hpc hat hplain hd
    obtain ⟨-, _, -, hkeeps, -⟩ := (dispatch_plain E _ hplain s).of_ok rfl hd
    exact land hcode (.flows hedge) (hkeeps.activations ▸ hf.returns)
  | enter hat hbegin _ _ _ _ hs' =>
    obtain ⟨i, hi, htype⟩ := placed_of_at hw ho hpc hat (by rcases hbegin with rfl | rfl <;> rfl)
    have hlen : i.length = 9 ∧ i.type.fallsThrough = true := by
      rcases hbegin with rfl | rfl <;>
        exact ⟨by rw [i.length_of_type (by rw [htype]; decide), htype]; rfl, by rw [htype]; rfl⟩
    have hcode : s'.codePtr = (o + 9 : ℕ) := by
      rw [hs']
      dsimp only
      omega
    refine land hcode (.flows (.inr ⟨i, hi, hlen.2, by rw [hlen.1]⟩)) fun b hb hra => ?_
    rw [hs', hact] at hb
    rcases List.mem_cons.mp hb with rfl | hb
    · exact hf.returns a (hact ▸ List.mem_cons_self) hra
    · exact hf.returns b (hact ▸ List.mem_cons_of_mem a hb) hra
  | call hat _ htarget _ hpush hback =>
    obtain ⟨i, hi, htype⟩ := placed_of_at hw ho hpc hat rfl
    exact land hpush.codePtr (.flows (.inl (labelOf_of_placed hi (by rw [htype]; rfl) hpc htarget)))
      (pushed hpush.activations (resumes_behind hw ho hpc hat rfl hback))
  | callc hat _ hn hentry hpush hback =>
    obtain ⟨entry, captured, hobj⟩ := hp.callee hat _ hn
    obtain ⟨p, t, hreach, hlabel, rfl⟩ := hf.closures _ _ _ hobj
    obtain ⟨obj, hobj', helem⟩ := hentry
    obtain rfl := Option.some.inj (hobj.symm.trans hobj')
    obtain rfl : boxInt t = _ := Option.some.inj helem
    have hlt : t < 2 ^ 32 := by
      obtain ⟨-, -, -, ht⟩ := hlabel
      exact Bytefile.code32_lt ht
    have hcode := hpush.codePtr
    rw [unbox_boxInt (by omega) (by omega)] at hcode
    exact land hcode (.enters hat hreach hlabel)
      (pushed hpush.activations (resumes_behind hw ho hpc hat rfl hback))
  | leave hat _ hra hcode _ _ hc' =>
    obtain ⟨c, hresumes⟩ := hf.returns a (hact ▸ List.mem_cons_self) hra
    refine land (hcode.trans hresumes.1) (.returns hat (by rw [hact]; rfl) hresumes) fun b hb => ?_
    rw [hc'.activations, List.append_nil] at hb
    exact hf.returns b (hact ▸ List.mem_cons_of_mem a hb)

end Steps

/-! ### Pairs -/

/-- An instruction that ends a recorded pair is executed right after the one that starts it. -/
def BackToBack (bf : Bytefile) (a : Analyzer) (s s' : State) : Prop :=
  ∀ i ∈ a.collectPairs, ∀ c : ℕ, Next (fun _ => true) bf i c → s'.codePtr = c → s.codePtr = i

/-- An END that returns from a closure returns to an instruction where a block starts. -/
def ReturnsToLeader (M : Machine) (s : State) : Prop :=
  At M s .end → ∀ b, s.activations.head? = some b → b.isClosure = 1 →
    ∃ c : ℕ, M.codeOffset b.ra = c ∧ Leader M.bf c

section Pairs

variable {M : Machine} {E : Env M} {B : Base} {bound : ℤ} {s s' : State} {a : Analyzer} {o : ℕ}

/-- The end of the instruction at `i` is no leader when `i` is recorded as the first of a pair, and
    the instruction is the only one that ends there. -/
theorem Records.pair (hrec : Records M.bf a) {i c : ℕ} (hi : i ∈ a.collectPairs)
    (hnext : Next (fun _ => true) M.bf i c) : Reachable M.bf i ∧ ¬ Leader M.bf c := by
  obtain ⟨hreach, d, hfalls, hlead⟩ := (hrec.pairs i).mp hi
  exact ⟨hreach, hnext.eq hfalls ▸ hlead⟩

/-- The instruction after a CALL is a leader. -/
theorem Resumes.leader {b : Activation} {c : ℕ} (h : Resumes M b c) (hb : b.isClosure ≠ 1) :
    Leader M.bf c := by
  obtain ⟨-, p, hp, i, hi, htype, rfl⟩ := h
  rw [if_neg hb, beq_iff_eq] at htype
  exact .inr ⟨p, hp.swept, .inr ⟨i, hi, by rw [htype]; rfl, rfl⟩⟩

/-- The instruction after a CALLC ends a recorded pair unless it is a leader. -/
theorem Resumes.pair {b : Activation} {c : ℕ} (h : Resumes M b c) (hrec : Records M.bf a)
    (hb : b.isClosure = 1) (hlead : ¬ Leader M.bf c) :
    ∃ p ∈ a.collectPairs, ∃ i : Instruction, Placed M.bf p i.encode ∧ i.type = .callc ∧
      c = p + i.length := by
  obtain ⟨-, p, hp, i, hi, htype, rfl⟩ := h
  rw [if_pos hb, beq_iff_eq] at htype
  have hfalls : Falls M.bf p (p + i.length) := ⟨i, hi, by rw [htype]; rfl, rfl⟩
  exact ⟨p, (hrec.pairs p).mpr ⟨hp, _, hfalls, hlead⟩, i, hi, htype, rfl⟩

/-- At END control goes back behind a call. -/
theorem Comes.returns_of_end {c : ℕ} (h : Comes M s o c) (hpc : s.codePtr = o) (hat : At M s .end) :
    ∃ b, s.activations.head? = some b ∧ Resumes M b c := by
  have hend : ∀ {i : Instruction}, Placed M.bf o i.encode → i.type = .end := fun hi => by
    rw [At, hpc, Instruction.typeAt hi] at hat
    exact Except.ok.inj hat
  cases h with
  | flows he =>
    rcases he with ⟨i, hi, hl, -⟩ | ⟨i, hi, hf, -⟩
    · rw [hend hi] at hl
      cases hl
    · rw [hend hi] at hf
      cases hf
  | enters hcallc => cases hcallc.unique hat
  | returns _ hb hresumes => exact ⟨_, hb, hresumes⟩

/-- Control comes to the end of a recorded pair from its first instruction only, if it does not return
    there from a closure. -/
theorem Comes.pair {c i : ℕ} (hw : WellSwept M.bf) (hrec : Records M.bf a) (h : Comes M s o c)
    (ho : Reachable M.bf o) (hret : ReturnsToLeader M s) (hi : i ∈ a.collectPairs)
    (hnext : Next (fun _ => true) M.bf i c) : o = i := by
  obtain ⟨hreach, hlead⟩ := hrec.pair hi hnext
  cases h with
  | flows he =>
    rcases he with hlabel | hfalls
    · exact absurd (.inr ⟨o, ho.swept, .inl hlabel⟩) hlead
    · exact hw.pred_unique ho.swept hreach.swept hfalls hnext
  | enters _ hp hlabel => exact absurd (.inr ⟨_, hp.swept, .inl hlabel⟩) hlead
  | @returns b hat hb hresumes =>
    by_cases hclosure : b.isClosure = 1
    · obtain ⟨d, hd, hleader⟩ := hret hat b hb hclosure
      have hdc : (d : ℤ) = c := hd.symm.trans hresumes.1
      obtain rfl : d = c := by omega
      exact absurd hleader hlead
    · exact absurd (hresumes.leader hclosure) hlead

/-- One turn executes pairs back to back exactly when it does not return from a closure into a
    block. -/
theorem backToBack_iff (hw : WellSwept M.bf) (hrec : Records M.bf a) {c : ℕ} (ho : Reachable M.bf o)
    (hpc : s.codePtr = o) (hcode : s'.codePtr = c) (hcomes : Comes M s o c) :
    BackToBack M.bf a s s' ↔ ReturnsToLeader M s := by
  constructor
  · intro hback hat b hb hclosure
    obtain ⟨b', hb', hresumes⟩ := hcomes.returns_of_end hpc hat
    obtain rfl : b' = b := Option.some.inj (hb'.symm.trans hb)
    refine ⟨c, hresumes.1, by_contra fun hlead => ?_⟩
    obtain ⟨p, hp, i, hi, htype, hc⟩ := hresumes.pair hrec hclosure hlead
    -- the turn executed an END, not the CALLC the pair starts with
    have hcallc : At M s .callc := by
      rw [At, hback p hp c ⟨i, hi, rfl, hc⟩ hcode, Instruction.typeAt hi, htype]
    cases hcallc.unique hat
  · intro hret i hi d hnext hd
    obtain rfl : c = d := by omega
    rw [hpc, hcomes.pair hw hrec ho hret hi hnext]

/-- The strings of the pool are the only objects when a run starts. -/
theorem entered_of_starts {bf : Bytefile} (hstart : Starts E s) : Entered bf s.heap := by
  obtain ⟨_, s₁, hctor, hpush⟩ := exec_bind_ok.mp hstart
  obtain ⟨_, s₂, hloop, htop⟩ := exec_bind_ok.mp hctor
  have hstrings : ∀ a o, s₂.heap a = some o → o.isString = true := by
    refine poolLoop_invariant (I := fun u => ∀ a o, u.heap a = some o → o.isString = true) ?_ hloop
      fun _ _ h => nomatch h
    intro u v i string kept hu ht a o ha
    rw [ht.heap] at ha
    by_cases heq : a = v.stack (u.top - 1)
    · rw [heq, Function.update_self] at ha
      cases ha
      rfl
    · rw [Function.update_of_ne heq] at ha
      rcases ht.origin with ⟨-, rfl, -⟩ | ⟨-, id, forward, hr, -⟩
      · exact hu a o ha
      · obtain ⟨b, o', -, hb, -, rfl⟩ := hr.origin ha
        have hstring := hu b o' hb
        rw [(Obj.map_of_isString hstring _).2]
        exact hstring
  cases htop
  intro a entry captured ha
  rw [(pushStackFrame_ok hpush).heap] at ha
  cases hstrings a _ ha

/-- A run starts with the instruction at offset 0. -/
theorem Starts.codePtr (hstart : Starts E s) : s.codePtr = 0 := by
  obtain ⟨_, s₁, hctor, hpush⟩ := exec_bind_ok.mp hstart
  exact (pushStackFrame_ok hpush).codePtr.trans (frameStack_registers hctor).2.2.2

theorem flowing_of_starts (hpub : Public M.bf 0) (hstart : Starts E s) :
    ∃ B, B.Valid M ∧ B.floor = s.fp + 3 ∧ B.bottom.ra = 0 ∧ Flowing M B s := by
  obtain ⟨B, hB, hfloor, hbot, b, hc⟩ := chain_of_starts hstart
  refine ⟨B, hB, hfloor, hbot, ⟨0, Starts.codePtr hstart, .start hpub⟩, ⟨b, [], hc⟩, fun b' hb' hra => ?_,
    entered_of_starts hstart⟩
  rw [hc.activations, List.append_nil, List.mem_singleton] at hb'
  rw [hb'] at hra
  exact absurd ((hc.outermost_iff hbot).mpr rfl) hra

end Pairs

/-- Along a run whose instructions stay inside their activations and leave the entries of closures
    alone, a turn executes the recorded pairs back to back exactly when it does not return from a
    closure into a block. -/
theorem pairs_back_to_back (M : Machine) (E : Env M) (hstack : M.maxStack = stackSize) (bound : ℤ)
    (hbound : bound < M.maxStack) (hw : WellSwept M.bf) (hpub : Public M.bf 0) {a : Analyzer}
    (ha : analyze M.bf = .ok a) {s₀ : State} (hstart : Starts E s₀) (hfp : s₀.fp + 3 ≤ bound) :
    (∀ i ∈ a.collectPairs, ∀ c : ℕ, Next (fun _ => true) M.bf i c → s₀.codePtr ≠ c) ∧
    ∀ s s', Run (Step E) (Proper M bound) s₀ s → Proper M bound s → Step E s s' →
      (BackToBack M.bf a s s' ↔ ReturnsToLeader M s) := by
  have hmax : M.maxStack < 2 ^ 32 := by rw [hstack]; decide
  obtain ⟨-, hrec⟩ := analyze_ok hw ha
  obtain ⟨B, hB, hfloor, hbot, hf₀⟩ := flowing_of_starts hpub hstart
  have hfloor' : B.floor ≤ bound := by omega
  constructor
  · intro i hi c hnext hc
    rw [Starts.codePtr hstart] at hc
    obtain rfl : c = 0 := by omega
    exact (hrec.pair hi hnext).2 (.inl hpub)
  · intro s s' hrun hproper hstep
    have hf : Flowing M B s := by
      refine Run.invariant (fun u v hu hp hs => ?_) hf₀ hrun
      obtain ⟨o, hpc, ho⟩ := hu.code
      obtain ⟨-, -, -, hv⟩ := hu.turn hmax hB hfloor' hbound hbot hw hp ho hpc hs
      exact hv
    obtain ⟨o, hpc, ho⟩ := hf.code
    obtain ⟨c, hcode, hcomes, -⟩ := hf.turn hmax hB hfloor' hbound hbot hw hproper ho hpc hstep
    exact backToBack_iff hw hrec ho hpc hcode hcomes

/-- `main` makes a closure of a function that returns 7, calls it and ends. -/
def closureFile : Bytefile := .ofMain 0
  [0x52, 0, 0, 0, 0, 0, 0, 0, 0, 0x54, 24, 0, 0, 0, 0, 0, 0, 0, 0x55, 0, 0, 0, 0, 0x16,
    0x53, 0, 0, 0, 0, 0, 0, 0, 0, 0x10, 7, 0, 0, 0, 0x16, 0xFF]

/-- Its instructions. -/
def closureInstructions : List Instruction :=
  [beginInstruction, ⟨0x54, [24, 0], [], opcode_known, two_operands, no_capture⟩,
    ⟨0x55, [0], [], opcode_known, one_operand, no_capture⟩, endInstruction,
    ⟨0x53, [0, 0], [], opcode_known, two_operands, no_capture⟩,
    ⟨0x10, [7], [], opcode_known, one_operand, no_capture⟩, endInstruction]

theorem laidOut_closureFile : LaidOut closureFile 0 closureInstructions :=
  ⟨by decide, by decide⟩

theorem closureFile_wellSwept : WellSwept closureFile :=
  wellSwept_of_laidOut laidOut_closureFile (by decide) (by decide)

theorem closureFile_public : Public closureFile 0 := ⟨0, by decide, by decide⟩

/-- `closureFile` on the stack of the interpreter. -/
def closureMachine : Machine := Machine.layout closureFile stackSize (by decide) stackSize_le

def closureEnv : Env closureMachine := Env.bump closureMachine fun k => BitVec.ofNat 64 (2 ^ 50 + 64 * k)

/-- The state of `closureFile` after `n` turns. -/
def closureState : ℕ → State
  | 0 => startState closureEnv
  | n + 1 => nextState closureEnv (closureState n)

/-- What the analyzer records of `closureFile`: a pair starts at the CALLC at 18. -/
def closureRecords : Analyzer where
  collectSingle := [0, 9, 18, 23, 24, 33, 38]
  collectPairs := [0, 18, 24, 33]
  prev := some 38
  visited := [7, 0, 0, 0, 0, 0, 0, 0, 0, 5, 0, 0, 0, 0, 0, 0, 0, 0, 7, 0, 0, 0, 0, 5, 7, 0, 0, 0, 0, 0, 0, 0,
    0, 5, 0, 0, 0, 0, 5, 4]
  labels := []

theorem analyze_closureFile : analyze closureFile = .ok closureRecords := by decide +kernel

theorem closureState_starts : Starts closureEnv (closureState 0) :=
  starts_startState closureEnv (by decide +kernel)

theorem closureState_step {n : ℕ} (h : turnResult closureEnv (closureState n) = some false) :
    Step closureEnv (closureState n) (closureState (n + 1)) := turn_nextState closureEnv h

theorem closureFile_callc : Next (fun _ => true) closureFile 18 23 := by
  have hplaced := laidOut_closureFile.tail.tail.head.1
  exact ⟨_, hplaced, rfl, rfl⟩

/-- After the CALLC the pair recorded with it goes on with the END it returns to, which is executed
    after the END of the closure. -/
theorem closureFile_pair : ¬ ∀ (M : Machine) (E : Env M) (a : Analyzer) (s₀ s s' : State),
    M.maxStack = stackSize → WellSwept M.bf → Public M.bf 0 → analyze M.bf = .ok a → Starts E s₀ →
    Run (Step E) (fun _ => True) s₀ s → Step E s s' → BackToBack M.bf a s s' := by
  intro h
  have hstep : ∀ n < 6, True ∧ Step closureEnv (closureState n) (closureState (n + 1)) := by
    intro n hn
    refine ⟨trivial, closureState_step ?_⟩
    have hall : ∀ n < 6, turnResult closureEnv (closureState n) = some false := by decide +kernel
    exact hall n hn
  have hrun : Run (Step closureEnv) (fun _ => True) (closureState 0) (closureState 5) :=
    Run.of_turns fun n hn => hstep n (by omega)
  have hback := h closureMachine closureEnv closureRecords (closureState 0) (closureState 5)
    (closureState 6) rfl closureFile_wellSwept closureFile_public analyze_closureFile
    closureState_starts hrun (hstep 5 (by decide)).2
  have hwhere : (closureState 6).codePtr = 23 ∧ (closureState 5).codePtr = 38 := by decide +kernel
  have hcallc := hback 18 (by decide) 23 closureFile_callc hwhere.1
  rw [hwhere.2] at hcallc
  cases hcallc

/-- The run of `closureFile` keeps to the conditions up to the END of the closure, and pairs are
    executed back to back until then. -/
theorem pairs_back_to_back_closureFile :
    BackToBack closureFile closureRecords (closureState 4) (closureState 5) ∧
      ¬ ReturnsToLeader closureMachine (closureState 5) := by
  have hproper : ∀ (n : ℕ) (type : InstructionType), At closureMachine (closureState n) type →
      need closureFile (closureState n).codePtr type (integerIndex (closureState n)) ≤
        (closureState n).operands →
      type ≠ .st ∧ type ≠ .sta ∧ type ≠ .sti →
      (type = .callc → closureFile.code32 ((closureState n).codePtr + 1) = .ok 0 ∧
        (closureState n).heap ((closureState n).stack ((closureState n).top + 1)) =
          some (.closure (boxInt 24) [])) →
      Proper closureMachine (stackSize - 5) (closureState n) := by
    intro n type hat hop hstore hcallc
    refine ⟨fun type' hat' => ?_, fun hat' m hm => ?_, fun type' a entry captured o' hat' _ hw => ?_⟩
    · rw [← hat.unique hat']
      refine ⟨hop, fun i hi => ?_⟩
      cases type <;> first | cases hi | exact absurd rfl hstore.1 | exact absurd rfl hstore.2.1 |
        exact absurd rfl hstore.2.2
    · obtain ⟨hzero, hobj⟩ := hcallc (hat.unique hat')
      obtain rfl : 0 = m := Except.ok.inj (hzero.symm.trans hm)
      exact ⟨_, _, by simpa using hobj⟩
    · obtain rfl := hat.unique hat'
      cases hw with
      | captured => exact absurd rfl hstore.1
      | element => exact absurd rfl hstore.2.1
      | first _ htype => exact absurd htype (not_or.mpr hstore.2)
  have h0 := hproper 0 .begin (by decide +kernel) (by decide +kernel) (by decide) (fun h => nomatch h)
  have h1 := hproper 1 .closure (by decide +kernel) (by decide +kernel) (by decide) (fun h => nomatch h)
  have h2 := hproper 2 .callc (by decide +kernel) (by decide +kernel) (by decide)
    (fun _ => by decide +kernel)
  have h3 := hproper 3 .cbegin (by decide +kernel) (by decide +kernel) (by decide) (fun h => nomatch h)
  have h4 := hproper 4 .const (by decide +kernel) (by decide +kernel) (by decide) (fun h => nomatch h)
  have h5 := hproper 5 .end (by decide +kernel) (by decide +kernel) (by decide) (fun h => nomatch h)
  have hstep : ∀ n < 6, Step closureEnv (closureState n) (closureState (n + 1)) := by
    intro n hn
    have hall : ∀ n < 6, turnResult closureEnv (closureState n) = some false := by decide +kernel
    exact closureState_step (hall n hn)
  have hrun : Run (Step closureEnv) (Proper closureMachine (stackSize - 5)) (closureState 0)
      (closureState 4) :=
    ((((Run.refl (closureState 0)).tail h0 (hstep 0 (by decide))).tail h1 (hstep 1 (by decide))).tail h2
      (hstep 2 (by decide))).tail h3 (hstep 3 (by decide))
  obtain ⟨-, hiff⟩ := pairs_back_to_back closureMachine closureEnv rfl (stackSize - 5) (by decide)
    closureFile_wellSwept closureFile_public analyze_closureFile closureState_starts (by decide +kernel)
  have hwhere : (closureState 6).codePtr = 23 ∧ (closureState 5).codePtr = 38 := by decide +kernel
  refine ⟨(hiff _ _ hrun h4 (hstep 4 (by decide))).mpr fun hat => ?_, fun hret => ?_⟩
  · have hconst : At closureMachine (closureState 4) .const := by decide +kernel
    cases hconst.unique hat
  · have hback := (hiff _ _ (hrun.tail h4 (hstep 4 (by decide))) h5 (hstep 5 (by decide))).mpr hret
    have hcallc := hback 18 (by decide) 23 closureFile_callc hwhere.1
    rw [hwhere.2] at hcallc
    cases hcallc

end Analyzer
end LamaSM
