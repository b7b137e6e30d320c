import LamaSM.Passing
import LamaSM.Slots
import LamaSM.StringPool

/-! What an accepted file names in a run exists.

    `Existing` asks it of the variables and the string of one instruction. Along a run the turns are
    `Covered`: what the verifier does not look at is in order before the step. From that the verifier's
    own checks give the locals, the arguments and the globals, and by these an ST stays in its
    activation; the captured variables follow the closure through calls, returns and collections
    (`Holding`), from the BEGIN that was entered with it. -/

namespace LamaSM
open Lib

/-! ### What an instruction names -/

/-- The first operand of a STRING, SEXP or TAG. -/
inductive NamesString (bf : Bytefile) (o : ℤ) (k : ℕ) : Prop
  | operand {type : InstructionType} (type_eq : bf.typeAt o = .ok type)
      (names : type = .string ∨ type = .sexp ∨ type = .tag) (index_eq : bf.code32 (o + 1) = .ok k) :
      NamesString bf o k

/-- A string of the string table starts there. -/
def StartsString (bf : Bytefile) (k : ℕ) : Prop :=
  ∃ l string, StringTable bf 0 l ∧ (k, string) ∈ l

/-- The variable is one of the running activation or of its closure, or a global there is. -/
def VariableExists (M : Machine) (s : State) (d : Designation) : Prop :=
  match d.memVar with
  | .global => (d.value : ℤ) < M.bf.globalAreaSize
  | .local => d.value < s.reserved
  | .argument => d.value < s.passed
  | .closure => d.value < s.captured.length
  | .other _ => False

/-- Every variable the instruction about to be executed designates exists, and the string it names is
    one of the table of `bf`. -/
structure Existing (bf : Bytefile) (M : Machine) (s : State) : Prop where
  variable_exists : ∀ d, Designates M.bf s.codePtr d → VariableExists M s d
  string_starts : ∀ k, NamesString M.bf s.codePtr k → StartsString bf k

/-! ### What the verifier looks at -/

/-- `o` starts an instruction of the linear decode that is reached. -/
def Inspected (bf : Bytefile) (o : ℕ) : Prop :=
  ∃ pre i post, Decodes bf 0 (pre ++ i :: post) ∧ o = finish 0 pre ∧ Reached bf o

/-- The instruction about to be executed is inspected, and what encloses it is a BEGIN the running
    activation has executed. -/
structure Looked (bf : Bytefile) (M : Machine) (p : State × List (List ℤ)) : Prop where
  inspected : ∃ o : ℕ, p.1.codePtr = o ∧ Inspected bf o
  enclosed : ∀ d, Designates M.bf p.1.codePtr d →
    ∃ o b : ℕ, p.1.codePtr = o ∧ Encloses bf o b ∧ (b : ℤ) ∈ p.2.headD []

/-- What the verifier leaves open is in order before the turn: there are the operands it uses, a store
    through a reference goes to a local or an argument of the activation or above the first frame, one
    to a global above the first frame, and a BEGIN is entered with the arguments it declares and the
    captured variables its function names. -/
structure Covered (bf : Bytefile) (M : Machine) (bound : ℤ) (p : State × List (List ℤ)) : Prop
    extends Looked bf M p where
  operands : ∀ type, At M p.1 type → need M.bf p.1.codePtr type (integerIndex p.1) ≤ p.1.operands
  reference : ∀ type, At M p.1 type → type = .sta ∨ type = .sti → ∀ i, storeSlot M p.1 type = some i →
    0 ≤ i → i < M.maxStack → (p.1.floor < i ∧ i ≤ p.1.fp) ∨
      (p.1.fp + 4 ≤ i ∧ i < p.1.fp + 4 + p.1.passed) ∨ bound < i
  globals : ∀ index, At M p.1 .st → Designates M.bf p.1.codePtr ⟨.global, index⟩ →
    bound < globalSlot M p.1 index
  arity : ∀ type, At M p.1 type → OpensFunction type → ∀ n, bf.code32 (p.1.codePtr + 1) = .ok n →
    n ≤ p.1.passed
  captures : ∀ type, At M p.1 type → OpensFunction type → ∀ (o b : ℕ) (d : Designation),
    p.1.codePtr = b → Encloses bf o b → Designates M.bf o d → d.memVar = .closure →
      d.value < p.1.captured.length

section Looking

variable {bf : Bytefile} {M : Machine} {bound : ℤ} {p : State × List (List ℤ)}

/-- What `verify` leaves of an instruction it looks at. -/
theorem Inspected.rewritten {bf' : Bytefile} {fuel o : ℕ} (h : Inspected bf o) (hverify : verify fuel bf = .ok bf') :
    ∃ i i' : Instruction, Placed bf o i.encode ∧ Placed bf' o i'.encode ∧ i'.type = i.type ∧
      (i' = i ∨ OpensFunction i.type) := by
  obtain ⟨pre, i, post, hdec, rfl, -⟩ := h
  obtain ⟨visited, hmarks, -⟩ := except_bind_ok.mp hverify
  obtain ⟨all, hdec', hall⟩ := verify_decodes hmarks hverify hdec
  obtain ⟨i', hplaced', hrewritten⟩ := hall.at hdec'
  refine ⟨i, i', hdec.drop.head.1, hplaced', ?_, hrewritten.only.imp id And.left⟩
  rw [Instruction.type, hrewritten.opcode, Instruction.type]

/-- It names the same string in both files. -/
theorem Inspected.namesString {bf' : Bytefile} {fuel o k : ℕ} (h : Inspected bf o)
    (hverify : verify fuel bf = .ok bf') (hk : NamesString bf' o k) : NamesString bf o k := by
  obtain ⟨i, i', hplaced, hplaced', htype, honly⟩ := h.rewritten hverify
  obtain ⟨htype', hnames, hindex⟩ := hk
  obtain rfl := Except.ok.inj (htype'.symm.trans (Instruction.typeAt hplaced'))
  obtain rfl : i' = i := by
    refine honly.resolve_right fun hopens => ?_
    rw [← htype] at hopens
    rcases hopens with h | h <;> rw [h] at hnames <;> exact absurd hnames (by decide)
  obtain ⟨x, hx⟩ : ∃ x, i'.args[0]? = some x := by
    rcases hnames with h | h | h
    · obtain ⟨x, hx⟩ := i'.args_one (by rw [h]; rfl)
      exact ⟨x, by rw [hx]; rfl⟩
    all_goals
      obtain ⟨x, y, hxy⟩ := i'.args_two (by rw [h]; rfl)
      exact ⟨x, by rw [hxy]; rfl⟩
  have h0 := Instruction.operand hplaced hx
  have h0' := Instruction.operand hplaced' hx
  rw [show (o : ℤ) + 1 + 4 * ((0 : ℕ) : ℤ) = o + 1 by omega] at h0 h0'
  rw [hindex] at h0'
  exact ⟨Instruction.typeAt hplaced, hnames, h0.trans h0'.symm⟩

theorem Covered.foreseen (h : Covered bf M bound p) : Foreseen bf M p :=
  ⟨fun d hd _ => h.enclosed d hd, h.arity⟩

/-- With existing variables a covered turn stays inside its activation: also an ST of a local or an
    argument does. -/
theorem Covered.stays (h : Covered bf M bound p)
    (hvars : ∀ d, Designates M.bf p.1.codePtr d → VariableExists M p.1 d) : Stays M bound p.1 := by
  intro type hat
  refine ⟨h.operands type hat, fun i hi h0 hM => ?_⟩
  by_cases hassign : type = .sta ∨ type = .sti
  · exact h.reference type hat hassign i hi h0 hM
  obtain rfl : type = .st := by
    rw [storeSlot.eq_def] at hi
    cases type
    case st => rfl
    case sta => exact absurd (.inl rfl) hassign
    case sti => exact absurd (.inr rfl) hassign
    all_goals cases hi
  rw [storeSlot] at hi
  cases hlow : M.bf.lowBitsAt p.1.codePtr with
  | error e =>
    rw [hlow] at hi
    cases hi
  | ok low =>
    cases hindex : M.bf.code32 (p.1.codePtr + 1) with
    | error e =>
      rw [hlow, hindex] at hi
      cases hi
    | ok index =>
      rw [hlow, hindex] at hi
      have hd : Designates M.bf p.1.codePtr ⟨MemVar.ofByte low, index⟩ :=
        .operand hat (.inr (.inl rfl)) hlow hindex
      have hexists := hvars _ hd
      unfold VariableExists at hexists
      dsimp only at hi hexists
      cases hvar : MemVar.ofByte low <;> rw [hvar] at hi hexists hd <;> cases hi
      · exact .inr (.inr (h.globals index hat hd))
      · have hfloor : p.1.floor = p.1.fp - p.1.reserved := rfl
        dsimp only at hexists
        exact .inl ⟨by omega, by omega⟩
      · dsimp only at hexists
        exact .inr (.inl ⟨by omega, by omega⟩)

/-- Two decodes that come to the same offset have opened the same BEGINs there. -/
theorem Opening.unique {b b' : List ℕ} {i i' : Instruction} {post post' : List Instruction} :
    ∀ {pre pre' : List Instruction} {o : ℕ} {bs : List ℕ}, Decodes bf o (pre ++ i :: post) →
      Decodes bf o (pre' ++ i' :: post') → finish o pre = finish o pre' → Opening bf o bs pre b →
        Opening bf o bs pre' b' → b = b'
  | [], [], _, _, _, _, _, h, h' => by
    cases h
    cases h'
    rfl
  | [], j :: pre', o, _, _, _, hfinish, _, _ => by
    have hle := le_finish (o + j.length) pre'
    have hpos := j.length_pos
    have hfinish : o = finish (o + j.length) pre' := hfinish
    omega
  | j :: pre, [], o, _, _, _, hfinish, _, _ => by
    have hle := le_finish (o + j.length) pre
    have hpos := j.length_pos
    have hfinish : finish (o + j.length) pre = o := hfinish
    omega
  | j :: pre, j' :: pre', o, bs, hdec, hdec', hfinish, h, h' => by
    have hsize := bf.codeSize_lt
    obtain ⟨hplaced, hin⟩ := hdec.head
    obtain ⟨hplaced', hin'⟩ := hdec'.head
    have hnext := (Instruction.generalByterun_eq hplaced (by omega)).symm.trans
      (Instruction.generalByterun_eq hplaced' (by omega))
    obtain ⟨hlength, htype⟩ := Prod.mk.inj (Except.ok.inj hnext)
    have hfinish : finish (o + j.length) pre = finish (o + j.length) pre' := by
      have : finish (o + j.length) pre = finish (o + j'.length) pre' := hfinish
      rwa [← hlength] at this
    have hrest := hdec.tail
    have hrest' := hdec'.tail
    rw [← hlength] at hrest'
    have next : ∀ {bs : List ℕ}, Opening bf (o + j.length) bs pre b → Opening bf (o + j'.length) bs pre' b' →
        b = b' := fun h h' => by
      rw [← hlength] at h'
      exact Opening.unique hrest hrest' hfinish h h'
    cases h with
    | skip unreached rest =>
      cases h' with
      | skip _ rest' => exact next rest rest'
      | opens reached | closes reached | stays reached => exact absurd reached unreached
    | opens reached opens rest =>
      cases h' with
      | skip unreached => exact absurd reached unreached
      | opens _ _ rest' => exact next rest rest'
      | closes _ ends =>
        rw [htype, ends] at opens
        rcases opens with h | h <;> cases h
      | stays _ not_opens => exact absurd (htype ▸ opens) not_opens
    | closes reached ends rest =>
      cases h' with
      | skip unreached => exact absurd reached unreached
      | opens _ opens =>
        rw [← htype, ends] at opens
        rcases opens with h | h <;> cases h
      | closes _ _ rest' => exact next rest rest'
      | stays _ _ not_end => exact absurd (htype ▸ ends) not_end
    | stays reached not_opens not_end rest =>
      cases h' with
      | skip unreached => exact absurd reached unreached
      | opens _ opens => exact absurd (htype ▸ opens) not_opens
      | closes _ ends => exact absurd (htype.trans ends) not_end
      | stays _ _ _ rest' => exact next rest rest'

/-- At most one BEGIN encloses an instruction. -/
theorem Encloses.unique {o b b' : ℕ} (h : Encloses bf o b) (h' : Encloses bf o b') : b = b' := by
  obtain ⟨pre, i, post, bs, hdec, ho, -, hopening⟩ := h
  obtain ⟨pre', i', post', bs', hdec', ho', -, hopening'⟩ := h'
  exact (List.cons.inj (Opening.unique hdec hdec' (ho.symm.trans ho') hopening hopening')).1

end Looking

/-! ### Objects and their addresses -/

/-- Objects lie in the heap. -/
def Zoned (M : Machine) (h : Heap) : Prop := ∀ a, (h a).isSome = true → M.heapZone a = true

section Objects

variable {M : Machine} {E : Env M} {s s' : State} {a : Word}

theorem Zoned.update {h : Heap} (hh : Zoned M h) (ha : M.heapZone a = true) (o : Obj) :
    Zoned M (Function.update h a (some o)) := by
  intro b hb
  by_cases hba : b = a
  · rwa [hba]
  · rw [Function.update_of_ne hba] at hb
    exact hh b hb

theorem zoned_start (hstart : Starts E s) : Zoned M s.heap := by
  obtain ⟨_, s₁, hctor, hpush⟩ := exec_bind_ok.mp hstart
  obtain ⟨_, s₂, hloop, htop⟩ := exec_bind_ok.mp hctor
  have hpool : Zoned M s₂.heap := by
    refine poolLoop_invariant (I := fun s => Zoned M s.heap) ?_ hloop fun _ hb => by cases hb
    intro s s' i string kept hs ht
    rw [ht.heap]
    refine Zoned.update ?_ ht.zone _
    rcases ht.origin with ⟨-, rfl, -⟩ | ⟨-, id, forward, hr, -⟩
    · exact hs
    · exact hr.inZone
  cases htop
  rw [(pushStackFrame_ok hpush).heap]
  exact hpool

theorem zoned_step (h : Zoned M s.heap) (hstep : Step E s s') : Zoned M s'.heap := by
  obtain ⟨type, -, hd⟩ := (turn_ok E).mp hstep
  cases dispatch_heap hd with
  | same hheap => rwa [hheap]
  | store writes present hheap =>
    rw [hheap]
    exact h.update (h _ (by rw [present]; rfl)) _
  | @create log heap b o filled =>
    rw [filled.heap]
    refine Zoned.update ?_ filled.zone _
    cases filled.collected with
    | kept words same => rwa [same]
    | moved stack guarantee words => exact guarantee.inZone

/-- A closure that can be reached is there after the turn, with as many variables. -/
theorem closure_step {entry : Word} {captured : List Word} (hzone : M.heapZone a = true)
    (hobj : s.heap a = some (.closure entry captured)) (hlive : Live s.heap (scannedWords M s) a)
    (hstep : Step E s s') : ∃ entry' captured', s'.heap (since s s' a) = some (.closure entry' captured') ∧
      captured'.length = captured.length := by
  obtain ⟨type, -, hd⟩ := (turn_ok E).mp hstep
  cases dispatch_heap hd with
  | same hheap hcoll =>
    rw [since_same hcoll, hheap]
    exact ⟨entry, captured, hobj, rfl⟩
  | @store b o o' writes present hheap hcoll =>
    rw [since_same hcoll, hheap]
    by_cases hab : a = b
    · subst hab
      obtain rfl := Option.some.inj (hobj.symm.trans present)
      obtain ⟨entry', captured', rfl, hlength⟩ := writes.of_closure
      exact ⟨entry', captured', Function.update_self .., hlength⟩
    · exact ⟨entry, captured, (Function.update_of_ne hab ..).trans hobj, rfl⟩
  | @create log heap b o filled hentry =>
    rw [since_eq filled.collections]
    obtain ⟨-, hmoved⟩ := filled.collected.closure hzone hobj hlive
    have hne : relocated log a ≠ b := by
      intro heq
      rw [heq, filled.free] at hmoved
      cases hmoved
    exact ⟨entry, _, by rw [filled.heap, Function.update_of_ne hne, hmoved], List.length_map _⟩

end Objects

/-! ### The closures of the activations -/

/-- The activation is one of a closure that has more than `i` captured variables. -/
structure Holding (s : State) (a : Activation) (i : ℕ) : Prop where
  isClosure : a.isClosure = 1
  closure : ∃ entry captured, s.heap (s.stack a.last) = some (.closure entry captured) ∧ i < captured.length

/-- The activation holds the captured variables that the functions it has begun name. -/
def HoldsNamed (bf : Bytefile) (M : Machine) (s : State) (a : Activation) (bs : List ℤ) : Prop :=
  ∀ (o b : ℕ) (d : Designation), (b : ℤ) ∈ bs → Encloses bf o b → Designates M.bf o d →
    d.memVar = .closure → Holding s a d.value

section Holding

variable {bf : Bytefile} {M : Machine} {E : Env M} {B : Base} {A : List Activation} {sizes : List ℤ}
  {a c c' : Activation} {as : List Activation} {s s' : State} {bound : ℤ} {i : ℕ}

/-- For the running activation these are the captured variables of the state. -/
theorem Chain.holding_iff (h : Chain M B A sizes (a :: as) s) : Holding s a i ↔ i < s.captured.length := by
  have hone : s.isClosure = a.isClosure := by rw [State.isClosure, h.activations]; rfl
  have hslot : a.isClosure = 1 → s.closureSlot = a.last := fun hclosure => by
    have hfp : s.fp = a.fp := h.fp
    rw [State.closureSlot, h.passed_eq, hfp, Activation.last, hclosure]
    omega
  constructor
  · rintro ⟨hclosure, entry, captured, hobj, hi⟩
    rw [← hslot hclosure] at hobj
    rwa [State.captured_eq (hone.trans hclosure) hobj]
  · intro hi
    obtain ⟨hclosure, entry, hobj⟩ := State.captured_object hi
    rw [hone] at hclosure
    rw [hslot hclosure] at hobj
    exact ⟨hclosure, entry, _, hobj, hi⟩

/-- An instruction inside its activation does not store to the slot of a closure that runs. -/
theorem Chain.spares_closure (h : Chain M B A sizes (a :: as) s) (hbound : B.floor ≤ bound)
    (hM : bound < M.maxStack) (hin : Stays M bound s) (hmem : c ∈ a :: as) (hclosure : c.isClosure = 1) :
    Spares M (fun _ => True) c.last s := by
  intro type hat _ hs
  have hlow := h.linked.1.fp_ge
  have hlast := h.linked.last_le c hmem
  have hl : c.last = c.fp + 3 + c.nargs + c.isClosure := rfl
  have hal : a.last = a.fp + 3 + a.nargs + a.isClosure := rfl
  have hfloor := a.floor_le_fp
  have hfp : s.fp = a.fp := h.fp
  rcases List.mem_cons.mp hmem with rfl | hbelow
  · have hstore := (hin type hat).store c.last hs (by omega) (by omega)
    rw [h.floor_eq, h.passed_eq, hfp] at hstore
    omega
  · have habove := h.linked.above c hbelow
    have hcfloor := c.floor_le_fp
    have hstore := (hin type hat).store c.last hs (by omega) (by omega)
    rw [h.floor_eq, h.passed_eq, hfp] at hstore
    omega

/-- An activation that is not ended keeps the captured variables of its closure, whichever activation
    runs. -/
theorem Holding.step (hbound : B.floor ≤ bound) (hM : bound < M.maxStack)
    (hzoned : Zoned M s.heap) (hc : Chain M B A sizes (a :: as) s) (hin : Stays M bound s)
    (hstep : Step E s s') (ht : Turned E B A sizes a as s s') (hmem : c ∈ a :: as)
    (hlast : Chain M B A sizes as s' → c.last ≠ a.last) (hsame : c'.SameCall c) (h : Holding s c i) :
    Holding s' c' i := by
  obtain ⟨hclosure, entry, captured, hobj, hi⟩ := h
  obtain ⟨hfp, hnargs, hisClosure, -⟩ := hsame
  have hle := hc.linked.last_le c hmem
  have habove : a.fp < c.last ∧ s.top < c.last := by
    have htop : s.top ≤ a.floor := hc.top
    have hfloor := a.floor_le_fp
    have hal := a.fp_lt_last
    have hcl := c.fp_lt_last
    rcases List.mem_cons.mp hmem with rfl | hbelow
    · omega
    · have := hc.linked.above c hbelow
      have := c.floor_le_fp
      omega
  have hword := ht.word hc hin habove.1 (by omega) (hc.spares_closure hbound hM hin hmem hclosure) hlast
  have hlive := live_of_slot (s := s) habove.2 (show c.last < M.maxStack by omega) (by rw [hobj]; rfl)
  obtain ⟨entry', captured', hobj', hlength⟩ := closure_step (hzoned _ (by rw [hobj]; rfl)) hobj hlive hstep
  have hslot : c'.last = c.last := by
    unfold Activation.last
    rw [hfp, hnargs, hisClosure]
  exact ⟨hisClosure.trans hclosure, entry', captured', by rw [hslot, hword, hobj'], by omega⟩

end Holding

/-! ### Runs -/

/-- Beside the chain of the activations: what they have begun fits them, and the closures among them hold
    the captured variables named there. -/
structure Following (bf : Bytefile) (M : Machine) (B : Base) (p : State × List (List ℤ)) : Prop where
  chain : ∃ a as, Chain M B [] [] (a :: as) p.1
  zoned : Zoned M p.1.heap
  begun : List.Forall₂ (Begun bf M.bf) p.1.activations p.2
  named : List.Forall₂ (HoldsNamed bf M p.1) p.1.activations p.2

section Runs

variable {bf : Bytefile} {M : Machine} {E : Env M} {B : Base} {bound : ℤ} {p q : State × List (List ℤ)}
  {fuel : ℕ}

theorem Inspected.globalAreaSize {bf' : Bytefile} {o : ℕ} (h : Inspected bf o) (hverify : verify fuel bf = .ok bf')
    (hbehind : 12 ≤ bf.codePtr) : bf'.globalAreaSize = bf.globalAreaSize := by
  obtain ⟨pre, i, post, hdec, -⟩ := h
  obtain ⟨visited, hmarks, -⟩ := except_bind_ok.mp hverify
  obtain ⟨hbf', -⟩ := verify_patched hmarks hverify hdec.linear
  rw [hbf']
  exact patched_globalAreaSize hbehind _

/-- What the instruction names exists. -/
theorem Following.existing (h : Following bf M B p) (hverify : verify fuel bf = .ok M.bf)
    (hbehind : 12 ≤ bf.codePtr)
    (hglobals : ∀ o d, Inspected bf o → Designates M.bf o d → d.memVar = .global → 0 ≤ bf.globalAreaSize)
    (hstrings : ∀ o k, Inspected bf o → NamesString bf o k → StartsString bf k) (hlook : Looked bf M p) :
    Existing bf M p.1 := by
  obtain ⟨o, ho, hinspected⟩ := hlook.inspected
  constructor
  · intro d hd
    obtain ⟨o', b, ho', hencloses, hb⟩ := hlook.enclosed d hd
    obtain rfl : o' = o := by omega
    rw [ho] at hd
    by_cases hclosure : d.memVar = .closure
    · obtain ⟨a, as, hc⟩ := h.chain
      have hnamed := h.named
      rw [hc.activations] at hnamed
      have hholding : Holding p.1 a d.value := by
        revert hb hnamed
        generalize p.2 = g
        intro hb hnamed
        cases hnamed with
        | cons hhead _ => exact hhead o' b d hb hencloses hd hclosure
      unfold VariableExists
      rw [hclosure]
      exact hc.holding_iff.mp hholding
    · have hrange := hencloses.inRange hverify hbehind h.begun hb hd hclosure fun hglobal => by
        rw [hinspected.globalAreaSize hverify hbehind]
        exact hglobals o' d hinspected hd hglobal
      unfold VariableExists
      cases hvar : d.memVar <;> rw [hvar] at hrange
      case closure => exact absurd hvar hclosure
      all_goals exact hrange
  · intro k hk
    rw [ho] at hk
    exact hstrings o k hinspected (hinspected.namesString hverify hk)

/-- Membership may be used where a relation between lists is weakened. -/
theorem forall₂_imp_mem {α β : Type} {R S : α → β → Prop} {l : List α} {l' : List β}
    (himp : ∀ a ∈ l, ∀ b, R a b → S a b) (h : List.Forall₂ R l l') : List.Forall₂ S l l' := by
  have hmem := (List.forall₂_and_left (p := (· ∈ l)) l l').mpr ⟨fun _ ha => ha, h⟩
  exact hmem.imp fun a b ⟨ha, hr⟩ => himp a ha b hr

theorem Following.step (hmax : M.maxStack < 2 ^ 32) (hB : B.Valid M) (hnull : B.bottom.ra = 0)
    (hbound : B.floor ≤ bound) (hM : bound < M.maxStack) (h : Following bf M B p)
    (hg : Covered bf M bound p) (hvars : ∀ d, Designates M.bf p.1.codePtr d → VariableExists M p.1 d)
    (hstep : Begins E p q) : Following bf M B q := by
  obtain ⟨a, as, hc⟩ := h.chain
  have hin := hg.stays hvars
  obtain ⟨ht, hcq⟩ := hc.step hmax hB hbound hM hnull hin hstep.step
  refine ⟨hcq, zoned_step h.zoned hstep.step, begun_step h.begun hg.foreseen hstep, ?_⟩
  have hact : p.1.activations = a :: as := by rw [hc.activations, List.append_nil]
  have hnamed := h.named
  rw [hact] at hnamed
  have keep : ∀ c ∈ a :: as, (Chain M B [] [] as q.1 → c.last ≠ a.last) → ∀ c' : Activation, c'.SameCall c →
      ∀ bs, HoldsNamed bf M p.1 c bs → HoldsNamed bf M q.1 c' bs :=
    fun c hmem hlast c' hsame bs hholds o b d hb hencloses hd hvar =>
      (hholds o b d hb hencloses hd hvar).step hbound hM h.zoned hc hin hstep.step ht hmem hlast hsame
  have running : ∀ as', Chain M B [] [] as' q.1 → as.length < as'.length → ¬ Chain M B [] [] as q.1 := by
    intro as' hc' hlt hce
    have hlength := congrArg List.length (hc'.activations.symm.trans hce.activations)
    rw [List.append_nil, List.append_nil] at hlength
    omega
  cases ht with
  | @plain type hat hplain hd hc' =>
    have hsame : begunAfter p.1.codePtr type p.2 = p.2 := by cases type <;> first | rfl | cases hplain
    rw [hstep.begun type hat, hsame, hc'.activations, List.append_nil]
    refine forall₂_imp_mem (fun c hmem bs => ?_) hnamed
    exact keep c hmem (fun hce => absurd hce (running _ hc' (Nat.lt_succ_self _))) c ⟨rfl, rfl, rfl, rfl⟩ bs
  | @enter type arg nLocals hat hbegin hd harg hn hroom hs' hc' =>
    have hafter : begunAfter p.1.codePtr type p.2 = begunAfter p.1.codePtr .begin p.2 := by
      rcases hbegin with rfl | rfl <;> rfl
    rw [hstep.begun type hat, hafter, hc'.activations, List.append_nil]
    have hend : ∀ {c : Activation}, Chain M B [] [] as q.1 → c.last ≠ a.last :=
      fun hce => absurd hce (running _ hc' (Nat.lt_succ_self _))
    revert hnamed
    generalize hgs : p.2 = g
    intro hnamed
    cases hnamed with
    | @cons _ bs _ g' hhead htail =>
      refine .cons ?_ (forall₂_imp_mem (fun c hmem bs => ?_) htail)
      · refine keep a List.mem_cons_self hend { a with reserved := a.reserved + nLocals } ⟨rfl, rfl, rfl, rfl⟩
          (p.1.codePtr :: bs) fun o b d hb hencloses hd' hvar => ?_
        rcases List.mem_cons.mp hb with hb | hb
        · exact hc.holding_iff.mpr (hg.captures type hat hbegin o b d hb.symm hencloses hd' hvar)
        · exact hhead o b d hb hencloses hd' hvar
      · exact keep c (List.mem_cons_of_mem a hmem) hend c ⟨rfl, rfl, rfl, rfl⟩ bs
  | call hat hd htarget hn hp hback hc' | callc hat hd hn hentry hp hback hc' =>
    rw [hstep.begun _ hat, hc'.activations, List.append_nil]
    refine .cons (fun o b d hb => absurd hb List.not_mem_nil) (forall₂_imp_mem (fun c hmem bs => ?_) hnamed)
    refine keep c hmem (fun hce => absurd hce (running _ hc' ?_)) c ⟨rfl, rfl, rfl, rfl⟩ bs
    rw [List.length_cons, List.length_cons]
    omega
  | leave hat hd hra hpc htop hstack hc' =>
    rw [hstep.begun _ hat, hc'.activations, List.append_nil]
    show List.Forall₂ _ as p.2.tail
    revert hnamed
    generalize p.2 = g
    intro hnamed
    cases hnamed with
    | cons _ htail =>
      refine forall₂_imp_mem (fun c hmem bs => ?_) htail
      refine keep c (List.mem_cons_of_mem a hmem) (fun _ => ?_) c ⟨rfl, rfl, rfl, rfl⟩ bs
      have habove := hc.linked.above c hmem
      have hcl := c.fp_lt_last
      have hfloor := c.floor_le_fp
      omega

end Runs

/-! ### The enclosing BEGIN, computed -/

/-- The BEGINs open after the instructions, by the table of depths. -/
def opened (visited : List ℤ) : ℕ → List ℕ → List Instruction → List ℕ
  | _, bs, [] => bs
  | o, bs, i :: is => opened visited (o + i.length)
      (if visited.getD o (-1) = -1 then bs
        else if i.type = .end then bs.tail
        else if i.type = .begin ∨ i.type = .cbegin then o :: bs
        else bs) is

section Opened

variable {bf : Bytefile} {visited : List ℤ} {is : List Instruction} {i : Instruction} {k b : ℕ}

theorem MarksExact.reached_iff (hv : MarksExact bf visited) (o : ℕ) :
    Reached bf o ↔ visited.getD o (-1) ≠ -1 := by
  rw [List.getD_eq_getElem?_getD]
  cases hget : visited[o]? with
  | some v => exact hv.reached hget
  | none =>
    refine ⟨fun ⟨d, hd⟩ => ?_, fun hne => absurd rfl hne⟩
    rw [((hv.marked o d).mpr hd).1] at hget
    cases hget

theorem opening_opened (hv : MarksExact bf visited) : ∀ (is : List Instruction) (o : ℕ) (bs : List ℕ),
    Opening bf o bs is (opened visited o bs is)
  | [], _, _ => .nil
  | i :: is, o, bs => by
    have hrest := opening_opened hv is (o + i.length)
    have hreached := hv.reached_iff o
    rw [opened]
    split_ifs with hunmarked hend hopens
    · exact .skip (fun h => hreached.mp h hunmarked) (hrest bs)
    · exact .closes (hreached.mpr hunmarked) hend (hrest _)
    · exact .opens (hreached.mpr hunmarked) hopens (hrest _)
    · exact .stays (hreached.mpr hunmarked) hopens hend (hrest bs)

/-- The k-th instruction of the decode. -/
theorem inspected_of_decode (hv : MarksExact bf visited) (hdec : Decodes bf 0 is) (hi : is[k]? = some i)
    (hmarked : visited.getD (finish 0 (is.take k)) (-1) ≠ -1) : Inspected bf (finish 0 (is.take k)) := by
  obtain ⟨hk, rfl⟩ := List.getElem?_eq_some_iff.mp hi
  refine ⟨is.take k, is[k], is.drop (k + 1), ?_, rfl, (hv.reached_iff _).mpr hmarked⟩
  rw [← List.drop_eq_getElem_cons hk, List.take_append_drop]
  exact hdec

theorem encloses_of_decode (hv : MarksExact bf visited) (hdec : Decodes bf 0 is) (hi : is[k]? = some i)
    (hmarked : visited.getD (finish 0 (is.take k)) (-1) ≠ -1)
    (hopened : (opened visited 0 [] (is.take k)).head? = some b) : Encloses bf (finish 0 (is.take k)) b := by
  obtain ⟨hk, rfl⟩ := List.getElem?_eq_some_iff.mp hi
  obtain ⟨bs, hbs⟩ := List.head?_eq_some_iff.mp hopened
  refine ⟨is.take k, is[k], is.drop (k + 1), bs, ?_, rfl, (hv.reached_iff _).mpr hmarked, ?_⟩
  · rw [← List.drop_eq_getElem_cons hk, List.take_append_drop]
    exact hdec
  · rw [← hbs]
    exact opening_opened hv _ _ _

end Opened

/-! ### Arguments that were not passed -/

/-- `main` calls a function of one argument with none. -/
def arityFile : Bytefile := .ofMain 0
  [0x52, 0, 0, 0, 0, 0, 0, 0, 0, 0x56, 19, 0, 0, 0, 0, 0, 0, 0, 0x16,
    0x52, 1, 0, 0, 0, 0, 0, 0, 0, 0x22, 0, 0, 0, 0, 0x16, 0xFF]

def arityVerified : Bytefile := (arityFile.setCode16 3 1).setCode16 22 1

def arityMachine : Machine := Machine.layout arityVerified stackSize (by decide) stackSize_le

def arityEnv : Env arityMachine := Env.bump arityMachine fun k => BitVec.ofNat 64 (2 ^ 50 + 64 * k)

/-- The state of `arityFile` after `n` turns. -/
def arityState : ℕ → State
  | 0 => startState arityEnv
  | n + 1 => nextState arityEnv (arityState n)

/-- `main` captures its local variable 7 in a closure and calls it with a string. A call of the same
    function that is never executed is what the verifier sees of it. -/
def holdingFile : Bytefile := .ofMain 0
  [0x52, 0, 0, 0, 0, 1, 0, 0, 0, 0x10, 7, 0, 0, 0, 0x41, 0, 0, 0, 0, 0x51, 43, 0, 0, 0,
    0x10, 5, 0, 0, 0, 0x56, 68, 0, 0, 0, 1, 0, 0, 0, 0x15, 67, 0, 0, 0,
    0x54, 68, 0, 0, 0, 1, 0, 0, 0, 1, 0, 0, 0, 0, 0x11, 0, 0, 0, 0, 0x55, 1, 0, 0, 0, 0x16,
    0x53, 1, 0, 0, 0, 0, 0, 0, 0, 0x23, 0, 0, 0, 0, 0x22, 0, 0, 0, 0, 0x18, 0x16, 0xFF]

def holdingVerified : Bytefile := (holdingFile.setCode16 3 2).setCode16 71 2

def holdingMachine : Machine := Machine.layout holdingVerified stackSize (by decide) stackSize_le

def holdingEnv : Env holdingMachine := Env.bump holdingMachine fun k => BitVec.ofNat 64 (2 ^ 50 + 64 * k)

/-- The state of `holdingFile` after `n` turns. -/
def holdingState : ℕ → State
  | 0 => startState holdingEnv
  | n + 1 => nextState holdingEnv (holdingState n)

/-- The BEGINs executed by then. -/
def holdingBegun : ℕ → List (List ℤ)
  | 0 => [[]]
  | 1 | 2 | 3 | 4 | 5 | 6 => [[0]]
  | 7 => [[], [0]]
  | _ => [[68], [0]]

/-- The depths of `holdingFile`. -/
def holdingMarks : List ℤ :=
  [0, -1, -1, -1, -1, -1, -1, -1, -1, 0, -1, -1, -1, -1, 1, -1, -1, -1, -1, 1, -1, -1, -1, -1,
    0, -1, -1, -1, -1, 1, -1, -1, -1, -1, -1, -1, -1, -1, 1, -1, -1, -1, -1,
    0, -1, -1, -1, -1, -1, -1, -1, -1, -1, -1, -1, -1, -1, 1, -1, -1, -1, -1, 2, -1, -1, -1, -1, 1,
    0, -1, -1, -1, -1, -1, -1, -1, -1, 0, -1, -1, -1, -1, 1, -1, -1, -1, -1, 2, 1, -1]

/-- BEGIN 0 1; CONST 7; ST local 0; CJMPnz 43; CONST 5; CALL 68 1; JMP 67; CLOSURE 68 of local 0; STRING 0;
    CALLC 1; END; CBEGIN 1 0; LD captured 0; LD argument 0; DROP; END -/
def holdingInstructions : List Instruction :=
  [⟨0x52, [0, 1], [], opcode_known, two_operands, no_capture⟩,
    ⟨0x10, [7], [], opcode_known, one_operand, no_capture⟩,
    ⟨0x41, [0], [], opcode_known, one_operand, no_capture⟩,
    ⟨0x51, [43], [], opcode_known, one_operand, no_capture⟩,
    ⟨0x10, [5], [], opcode_known, one_operand, no_capture⟩,
    ⟨0x56, [68, 1], [], opcode_known, two_operands, no_capture⟩,
    ⟨0x15, [67], [], opcode_known, one_operand, no_capture⟩,
    ⟨0x54, [68, 1], [(1, 0)], opcode_known, two_operands, by decide⟩,
    ⟨0x11, [0], [], opcode_known, one_operand, no_capture⟩,
    ⟨0x55, [1], [], opcode_known, one_operand, no_capture⟩, endInstruction,
    ⟨0x53, [1, 0], [], opcode_known, two_operands, no_capture⟩,
    ⟨0x23, [0], [], opcode_known, one_operand, no_capture⟩,
    ⟨0x22, [0], [], opcode_known, one_operand, no_capture⟩,
    ⟨0x18, [], [], opcode_known, no_operand, no_capture⟩, endInstruction]

theorem decodes_holdingFile : Decodes holdingFile 0 holdingInstructions :=
  ⟨by decide +kernel, .inr ⟨by decide, by decide +kernel⟩⟩

theorem marks_holdingFile : MarksExact holdingFile holdingMarks := by
  have hmarks : collectMarks holdingFile = .ok holdingMarks := by decide +kernel
  exact collectMarksBy_ok List.Perm.refl hmarks

/-- The numbers of the instructions executed. -/
def holdingPath : List ℕ := [0, 1, 2, 3, 7, 8, 9, 11, 12]

/-- Each state is at an instruction the sweep comes to, and where it designates variables the BEGIN open
    there is one its activation has executed. -/
theorem looked_holdingFile : ∀ n < 9, Looked holdingFile holdingMachine (holdingState n, holdingBegun n) := by
  have hpath : ∀ n < 9, ∃ k ∈ holdingPath,
      (holdingState n).codePtr = finish 0 (holdingInstructions.take k) ∧
      holdingMarks.getD (finish 0 (holdingInstructions.take k)) (-1) ≠ -1 ∧
      ((n = 2 ∨ n = 4 ∨ n = 8) → ∃ b ∈ ([0, 68] : List ℕ), (b : ℤ) ∈ (holdingBegun n).headD [] ∧
        (opened holdingMarks 0 [] (holdingInstructions.take k)).head? = some b) := by decide +kernel
  have htypes : ∀ n < 9, ∃ type ∈ [InstructionType.begin, .const, .st, .cjmpnz, .closure, .string, .callc,
      .cbegin, .ld], At holdingMachine (holdingState n) type ∧
        (type ∈ [InstructionType.ld, .st, .lda, .closure] → n = 2 ∨ n = 4 ∨ n = 8) := by decide +kernel
  intro n hn
  obtain ⟨k, hk, hptr, hmarked, hopened⟩ := hpath n hn
  obtain ⟨type, -, hat, hnames⟩ := htypes n hn
  have hlt : ∀ k ∈ holdingPath, k < holdingInstructions.length := by decide
  obtain ⟨i, hi⟩ : ∃ i, holdingInstructions[k]? = some i := ⟨_, List.getElem?_eq_getElem (hlt k hk)⟩
  refine ⟨⟨_, hptr, inspected_of_decode marks_holdingFile decodes_holdingFile hi hmarked⟩, fun d hd => ?_⟩
  obtain ⟨type', htype', hmem⟩ := hd.type
  rw [← hat.unique htype'] at hmem
  obtain ⟨b, -, hb, hhead⟩ := hopened (hnames hmem)
  exact ⟨_, b, hptr, encloses_of_decode marks_holdingFile decodes_holdingFile hi hmarked hhead, hb⟩

theorem reached_holdingFile {o : ℕ} (hreached : Reached holdingFile o) :
    o < 90 ∧ holdingMarks.getD o (-1) ≠ -1 := by
  have hmarked := (marks_holdingFile.reached_iff o).mp hreached
  refine ⟨?_, hmarked⟩
  by_contra hge
  rw [List.getD_eq_getElem?_getD, List.getElem?_eq_none (by simpa [holdingMarks] using hge)] at hmarked
  exact hmarked rfl

/-- The one captured variable the code names is loaded at 77. -/
theorem captured_holdingFile {o : ℕ} {d : Designation} (hreached : Reached holdingFile o)
    (hd : Designates holdingVerified o d) (hvar : d.memVar = .closure) : o = 77 ∧ d.value = 0 := by
  obtain ⟨hlt, hmarked⟩ := reached_holdingFile hreached
  have hloads : ∀ o < 90, holdingMarks.getD o (-1) ≠ -1 → ∀ type ∈ [InstructionType.ld, .st, .lda],
      holdingVerified.typeAt o = .ok type → o = 77 ∧ holdingVerified.code32 ((o : ℤ) + 1) = .ok 0 ∨
        ∃ low ∈ ([0, 1, 2] : List ℕ), holdingVerified.lowBitsAt o = .ok low := by decide +kernel
  have hclosures : ∀ o < 90, holdingMarks.getD o (-1) ≠ -1 → holdingVerified.typeAt o = .ok .closure →
      holdingVerified.code32 ((o : ℤ) + 1 + 4) = .ok 1 ∧
        holdingVerified.designation ((o : ℤ) + 1 + 4 + 4) = .ok ⟨.local, 0⟩ := by decide +kernel
  cases hd with
  | @operand type low index htype haccess hlow hindex =>
    have hmem : type ∈ [InstructionType.ld, .st, .lda] := by rcases haccess with rfl | rfl | rfl <;> decide
    rcases hloads o hlt hmarked type hmem htype with ⟨ho, hzero⟩ | ⟨low', hlow', hlowbits⟩
    · exact ⟨ho, Except.ok.inj (hindex.symm.trans hzero)⟩
    · obtain rfl := Except.ok.inj (hlow.symm.trans hlowbits)
      simp only [List.mem_cons, List.not_mem_nil, or_false] at hlow'
      rcases hlow' with rfl | rfl | rfl <;> cases hvar
  | @capture n k _ htype hcount hk hdesignation =>
    obtain ⟨hone, hlocal⟩ := hclosures o hlt hmarked htype
    obtain rfl := Except.ok.inj (hcount.symm.trans hone)
    obtain rfl : k = 0 := by omega
    rw [show (o : ℤ) + 1 + 4 + 4 + 5 * ((0 : ℕ) : ℤ) = o + 1 + 4 + 4 by omega, hlocal] at hdesignation
    cases hdesignation
    cases hvar

theorem covered_holdingFile : ∀ n < 8, Covered holdingFile holdingMachine ((holdingState 0).fp + 3)
    (holdingState n, holdingBegun n) := by
  have hstates : ∀ n < 8, ∃ type ∈ [InstructionType.begin, .const, .st, .cjmpnz, .closure, .string, .callc,
      .cbegin], At holdingMachine (holdingState n) type ∧
        need holdingVerified (holdingState n).codePtr type (integerIndex (holdingState n)) ≤
          (holdingState n).operands ∧
        (type = .st → holdingVerified.lowBitsAt (holdingState n).codePtr = .ok 1) ∧
        (type = .begin → n = 0) ∧ (type = .cbegin → n = 7) := by decide +kernel
  have hbegins : ∀ n, n = 0 ∨ n = 7 → holdingFile.code32 ((holdingState n).codePtr + 1) =
      .ok (holdingState n).passed := by
    rintro n (rfl | rfl) <;> decide +kernel
  have hholds : (holdingState 7).captured.length = 1 ∧ (holdingState 0).codePtr = 0 ∧
      (holdingState 7).codePtr = 68 := by decide +kernel
  have hencloses : Encloses holdingFile 77 68 := encloses_of_decode (k := 12) marks_holdingFile
    decodes_holdingFile rfl (by decide) (by decide)
  intro n hn
  obtain ⟨type, hmem, hat, hop, hst, hbegin, hcbegin⟩ := hstates n hn
  have hopens : ∀ type', At holdingMachine (holdingState n) type' → OpensFunction type' → n = 0 ∨ n = 7 := by
    intro type' hat' hopens
    rw [← hat.unique hat'] at hopens
    exact hopens.imp hbegin hcbegin
  refine ⟨looked_holdingFile n (by omega), ?_, ?_, ?_, ?_, ?_⟩
  · intro type' hat'
    rw [← hat.unique hat']
    exact hop
  · intro type' hat' hassign
    rw [← hat.unique hat'] at hassign
    rcases hassign with rfl | rfl <;> exact absurd hmem (by decide)
  · intro index hat' hd
    have hlocal := hst (hat.unique hat')
    generalize hg : (⟨.global, index⟩ : Designation) = d at hd
    cases hd with
    | operand htype haccess hlow hindex =>
      obtain rfl := Except.ok.inj (hlow.symm.trans hlocal)
      cases hg
    | capture htype => cases hat'.symm.trans htype
  · intro type' hat' ho m hm
    cases hm.symm.trans (hbegins n (hopens type' hat' ho))
    exact Nat.le_refl _
  · intro type' hat' ho o b d hb henc hd hvar
    obtain ⟨pre, i, post, bs, hdec, hpre, hreached, hopening⟩ := henc
    obtain ⟨rfl, hzero⟩ := captured_holdingFile hreached hd hvar
    obtain rfl := hencloses.unique ⟨pre, i, post, bs, hdec, hpre, hreached, hopening⟩
    rcases hopens type' hat' ho with rfl | rfl
    · have := hholds.2.1
      dsimp only at hb
      omega
    · rw [hzero, hholds.1]
      exact Nat.zero_lt_one

theorem begins_holdingFile : ∀ n < 8, Begins holdingEnv (holdingState n, holdingBegun n)
    (holdingState (n + 1), holdingBegun (n + 1)) := by
  have hturns : ∀ n < 8, turnResult holdingEnv (holdingState n) = some false := by decide +kernel
  have htypes : ∀ n < 8, ∃ type ∈ [InstructionType.begin, .const, .st, .cjmpnz, .closure, .string, .callc,
      .cbegin], At holdingMachine (holdingState n) type ∧
        holdingBegun (n + 1) = begunAfter (holdingState n).codePtr type (holdingBegun n) := by decide +kernel
  intro n hn
  obtain ⟨type, -, hat, hbegun⟩ := htypes n hn
  refine ⟨turn_nextState holdingEnv (hturns n hn), fun type' hat' => ?_⟩
  rw [← hat.unique hat']
  exact hbegun

end LamaSM
