import LamaSM.Expressions
import LamaSM.StringPool

/-! What the pattern instructions decide about a value.

    Each of the six tests on the shape of a value gives its answer for every value. Comparison with a
    string literal and comparison with an integer constant do not: the first reads the value as if it
    were a string, the second widens the constant without its sign. -/

namespace LamaSM
open Lib

/-! ### Values and their shapes -/

inductive Shape
  | integer | string | array | sexp | closure
  deriving DecidableEq, Repr

def Obj.shape : Obj → Shape
  | .string _ => .string
  | .array _ => .array
  | .sexp _ _ => .sexp
  | .closure _ _ => .closure

/-- The word is a value of the language: a boxed integer, or the address of an object. -/
inductive IsValue (h : Heap) (w : Word) : Shape → Prop
  | integer (boxed : isBoxedInt w = true) (free : h w = none) : IsValue h w .integer
  | object {o : Obj} (even : isBoxedInt w = false) (present : h w = some o) : IsValue h w o.shape

/-- The shape a pattern asks for. -/
def Patt.decides : Patt → Shape → Bool
  | .string, v => v == .string
  | .array, v => v == .array
  | .sexp, v => v == .sexp
  | .closure, v => v == .closure
  | .boxed, v => v != .integer
  | .unBoxed, v => v == .integer
  | .strCmp, _ | .other _, _ => false

/-- The pattern is one of the six tests on the shape. -/
def Patt.isShape : Patt → Bool
  | .strCmp | .other _ => false
  | _ => true

/-! ### Code -/

/-- The low bits of a pattern. -/
def Patt.toByte : Patt → UInt8
  | .strCmp => 0x60 | .string => 0x61 | .array => 0x62 | .sexp => 0x63 | .boxed => 0x64
  | .unBoxed => 0x65 | .closure => 0x66 | .other _ => 0x67

theorem getInstructionType_patt (p : Patt) : getInstructionType p.toByte.toNat = .patt := by
  cases p
  case other => exact (show getInstructionType (0x67 : UInt8).toNat = .patt from rfl)
  all_goals rfl

/-- PATT p -/
def pattInstruction (p : Patt) : Instruction where
  opcode := p.toByte
  args := []
  captures := []
  known := by rw [getInstructionType_patt]; rfl
  args_length := by rw [getInstructionType_patt]; rfl
  captures_length := by rw [getInstructionType_patt]; rfl

/-- STRING n -/
def stringInstruction (n : UInt32) : Instruction := ⟨0x11, [n], [], opcode_known, one_operand, no_capture⟩

theorem type_pattInstruction (p : Patt) : (pattInstruction p).type = .patt :=
  getInstructionType_patt p

theorem type_stringInstruction (n : UInt32) : (stringInstruction n).type = .string :=
  (show getInstructionType (0x11 : UInt8).toNat = .string from rfl)

/-! ### Tests on the shape -/

section Tests

variable {M : Machine} (E : Env M) {s : State}

theorem tagPatt_eq {test : Obj → Bool} {asks : Shape} (hint : (Shape.integer == asks) = false)
    (htest : ∀ o, test o = (o.shape == asks)) {v : Word} {shape : Shape}
    (hv : IsValue s.heap v shape) : tagPatt test v s = .ok (boxBool (shape == asks)) s := by
  cases hv with
  | integer boxed free =>
    rw [tagPatt, if_pos boxed, hint]
    rfl
  | object even present =>
    rw [tagPatt, if_neg (by simp [even]), exec_bind_of_ok (getObj_eq present), htest]
    rfl

theorem BunboxedPatt_eq {v : Word} {shape : Shape} (hv : IsValue s.heap v shape) :
    BunboxedPatt v = boxBool (shape == .integer) := by
  cases hv with
  | integer boxed free => rw [BunboxedPatt, boxed]; rfl
  | object even present => rename_i o; rw [BunboxedPatt, even]; cases o <;> rfl

theorem BboxedPatt_eq {v : Word} {shape : Shape} (hv : IsValue s.heap v shape) :
    BboxedPatt v = boxBool (shape != .integer) := by
  cases hv with
  | integer boxed free => rw [BboxedPatt, boxed]; rfl
  | object even present => rename_i o; rw [BboxedPatt, even]; cases o <;> rfl

/-- `patt` looks at the operand, which stays, and replaces it by its answer. -/
theorem patt_eq {p : Patt} (known : p.isShape = true)
    (h : Placed M.bf s.codePtr (pattInstruction p).encode) {shape : Shape}
    (hv : IsValue s.heap (s.stack (s.top + 1)) shape)
    (htop : 0 ≤ s.top + 1 ∧ s.top + 1 < M.maxStack) :
    patt M s = (do
      popOp
      pushOp M (boxBool (p.decides shape)))
        { s with codePtr := s.codePtr + 1, touched := max s.touched (s.top + 1) } := by
  have hcode : M.bf.code s.codePtr = .ok p.toByte.toNat := h.1
  have hpeek := peekOp_eq (M := M) (s := { s with codePtr := s.codePtr + 1 }) htop
  rw [patt, exec_bind_of_ok (consumeLowerBits0_eq hcode)]
  cases p
  case strCmp | other => cases known
  case closure | array | string | sexp =>
    refine (exec_bind_of_ok hpeek).trans (exec_bind_of_ok (tagPatt_eq rfl (fun o => ?_) hv))
    cases o <;> rfl
  case boxed =>
    refine (exec_bind_of_ok hpeek).trans ?_
    rw [BboxedPatt_eq hv]
    rfl
  case unBoxed =>
    refine (exec_bind_of_ok hpeek).trans ?_
    rw [BunboxedPatt_eq hv]
    rfl

/-- An operand is replaced by the answer. -/
theorem popOp_pushOp (w : Word) (htop : 0 ≤ s.top + 1 ∧ s.top + 1 < M.maxStack) :
    (do
      popOp
      pushOp M w) s = .ok () { s with
        stack := Function.update s.stack (s.top + 1) w, touched := max s.touched (s.top + 1) } := by
  rw [exec_bind_of_ok popOp_eq, pushOp_eq w htop]
  dsimp only
  rw [Int.add_sub_cancel]

/-- What is left when the uppermost word has been replaced. -/
theorem evaluated_replaced (w : Word) (touched : ℤ) (length : ℕ) {f : ℤ → Word}
    (hbelow : ∀ i, s.top + 1 < i → f i = s.stack i) :
    Evaluated (s.pop 1) length w { s with
      codePtr := s.codePtr + length, touched := touched
      stack := Function.update f (s.top + 1) w } := by
  refine ⟨⟨Function.update f (s.top + 1) w, touched, ?_⟩, Function.update_self .., ?_⟩
  · dsimp only [State.pop]
    rw [show s.top + ((1 : ℕ) : ℤ) - 1 = s.top by omega]
  · intro i hi
    exact (Function.update_of_ne (ne_of_gt hi) ..).trans (hbelow i hi)

/-- A test on the shape replaces its operand by the answer. -/
def DecidesShape (E : Env M) (p : Patt) (s : State) (shape : Shape) : Prop :=
  ∃ s', Step E s s' ∧ Evaluated (s.pop 1) 1 (boxBool (p.decides shape)) s'

theorem at_patt {p : Patt} (h : Placed M.bf s.codePtr (pattInstruction p).encode) :
    At M s .patt := by
  have ht := Instruction.typeAt h
  rwa [type_pattInstruction] at ht

theorem decidesShape {p : Patt} (known : p.isShape = true)
    (h : Placed M.bf s.codePtr (pattInstruction p).encode) {shape : Shape}
    (hv : IsValue s.heap (s.stack (s.top + 1)) shape)
    (htop : 0 ≤ s.top + 1 ∧ s.top + 1 < M.maxStack) : DecidesShape E p s shape := by
  have hturn := turn_of_handler E (at_patt h) rfl ((patt_eq known h hv htop).trans (popOp_pushOp _ htop))
  exact ⟨_, hturn, evaluated_replaced _ _ 1 fun i _ => rfl⟩

end Tests

/-! ### String literals -/

/-- Two byte sequences differ at a place both have. -/
def Differ (as bs : List UInt8) : Prop :=
  ∃ (k : ℕ) (a b : UInt8), as[k]? = some a ∧ bs[k]? = some b ∧ a ≠ b

theorem differ_cons {a b : UInt8} {as bs : List UInt8} :
    Differ (a :: as) (b :: bs) ↔ a ≠ b ∨ Differ as bs := by
  constructor
  · rintro ⟨_ | k, x, y, hx, hy, hne⟩
    · simp only [List.getElem?_cons_zero, Option.some.injEq] at hx hy
      rw [← hx, ← hy] at hne
      exact .inl hne
    · exact .inr ⟨k, x, y, hx, hy, hne⟩
  · rintro (hne | ⟨k, x, y, hx, hy, hne⟩)
    · exact ⟨0, a, b, rfl, rfl, hne⟩
    · exact ⟨k + 1, x, y, hx, hy, hne⟩

/-- `strcmp` finds a C string different from what lies at an address when a byte differs. -/
theorem strcmpEq_false : ∀ {s bs : List UInt8}, 0 ∉ s →
    (strcmpEq (s ++ [0]) bs = some false ↔ Differ (s ++ [0]) bs)
  | s, [], _ => by
    have hnone : strcmpEq (s ++ [0]) [] = none := by cases s <;> rfl
    rw [hnone]
    refine ⟨fun h => (nomatch h), ?_⟩
    rintro ⟨k, a, b, -, hb, -⟩
    cases hb
  | [], b :: bs, _ => by
    have hnil : ¬ Differ [] bs := by
      rintro ⟨k, a, b, ha, -, -⟩
      cases ha
    rw [List.nil_append, differ_cons, strcmpEq, if_pos rfl]
    by_cases hb : 0 = b
    · rw [if_neg (by simp [hb])]
      simp [hb, hnil]
    · simp [hb]
  | c :: s, b :: bs, h => by
    have hc : c ≠ 0 := fun hc => h (hc ▸ List.mem_cons_self)
    rw [List.cons_append, differ_cons, strcmpEq]
    split_ifs with hb
    · simp [hb]
    · rw [strcmpEq_false fun hm => h (List.mem_cons_of_mem c hm)]
      simp [hb]

/-- `strcmp` finds it equal to itself. -/
theorem strcmpEq_self : ∀ {s : List UInt8}, 0 ∉ s → strcmpEq (s ++ [0]) (s ++ [0]) = some true
  | [], _ => rfl
  | c :: s, h => by
    have hc : c ≠ 0 := fun hc => h (hc ▸ List.mem_cons_self)
    rw [List.cons_append, strcmpEq, if_neg (fun hne => hne rfl), if_neg hc]
    exact strcmpEq_self fun hm => h (List.mem_cons_of_mem c hm)

/-- `get_string_ptr` finds the literal with these characters under the offset `n`. -/
structure Literal (M : Machine) (s : State) (n : ℕ) (chars : List UInt8) (ptr : Word) : Prop where
  found : getStringPtr M n s = .ok ptr s
  even : isBoxedInt ptr = false
  object : s.heap ptr = some (cStringObj chars)
  ended : 0 ∉ chars

section Literals

variable {M : Machine} (E : Env M) {s : State} {n : ℕ} {chars : List UInt8} {ptr : Word}

/-- The search does not depend on where the program is. -/
theorem getStringPtr_move (h : getStringPtr M n s = .ok ptr s) (o : ℤ) :
    getStringPtr M n { s with codePtr := o } = .ok ptr { s with codePtr := o } := by
  rw [getStringPtr, exec_get_bind] at h ⊢
  dsimp only
  cases hj : s.stringsMap.lookup n with
  | some j =>
    rw [hj] at h
    dsimp only [readSlot] at h ⊢
    split_ifs at h ⊢
    cases h
    rfl
  | none =>
    rw [hj] at h
    dsimp only at h
    rw [exec_modify_bind, readSlot] at h
    split_ifs at h
    have hmap := congrArg State.stringsMap (EStateM.Result.ok.inj h).2
    exact absurd hmap (List.cons_ne_self _ _)

/-- STRING pushes the literal. -/
theorem string_turn {n : UInt32} (hlit : Literal M s n.toNat chars ptr)
    (h : Placed M.bf s.codePtr (stringInstruction n).encode) (htop : 0 ≤ s.top ∧ s.top < M.maxStack) :
    turn E s = .ok false { s with
      codePtr := s.codePtr + 5, top := s.top - 1, stack := Function.update s.stack s.top ptr } := by
  have hn : M.bf.code32 (s.codePtr + 1) = .ok n.toNat := by
    have hk := Instruction.operand h (k := 0) (w := n) rfl
    simpa using hk
  have hat : At M s .string := by
    have ht := Instruction.typeAt h
    rwa [type_stringInstruction] at ht
  refine turn_of_handler E hat rfl ?_
  rw [boxingString, exec_bind_of_ok (consumeArgs1_eq hn),
    exec_bind_of_ok (getStringPtr_move hlit.found _)]
  exact pushOp_eq _ htop

/-- `patt` takes the literal off and compares it with the operand below. -/
theorem patt_strCmp_eq (h : Placed M.bf s.codePtr (pattInstruction .strCmp).encode)
    (htop : 0 ≤ s.top + 1 ∧ s.top + 2 < M.maxStack) :
    patt M s = (do
      let isPatt ← BstringPatt (s.stack (s.top + 1)) (s.stack (s.top + 2))
      popOp
      pushOp M isPatt) { s with
        codePtr := s.codePtr + 1, top := s.top + 1
        touched := max (max s.touched (s.top + 1)) (s.top + 2) } := by
  have hcode : M.bf.code s.codePtr = .ok Patt.strCmp.toByte.toNat := h.1
  have hsum : s.top + 1 + 1 = s.top + 2 := by omega
  rw [patt, exec_bind_of_ok (consumeLowerBits0_eq hcode)]
  refine (peekOp_popOp (by dsimp only; omega)).trans ?_
  rw [exec_bind_of_ok (peekOp_eq (by dsimp only; omega))]
  dsimp only
  rw [hsum]

theorem BstringPatt_object {v : Word} {o : Obj} (heven : isBoxedInt ptr = false)
    (hlit : s.heap ptr = some (cStringObj chars)) (hv : s.heap v = some o) :
    BstringPatt ptr v s = match strcmpEq (chars ++ [0]) o.bytes with
      | some b => .ok (boxBool b) s
      | none => .error (.undefined (.object v.toNat)) s := by
  rw [BstringPatt, if_neg (by simp [heven]), exec_bind_of_ok (getObj_eq hlit), cStringObj]
  dsimp only
  rw [exec_bind_of_ok (getObj_eq hv)]
  cases strcmpEq (chars ++ [0]) o.bytes <;> rfl

/-- An integer is used as an address. -/
theorem BstringPatt_integer {v : Word} (heven : isBoxedInt ptr = false)
    (hlit : s.heap ptr = some (cStringObj chars)) (hv : s.heap v = none) :
    BstringPatt ptr v s = .error (.undefined (.object v.toNat)) s := by
  have hobj : getObj v s = .error (.undefined (.object v.toNat)) s := by rw [getObj, hv]
  rw [BstringPatt, if_neg (by simp [heven]), exec_bind_of_ok (getObj_eq hlit), cStringObj]
  dsimp only
  rw [exec_bind_of_error hobj]

theorem boxBool_inj {a b : Bool} (h : boxBool a = boxBool b) : a = b := by
  cases a <;> cases b <;> first | rfl | exact absurd h (by decide)

/-- A literal that is pushed and compared replaces the value by whether it is a string with these
    characters. -/
def DecidesString (E : Env M) (chars : List UInt8) (s : State) : Prop :=
  ∃ t s', Step E s t ∧ Step E t s' ∧ Evaluated (s.pop 1) 6
    (boxBool (s.heap (s.stack (s.top + 1)) = some (cStringObj chars))) s'

/-- The value is an object, with the characters of the literal or with bytes that differ from them. -/
def Comparable (h : Heap) (v : Word) (chars : List UInt8) : Prop :=
  ∃ o, h v = some o ∧ (o = cStringObj chars ∨ Differ (chars ++ [0]) o.bytes)

/-- The answer `strcmp` gives about an object is right when the object is comparable. -/
theorem strcmpEq_right {o : Obj} (hended : 0 ∉ chars) :
    strcmpEq (chars ++ [0]) o.bytes = some (decide (o = cStringObj chars)) ↔
      o = cStringObj chars ∨ Differ (chars ++ [0]) o.bytes := by
  by_cases ho : o = cStringObj chars
  · simp only [ho, decide_true, true_or, iff_true]
    exact strcmpEq_self hended
  · simp only [ho, decide_false, false_or]
    exact strcmpEq_false hended

/-- The state behind STRING. -/
def literalState (s : State) (ptr : Word) : State := { s with
  codePtr := s.codePtr + 5, top := s.top - 1, stack := Function.update s.stack s.top ptr }

/-- The state in which literal and value are compared. -/
def comparingState (s : State) (ptr : Word) : State := { s with
  codePtr := s.codePtr + 6, stack := Function.update s.stack s.top ptr
  touched := max (max s.touched s.top) (s.top + 1) }

theorem step_literalState (ptr : Word) (s' : State)
    (hpatt : Placed M.bf (s.codePtr + 5) (pattInstruction .strCmp).encode)
    (htop : 0 ≤ s.top ∧ s.top + 1 < M.maxStack) :
    Step E (literalState s ptr) s' ↔ (do
      let isPatt ← BstringPatt ptr (s.stack (s.top + 1))
      popOp
      pushOp M isPatt) (comparingState s ptr) = .ok () s' := by
  have hone : s.top - 1 + 1 = s.top := by omega
  have htwo : s.top - 1 + 2 = s.top + 1 := by omega
  have hne : s.top + 1 ≠ s.top := by omega
  have hcode : s.codePtr + 5 + 1 = s.codePtr + 6 := by omega
  have hhandler := patt_strCmp_eq (s := literalState s ptr) hpatt
    (by show 0 ≤ s.top - 1 + 1 ∧ s.top - 1 + 2 < M.maxStack; omega)
  dsimp only [literalState] at hhandler
  rw [hone, htwo, Function.update_self, Function.update_of_ne hne, hcode] at hhandler
  rw [step_iff E (at_patt hpatt) rfl, comparingState, ← hhandler]
  rfl

/-- The two instructions leave an answer about an object exactly when `strcmp` gives it. -/
theorem strCmp_answer {n : UInt32} (hlit : Literal M s n.toNat chars ptr)
    (h : Placed M.bf s.codePtr
      ((stringInstruction n).encode ++ (pattInstruction .strCmp).encode)) {o : Obj}
    (hv : s.heap (s.stack (s.top + 1)) = some o) (htop : 0 ≤ s.top ∧ s.top + 1 < M.maxStack)
    {d : Bool} :
    (∃ t s', Step E s t ∧ Step E t s' ∧ Evaluated (s.pop 1) 6 (boxBool d) s') ↔
      strcmpEq (chars ++ [0]) o.bytes = some d := by
  rw [placed_append] at h
  obtain ⟨hstring, hpatt⟩ := h
  have hstep : turn E s = .ok false (literalState s ptr) :=
    string_turn E hlit hstring ⟨htop.1, by omega⟩
  have hanswer (s' : State) := step_literalState E ptr s' hpatt htop
  have hstrcmp : BstringPatt ptr (s.stack (s.top + 1)) (comparingState s ptr) = _ :=
    BstringPatt_object hlit.even hlit.object hv
  cases hb : strcmpEq (chars ++ [0]) o.bytes with
  | none =>
    rw [hb] at hstrcmp
    refine ⟨?_, fun h => (nomatch h)⟩
    rintro ⟨t, s', ht, hs', -⟩
    rw [Step, hstep] at ht
    cases ht
    rw [hanswer, exec_bind_of_error hstrcmp] at hs'
    cases hs'
  | some b =>
    rw [hb] at hstrcmp
    have hpush := popOp_pushOp (M := M) (s := comparingState s ptr) (boxBool b)
      (by show 0 ≤ s.top + 1 ∧ s.top + 1 < M.maxStack; omega)
    have hvalue := evaluated_replaced (s := s) (boxBool b)
      (max (max (max s.touched s.top) (s.top + 1)) (s.top + 1)) 6
      (f := Function.update s.stack s.top ptr) fun i hi => Function.update_of_ne (by omega) ..
    constructor
    · rintro ⟨t, s', ht, hs', hvalue'⟩
      rw [Step, hstep] at ht
      cases ht
      rw [hanswer, exec_bind_of_ok hstrcmp, hpush] at hs'
      cases hs'
      have heq := hvalue.value.symm.trans hvalue'.value
      rw [boxBool_inj heq]
    · rintro hd
      cases hd
      refine ⟨_, _, hstep, ?_, hvalue⟩
      rw [hanswer, exec_bind_of_ok hstrcmp, hpush]
      rfl

theorem decidesString_iff {n : UInt32} (hlit : Literal M s n.toNat chars ptr)
    (h : Placed M.bf s.codePtr
      ((stringInstruction n).encode ++ (pattInstruction .strCmp).encode)) {shape : Shape}
    (hv : IsValue s.heap (s.stack (s.top + 1)) shape) (htop : 0 ≤ s.top ∧ s.top + 1 < M.maxStack) :
    DecidesString E chars s ↔ Comparable s.heap (s.stack (s.top + 1)) chars := by
  cases hv with
  | integer boxed free =>
    have hnone : BstringPatt ptr (s.stack (s.top + 1)) (comparingState s ptr) = _ :=
      BstringPatt_integer hlit.even hlit.object free
    constructor
    · rintro ⟨t, s', ht, hs', -⟩
      rw [placed_append] at h
      rw [Step, string_turn E hlit h.1 ⟨htop.1, by omega⟩] at ht
      cases ht
      rw [← literalState, step_literalState E ptr s' h.2 htop, exec_bind_of_error hnone] at hs'
      cases hs'
    · rintro ⟨o, ho, -⟩
      rw [free] at ho
      cases ho
  | object even present =>
    rename_i o
    rw [DecidesString, Comparable, strCmp_answer E hlit h present htop, present]
    simp only [Option.some.injEq, exists_eq_left']
    exact strcmpEq_right hlit.ended

end Literals

/-! ### Integer constants -/

section Constants

variable {M : Machine} (E : Env M) {s : State} {c : ℤ}

/-- The operand of CONST for a signed constant. -/
def constOperand (c : ℤ) : UInt32 := UInt32.ofNat (toU32 c)

/-- A constant that is pushed and compared by `==` replaces the value by whether it is that integer. -/
def DecidesConstant (E : Env M) (c : ℤ) (s : State) : Prop :=
  ∃ t s', Step E s t ∧ Step E t s' ∧
    Evaluated (s.pop 1) 6 (boxBool (s.stack (s.top + 1) = boxInt c)) s'

/-- `==` leaves whether the two words are equal. -/
theorem eq_turn {v w : Word} (h : Placed M.bf s.codePtr (binopInstruction .eq).encode)
    (hv : s.stack (s.top + 2) = v) (hw : s.stack (s.top + 1) = w)
    (htop : 0 ≤ s.top + 1 ∧ s.top + 2 < M.maxStack) :
    Step E s { s with
      codePtr := s.codePtr + 1, top := s.top + 1
      stack := Function.update s.stack (s.top + 2) (boxBool (v = w))
      touched := max (max s.touched (s.top + 1)) (s.top + 2) } := by
  have hboxed : boxed M .eq { s with codePtr := s.codePtr + 1 } = _ := boxed_eq htop
  have hbool : boxInt (binOpMap .eq v.toInt w.toInt) = boxBool (v = w) := by
    simp only [binOpMap, ofBool, boxBool, BitVec.toInt_inj]
  dsimp only at hboxed
  rw [hv, hw, hbool] at hboxed
  rw [step_iff E (at_binop h) rfl, binopInterpreter_eq rfl h]
  exact hboxed

/-- CONST and `==` leave whether the value is the unsigned reading of the constant, and nothing
    else. -/
theorem constant_answer (h : Placed M.bf s.codePtr
      ((constInstruction (constOperand c)).encode ++ (binopInstruction .eq).encode))
    (htop : 0 ≤ s.top ∧ s.top + 1 < M.maxStack) {w : Word} :
    (∃ t s', Step E s t ∧ Step E t s' ∧ Evaluated (s.pop 1) 6 w s') ↔
      w = boxBool (s.stack (s.top + 1) = boxInt (toU32 c)) := by
  rw [placed_append] at h
  obtain ⟨hconst, heq⟩ := h
  have hturn := const_turn E hconst ⟨htop.1, by omega⟩
  rw [constOperand, UInt32.toNat_ofNat_of_lt' (toU32_lt c)] at hturn
  have hone : s.top - 1 + 1 = s.top := by omega
  have htwo : s.top - 1 + 2 = s.top + 1 := by omega
  have hlast := eq_turn E (s := { s with
    codePtr := s.codePtr + 5, top := s.top - 1
    stack := Function.update s.stack s.top (boxInt (toU32 c)) }) heq
    (show Function.update s.stack s.top _ (s.top - 1 + 2) = s.stack (s.top + 1) by
      rw [htwo, Function.update_of_ne (by omega)])
    (show Function.update s.stack s.top _ (s.top - 1 + 1) = boxInt (toU32 c) by
      rw [hone, Function.update_self])
    (by dsimp only; omega)
  dsimp only at hlast
  rw [hone, htwo] at hlast
  have hvalue := evaluated_replaced (s := s)
    (boxBool (s.stack (s.top + 1) = boxInt (toU32 c))) (max (max s.touched s.top) (s.top + 1)) 6
    (f := Function.update s.stack s.top (boxInt (toU32 c)))
    fun i hi => Function.update_of_ne (by omega) ..
  have hcode : s.codePtr + 5 + 1 = s.codePtr + 6 := by omega
  rw [hcode] at hlast
  constructor
  · rintro ⟨t, s', ht, hs', hw⟩
    rw [Step, hturn] at ht
    cases ht
    rw [Step, hlast] at hs'
    cases hs'
    exact hw.value.symm.trans hvalue.value
  · rintro rfl
    exact ⟨_, _, hturn, hlast, hvalue⟩

theorem toU32_signed (h0 : -2 ^ 31 ≤ c) (h1 : c < 2 ^ 31) :
    (toU32 c : ℤ) = if 0 ≤ c then c else c + 2 ^ 32 := by
  unfold toU32
  split <;> omega

/-- The answer is right for a constant that is not negative, and for a value that is neither the
    constant nor its unsigned reading. -/
theorem decidesConstant_iff (h : Placed M.bf s.codePtr
      ((constInstruction (constOperand c)).encode ++ (binopInstruction .eq).encode))
    (hc : -2 ^ 31 ≤ c ∧ c < 2 ^ 31) (htop : 0 ≤ s.top ∧ s.top + 1 < M.maxStack) :
    DecidesConstant E c s ↔ 0 ≤ c ∨
      s.stack (s.top + 1) ≠ boxInt c ∧ s.stack (s.top + 1) ≠ boxInt (c + 2 ^ 32) := by
  rw [DecidesConstant, constant_answer E h htop, toU32_signed hc.1 hc.2]
  by_cases hneg : 0 ≤ c
  · simp only [hneg, if_true, true_or]
  · have hfar : boxInt c ≠ boxInt (c + 2 ^ 32) := by
      rw [Ne, boxInt_eq_iff, reduce63_of_fits ⟨by omega, by omega⟩,
        reduce63_of_fits ⟨by omega, by omega⟩]
      omega
    simp only [hneg, if_false, false_or]
    constructor
    · intro heq
      have hiff := decide_eq_decide.mp (boxBool_inj heq)
      constructor
      · intro hv
        exact hfar (hv.symm.trans (hiff.mp hv))
      · intro hv
        exact hfar ((hiff.mpr hv).symm.trans hv)
    · rintro ⟨hne, hne'⟩
      rw [decide_eq_false hne, decide_eq_false hne']

end Constants

/-- For a value on top of the operands: each test on the shape decides it; the comparison with a
    literal decides an object that is comparable, and nothing else; the comparison with a constant is
    right for a constant that is not negative, and for a value that is neither the constant nor its
    unsigned reading. -/
theorem patterns_decide {M : Machine} (E : Env M) {s : State} {shape : Shape}
    (hv : IsValue s.heap (s.stack (s.top + 1)) shape)
    (htop : 0 ≤ s.top + 1 ∧ s.top + 1 < M.maxStack) :
    (∀ p : Patt, p.isShape = true → Placed M.bf s.codePtr (pattInstruction p).encode →
      DecidesShape E p s shape) ∧
    (0 ≤ s.top → ∀ (n : UInt32) (chars : List UInt8) (ptr : Word), Literal M s n.toNat chars ptr →
      Placed M.bf s.codePtr ((stringInstruction n).encode ++ (pattInstruction .strCmp).encode) →
      (DecidesString E chars s ↔ Comparable s.heap (s.stack (s.top + 1)) chars)) ∧
    (0 ≤ s.top → ∀ c : ℤ, -2 ^ 31 ≤ c → c < 2 ^ 31 →
      Placed M.bf s.codePtr
        ((constInstruction (constOperand c)).encode ++ (binopInstruction .eq).encode) →
      (DecidesConstant E c s ↔ 0 ≤ c ∨
        s.stack (s.top + 1) ≠ boxInt c ∧ s.stack (s.top + 1) ≠ boxInt (c + 2 ^ 32))) := by
  refine ⟨fun p known h => decidesShape E known h hv htop, fun h0 n chars ptr hlit h => ?_,
    fun h0 c hlo hhi h => ?_⟩
  · exact decidesString_iff E hlit h hv ⟨h0, htop.2⟩
  · exact decidesConstant_iff E h ⟨hlo, hhi⟩ ⟨h0, htop.2⟩

/-! ### A file with the three kinds of patterns -/

/-- `main` makes -1, compares it with the constant -1, asks whether the answer is unboxed, and
    compares that answer with the string `main`. -/
def patternFile : Bytefile := .ofMain 0
  [0x52, 0, 0, 0, 0, 0, 0, 0, 0, 0x10, 0, 0, 0, 0, 0x10, 1, 0, 0, 0, 0x02,
    0x10, 0xFF, 0xFF, 0xFF, 0xFF, 0x0A, 0x65, 0x11, 0, 0, 0, 0, 0x60, 0x16, 0xFF]

def patternVerified : Bytefile :=
  patternFile.withBytes (patternFile.bytes.set 28 2)

def patternMachine : Machine := Machine.layout patternVerified stackSize (by decide) stackSize_le

def patternEnv : Env patternMachine :=
  Env.bump patternMachine fun k => BitVec.ofNat 64 (2 ^ 50 + 64 * k)

/-- The state of `patternFile` after `n` turns. -/
def patternState : ℕ → State
  | 0 => startState patternEnv
  | n + 1 => nextState patternEnv (patternState n)

example : verify 20 patternFile = .ok patternVerified := by decide

theorem placed_patternFile :
    Placed patternMachine.bf 20
      ((constInstruction (constOperand (-1))).encode ++ (binopInstruction .eq).encode) ∧
    Placed patternMachine.bf 26 (pattInstruction .unBoxed).encode ∧
    Placed patternMachine.bf 27
      ((stringInstruction 0).encode ++ (pattInstruction .strCmp).encode) := by
  simp [constInstruction, constOperand, binopInstruction, pattInstruction, stringInstruction,
    Instruction.encode, operandBytes, BinOp.toByte, Patt.toByte, Placed, toU32]
  decide

/-- What a turn of `patternFile` finds. -/
structure Meets (n : ℕ) (offset v : ℤ) : Prop where
  codePtr : (patternState n).codePtr = offset
  value : (patternState n).stack ((patternState n).top + 1) = boxInt v
  free : (patternState n).heap (boxInt v) = none
  room : 0 ≤ (patternState n).top ∧ (patternState n).top + 1 < patternMachine.maxStack

theorem meets_4 : Meets 4 20 (-1) := by constructor <;> decide +kernel

theorem meets_6 : Meets 6 26 0 := by constructor <;> decide +kernel

theorem meets_7 : Meets 7 27 1 := by constructor <;> decide +kernel

theorem Meets.isValue {n : ℕ} {offset v : ℤ} (h : Meets n offset v) :
    IsValue (patternState n).heap ((patternState n).stack ((patternState n).top + 1)) .integer := by
  rw [h.value]
  exact .integer (isBoxedInt_boxInt v) h.free

/-- The string of `patternFile`. -/
theorem literal_patternFile : Literal patternMachine (patternState 7) (0 : UInt32).toNat
    [109, 97, 105, 110] (BitVec.ofNat 64 (2 ^ 50)) where
  found := by
    have hlookup : (patternState 7).stringsMap.lookup (0 : UInt32).toNat = some 0 := by decide +kernel
    have hslot : (patternState 7).stack (patternMachine.maxStack - (0 : ℕ) - 1) =
        BitVec.ofNat 64 (2 ^ 50) := by decide +kernel
    rw [getStringPtr, exec_get_bind, hlookup, ← hslot]
    exact readSlot_eq (by decide +kernel)
  even := by decide
  object := by decide +kernel
  ended := by decide

/-- The integer -1 is not found equal to the constant -1, and comparing an integer with a string
    reads from an address that is none. -/
theorem patternFile_undecided :
    ¬ DecidesConstant patternEnv (-1) (patternState 4) ∧
    ¬ DecidesString patternEnv [109, 97, 105, 110] (patternState 7) := by
  have hplaced := placed_patternFile
  rw [← meets_4.codePtr, ← meets_7.codePtr] at hplaced
  constructor
  · rw [decidesConstant_iff patternEnv hplaced.1 (by decide) meets_4.room, meets_4.value]
    decide
  · rw [decidesString_iff patternEnv literal_patternFile hplaced.2.2 meets_7.isValue meets_7.room,
      meets_7.value]
    rintro ⟨o, ho, -⟩
    rw [meets_7.free] at ho
    cases ho

theorem patterns_decide_patternFile :
    DecidesShape patternEnv .unBoxed (patternState 6) .integer ∧
    (DecidesString patternEnv [109, 97, 105, 110] (patternState 7) ↔
      Comparable (patternState 7).heap ((patternState 7).stack ((patternState 7).top + 1))
        [109, 97, 105, 110]) ∧
    (DecidesConstant patternEnv (-1) (patternState 4) ↔ 0 ≤ (-1 : ℤ) ∨
      (patternState 4).stack ((patternState 4).top + 1) ≠ boxInt (-1) ∧
        (patternState 4).stack ((patternState 4).top + 1) ≠ boxInt (-1 + 2 ^ 32)) := by
  have hplaced := placed_patternFile
  rw [← meets_4.codePtr, ← meets_6.codePtr, ← meets_7.codePtr] at hplaced
  have hroom {n : ℕ} {offset v : ℤ} (h : Meets n offset v) : 0 ≤ (patternState n).top + 1 ∧
      (patternState n).top + 1 < patternMachine.maxStack := ⟨by have h0 := h.room.1; omega, h.room.2⟩
  refine ⟨?_, ?_, ?_⟩
  · exact (patterns_decide patternEnv meets_6.isValue (hroom meets_6)).1 .unBoxed rfl hplaced.2.1
  · exact (patterns_decide patternEnv meets_7.isValue (hroom meets_7)).2.1 meets_7.room.1 0 _ _
      literal_patternFile hplaced.2.2
  · exact (patterns_decide patternEnv meets_4.isValue (hroom meets_4)).2.2 meets_4.room.1 (-1) (by decide)
      (by decide) hplaced.1

end LamaSM
