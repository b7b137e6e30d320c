import LamaSM.Allocation
import LamaSM.ExtraRoots
import LamaSM.Patterns

/-! Arrays and s-expressions: made of the words on top of the stack, read and written by ELEM and STA,
    measured by CALL_LENGTH, recognised by ARRAY and TAG.

    Both constructors keep the order in which the words were pushed, `call_array` by reversing them on
    the stack, `Bsexp` by storing them last to first. ARRAY hands its number to `Barray_patt` as an
    `int`, so it does not see the upper bits. -/

namespace LamaSM
open Lib

/-! ### Tags -/

section Tags

/-- The loop reads six bits a character. -/
theorem tagHashLoop_lt : ∀ {cs : List UInt8} {h v k : ℕ}, h < 64 ^ k → tagHashLoop cs h = .ok v →
    v < 64 ^ (k + cs.length)
  | [], h, v, k, hlt, hv => by
    cases hv
    exact hlt
  | c :: cs, h, v, k, hlt, hv => by
    rw [tagHashLoop] at hv
    cases hpos : chars.idxOf? c with
    | none =>
      rw [hpos] at hv
      cases hv
    | some pos =>
      rw [hpos] at hv
      have hlen : pos < chars.length := by
        obtain ⟨hlt, -⟩ := List.idxOf?_eq_some_iff.mp hpos
        exact hlt
      have hchars : chars.length = 64 := rfl
      have hstep : h * 64 + pos < 64 ^ (k + 1) := by
        rw [Nat.pow_succ]
        omega
      have hrest := tagHashLoop_lt hstep hv
      rwa [show k + 1 + cs.length = k + (c :: cs).length by rw [List.length_cons]; omega] at hrest

/-- An accepted name of at most ten characters is what `de_hash` makes of its hash. -/
theorem tagHash_ok {name : List UInt8} {w : Word} (hlen : name.length ≤ maxSexpTaglen)
    (h : tagHash name = .ok w) :
    ∃ v : ℕ, w = boxInt v ∧ v < 2 ^ 60 ∧ deHash maxSexpTaglen v [] = name := by
  rw [tagHash, List.take_of_length_le hlen] at h
  obtain ⟨v, hv, h⟩ := except_bind_ok.mp h
  split_ifs at h with hname
  · rw [except_pure_ok] at h
    refine ⟨v, h.symm, ?_, (not_ne_iff.mp hname).symm⟩
    have hlt := tagHashLoop_lt (k := 0) (by decide) hv
    rw [Nat.zero_add] at hlt
    calc v < 64 ^ name.length := hlt
      _ ≤ 64 ^ maxSexpTaglen := Nat.pow_le_pow_right (by decide) hlen
      _ = 2 ^ 60 := by decide

/-- The tag `Bsexp` stores for a name. -/
def tagWord (name : List UInt8) : Word :=
  match tagHash name with
  | .ok w => BitVec.ofInt 64 (unbox w)
  | .error _ => 0

/-- The name is one `LtagHash` accepts, and no character of it is dropped. -/
def TagName (name : List UInt8) : Prop := name.length ≤ maxSexpTaglen ∧ ∃ w, tagHash name = .ok w

theorem tagWord_eq {name : List UInt8} {w : Word} (h : tagHash name = .ok w) :
    tagWord name = BitVec.ofInt 64 (unbox w) := by
  rw [tagWord, h]

/-- Different names have different tags. -/
theorem tagWord_inj {name name' : List UInt8} (h : TagName name) (h' : TagName name') :
    tagWord name = tagWord name' ↔ name = name' := by
  obtain ⟨hlen, w, hw⟩ := h
  obtain ⟨hlen', w', hw'⟩ := h'
  refine ⟨fun heq => ?_, fun heq => by rw [heq]⟩
  obtain ⟨v, rfl, hlt, hname⟩ := tagHash_ok hlen hw
  obtain ⟨v', rfl, hlt', hname'⟩ := tagHash_ok hlen' hw'
  have hv : v = v' := by
    rw [tagWord_eq hw, tagWord_eq hw', unbox_boxInt (by omega) (by omega),
      unbox_boxInt (by omega) (by omega)] at heq
    have hnat := congrArg BitVec.toNat heq
    rw [BitVec.toNat_ofInt, BitVec.toNat_ofInt] at hnat
    omega
  rw [← hname, ← hname', hv]

end Tags

/-! ### Instructions -/

/-- CALL_ARRAY n -/
def callArrayInstruction (n : UInt32) : Instruction := ⟨0x74, [n], [], opcode_known, one_operand, no_capture⟩

/-- SEXP t n -/
def sexpInstruction (t n : UInt32) : Instruction := ⟨0x12, [t, n], [], opcode_known, two_operands, no_capture⟩

/-- CALL_LENGTH -/
def callLengthInstruction : Instruction := ⟨0x72, [], [], opcode_known, no_operand, no_capture⟩

/-- ELEM -/
def elemInstruction : Instruction := ⟨0x1B, [], [], opcode_known, no_operand, no_capture⟩

/-- STA -/
def staInstruction : Instruction := ⟨0x14, [], [], opcode_known, no_operand, no_capture⟩

/-- ARRAY m -/
def arrayInstruction (m : UInt32) : Instruction := ⟨0x58, [m], [], opcode_known, one_operand, no_capture⟩

/-- TAG t m -/
def tagInstruction (t m : UInt32) : Instruction := ⟨0x57, [t, m], [], opcode_known, two_operands, no_capture⟩

theorem type_callArrayInstruction (n : UInt32) : (callArrayInstruction n).type = .callArray :=
  (show getInstructionType (0x74 : UInt8).toNat = .callArray from rfl)

theorem type_sexpInstruction (t n : UInt32) : (sexpInstruction t n).type = .sexp :=
  (show getInstructionType (0x12 : UInt8).toNat = .sexp from rfl)

theorem type_arrayInstruction (m : UInt32) : (arrayInstruction m).type = .array :=
  (show getInstructionType (0x58 : UInt8).toNat = .array from rfl)

theorem type_tagInstruction (t m : UInt32) : (tagInstruction t m).type = .tag :=
  (show getInstructionType (0x57 : UInt8).toNat = .tag from rfl)

/-! ### Construction -/

/-- The kind of an object that CALL_ARRAY or SEXP makes, with the name SEXP gives it. -/
inductive Aggregate
  | array
  | sexp (name : List UInt8)

/-- The object with these elements. -/
def Aggregate.object : Aggregate → List Word → Obj
  | .array, elems => .array elems
  | .sexp name, elems => .sexp (tagWord name) elems

/-- The uppermost `n` words in the order in which they were pushed. -/
def operands (s : State) (n : ℕ) : List Word := (List.range n).map fun k : ℕ => s.stack (s.top + n - k)

section Construction

variable {M : Machine} {E : Env M} {s : State} {n : ℕ}

@[simp] theorem length_operands (s : State) (n : ℕ) : (operands s n).length = n := by
  simp [operands]

/-- The words of a range, last to first. -/
def reversed (f : ℤ → Word) (a : ℤ) (n : ℕ) (i : ℤ) : Word :=
  if a ≤ i ∧ i < a + n then f (2 * a + n - 1 - i) else f i

theorem reverseSlots_eq {a : ℤ} (h : 0 ≤ a ∧ a + n ≤ M.maxStack) :
    reverseSlots M a n s = .ok () { s with stack := reversed s.stack a n } := by
  rw [reverseSlots]
  split_ifs with hone hlow hhigh
  · have hsame : reversed s.stack a n = s.stack := by
      funext i
      rw [reversed]
      split_ifs with hi
      · rw [show 2 * a + n - 1 - i = i by omega]
      · rfl
    rw [hsame]
  · omega
  · omega
  · rfl

/-- The operands are read last to first. -/
theorem argSlots_reverse (f : ℤ → Word) (s : State) (n : ℕ) :
    ((argSlots s.top 1 n).map f).reverse = (List.range n).map fun k : ℕ => f (s.top + n - k) := by
  refine List.ext_getElem? fun k => ?_
  by_cases hk : k < n
  · rw [List.getElem?_reverse (by rw [List.length_map, length_argSlots]; exact hk), List.length_map,
      length_argSlots]
    simp only [argSlots, List.getElem?_map, List.getElem?_range (show n - 1 - k < n by omega),
      List.getElem?_range hk, Option.map_some]
    congr 2
    omega
  · rw [List.getElem?_eq_none (by rw [List.length_reverse, List.length_map, length_argSlots]; omega),
      List.getElem?_eq_none (by rw [List.length_map, List.length_range]; omega)]

theorem LtagHash_eq {ptr w : Word} {name : List UInt8} (hobj : s.heap ptr = some (cStringObj name))
    (hended : 0 ∉ name) (hw : tagHash name = .ok w) : LtagHash ptr s = .ok w s := by
  have hchars : (cStringObj name).bytes.takeWhile (· ≠ 0) = name := by
    have hall : ∀ c ∈ name, decide (c ≠ 0) = true := fun c hc => decide_eq_true fun h => hended (h ▸ hc)
    show (name ++ [0]).takeWhile (· ≠ 0) = name
    rw [List.takeWhile_append_of_pos hall]
    exact List.append_nil name
  have hzero : ¬ 0 ∉ (cStringObj name).bytes := not_not.mpr (List.mem_append_right _ List.mem_cons_self)
  rw [LtagHash, exec_bind_of_ok (getObj_eq hobj), if_neg hzero, hchars, hw]
  rfl

theorem operands_map (relocate : Word → Word) (s : State) (n : ℕ) : (operands s n).map relocate =
    (List.range n).map fun k : ℕ => relocate (s.stack (s.top + n - k)) := by
  rw [operands, List.map_map]
  rfl

/-- The state in which `call_array` calls `Barray`. -/
def reversedState (s : State) (n : ℕ) : State := { s with
  codePtr := s.codePtr + 5, stack := reversed s.stack (s.top + 1) n, touched := max s.touched (s.top + n) }

/-- The state in which `boxing_sexp` calls `Bsexp`. -/
def hashedState (s : State) (n : ℕ) (hash : Word) : State := { s with
  codePtr := s.codePtr + 9, top := s.top - 1, stack := Function.update s.stack s.top hash
  touched := max s.touched (s.top - 1 + ((n + 1 : ℕ) : ℤ)) }

/-- The operands are on the stack. -/
theorem mem_operands {w : Word} (hw : w ∈ operands s n) :
    ∃ i, s.top < i ∧ i ≤ s.top + n ∧ s.stack i = w := by
  obtain ⟨k, hk, rfl⟩ := List.mem_map.mp hw
  have hlt : k < n := List.mem_range.mp hk
  exact ⟨s.top + n - k, by omega, by omega, rfl⟩

theorem reversedState_arranged (s : State) (n : ℕ) (hM : s.top + n < M.maxStack) :
    Arranged M s n n 5 (operands s n) (reversedState s n) := by
  have hwords : ∀ i, s.top < i → i < M.maxStack →
      ∃ j, s.top < j ∧ j < M.maxStack ∧ reversed s.stack (s.top + 1) n j = s.stack i := by
    intro i hi hiM
    by_cases hrange : i ≤ s.top + n
    · refine ⟨2 * (s.top + 1) + n - 1 - i, by omega, by omega, ?_⟩
      exact (if_pos (by omega)).trans (congrArg s.stack (by omega))
    · exact ⟨i, hi, hiM, if_neg (by omega)⟩
  refine ⟨⟨reversed s.stack (s.top + 1) n, max s.touched (s.top + n), ?_⟩, hwords, fun w hw => ?_,
    fun j hj hjM => ?_, fun i hi => if_neg (by omega)⟩
  · rw [Int.add_sub_cancel]
    rfl
  · obtain ⟨i, hi, hin, rfl⟩ := mem_operands hw
    exact hwords i hi (by omega)
  · have hlow : s.top < j := hj
    by_cases hrange : j ≤ s.top + n
    · exact .inl ⟨2 * (s.top + 1) + n - 1 - j, by omega, by omega, if_pos (by omega)⟩
    · exact .inl ⟨j, hlow, hjM, if_neg (by omega)⟩

theorem hashedState_arranged (s : State) (n : ℕ) {hash : Word} (hhash : isBoxedInt hash = true)
    (hM : s.top + n < M.maxStack) :
    Arranged M s n (n + 1) 9 (operands s n) (hashedState s n hash) := by
  have hkept : ∀ i, s.top < i → (hashedState s n hash).stack i = s.stack i :=
    fun i hi => Function.update_of_ne (by omega) ..
  have htop : (hashedState s n hash).top = s.top - 1 := rfl
  refine ⟨⟨Function.update s.stack s.top hash, max s.touched (s.top - 1 + ((n + 1 : ℕ) : ℤ)), ?_⟩,
    fun i hi hM => ⟨i, by omega, hM, hkept i hi⟩, fun w hw => ?_, fun j hj hjM => ?_,
    fun i hi => hkept i (by omega)⟩
  · rw [show s.top + (n : ℤ) - ((n + 1 : ℕ) : ℤ) = s.top - 1 by omega]
    rfl
  · obtain ⟨i, hi, hin, rfl⟩ := mem_operands hw
    exact ⟨i, by omega, by omega, hkept i hi⟩
  · by_cases hself : j = s.top
    · refine .inr (.inr ?_)
      have hword : (hashedState s n hash).stack j = hash := by
        rw [hself]
        exact Function.update_self ..
      rw [hword]
      rintro rfl
      exact absurd hhash (by decide)
    · exact .inl ⟨j, by omega, hjM, hkept j (by omega)⟩

theorem callArray_eq {n : UInt32} (hcode : Placed M.bf s.codePtr (callArrayInstruction n).encode)
    (htop : -1 ≤ s.top) (hroom : s.top + n.toNat < M.maxStack) : callArray E s = (do
      let res ← Barray E (s.top + 1) n.toNat
      popOps n.toNat
      pushOp M res) (reversedState s n.toNat) := by
  have hreverse := reverseSlots_eq (M := M) (s := { s with
    codePtr := s.codePtr + 5, touched := max s.touched (s.top + n.toNat) }) (a := s.top + 1)
    (n := n.toNat) (by omega)
  rw [callArray, exec_bind_of_ok (consumeArgs1_of_placed rfl hcode), exec_get_bind]
  exact (exec_bind_of_ok rfl).trans (exec_bind_of_ok hreverse)

theorem callArray_constructs {n : UInt32} (hcode : Placed M.bf s.codePtr (callArrayInstruction n).encode)
    (hroots : s.extraRoots = []) (hn : n.toNat ≤ maxExtraRootsNumber)
    (htop : -1 ≤ s.top) (hroom : 0 ≤ s.top + n.toNat ∧ s.top + n.toNat < M.maxStack) :
    Constructs E s (callArray E) n.toNat n.toNat 5 (operands s n.toNat) (argSlots (s.top + 1) 0 n.toNat)
      (Barray E (s.top + 1) n.toNat) (fun f => .array ((argSlots (s.top + 1) 0 n.toNat).map f))
      (reversedState s n.toNat) where
  arranged := reversedState_arranged s n.toNat hroom.2
  rooted i hi := by
    rw [mem_argSlots] at hi
    show s.top < i ∧ _
    omega
  roots := hroots
  room := hroom
  low := htop
  handler_eq := callArray_eq hcode htop hroom.2
  made _ _ := Barray_eq (s := reversedState s n.toNat) hroots hn (by omega)
  failed _ _ := Barray_error (s := reversedState s n.toNat) hroots hn

/-- CALL_ARRAY makes an array of its operands. -/
theorem callArray_makes {n : UInt32} (hcode : Placed M.bf s.codePtr (callArrayInstruction n).encode)
    (hroots : s.extraRoots = []) (hn : n.toNat ≤ maxExtraRootsNumber)
    (htop : -1 ≤ s.top) (hroom : 0 ≤ s.top + n.toNat ∧ s.top + n.toNat < M.maxStack) :
    Makes E s (callArray E) n.toNat 5 (operands s n.toNat)
      fun relocate => .array ((operands s n.toNat).map relocate) := by
  refine (callArray_constructs hcode hroots hn htop hroom).makes.congr fun relocate heap _ => ?_
  rw [operands_map, argSlots, List.map_map]
  refine congrArg Obj.array (List.map_congr_left fun k hk => ?_)
  rw [List.mem_range] at hk
  rw [Function.comp_apply, rewritten, if_pos ⟨by show s.top < _; omega, by omega⟩]
  refine congrArg relocate ((if_pos (by omega)).trans (congrArg s.stack ?_))
  omega

theorem boxingSexp_eq {t n : UInt32} {name : List UInt8} {ptr hash : Word}
    (hlit : Literal M s t.toNat name ptr) (hhash : tagHash name = .ok hash)
    (hcode : Placed M.bf s.codePtr (sexpInstruction t n).encode)
    (hcount : toU32 (n.toNat + 1) = n.toNat + 1) (htop : 0 ≤ s.top)
    (hroom : s.top + n.toNat < M.maxStack) : boxingSexp E s = (do
      let res ← Bsexp E s.top (n.toNat + 1)
      popOps (n.toNat + 1)
      pushOp M res) (hashedState s n.toNat hash) := by
  have hone : s.top - 1 + 1 = s.top := by omega
  have hpush := pushOp_eq (M := M) (s := { s with codePtr := s.codePtr + 9 }) hash
    ⟨htop, by dsimp only; omega⟩
  rw [boxingSexp, exec_bind_of_ok (consumeArgs2_of_placed rfl hcode)]
  refine (exec_bind_of_ok (getStringPtr_move hlit.found _)).trans ?_
  refine (exec_bind_of_ok (LtagHash_eq (s := { s with codePtr := s.codePtr + 9 }) hlit.object
    hlit.ended hhash)).trans ?_
  refine (exec_bind_of_ok hpush).trans ?_
  rw [exec_get_bind, hcount]
  dsimp only
  rw [hone]
  exact exec_bind_of_ok rfl

/-- A hash is odd. -/
theorem tagHash_boxed {name : List UInt8} {w : Word} (h : tagHash name = .ok w) : isBoxedInt w = true := by
  obtain ⟨v, -, h⟩ := except_bind_ok.mp h
  split_ifs at h
  rw [except_pure_ok] at h
  exact h ▸ isBoxedInt_boxInt _

theorem boxingSexp_constructs {t n : UInt32} {name : List UInt8} {ptr hash : Word}
    (hlit : Literal M s t.toNat name ptr) (hhash : tagHash name = .ok hash)
    (hcode : Placed M.bf s.codePtr (sexpInstruction t n).encode)
    (hroots : s.extraRoots = []) (hn : n.toNat ≤ maxExtraRootsNumber)
    (htop : 0 ≤ s.top) (hroom : s.top + n.toNat < M.maxStack) :
    Constructs E s (boxingSexp E) n.toNat (n.toNat + 1) 9 (operands s n.toNat) (argSlots s.top 1 n.toNat)
      (Bsexp E s.top (n.toNat + 1))
      (fun f => .sexp (BitVec.ofInt 64 (unbox (f s.top))) ((argSlots s.top 1 n.toNat).map f).reverse)
      (hashedState s n.toNat hash) where
  arranged := hashedState_arranged s n.toNat (tagHash_boxed hhash) hroom
  rooted i hi := by
    rw [mem_argSlots] at hi
    show s.top - 1 < i ∧ _
    omega
  roots := hroots
  room := by omega
  low := by
    show -1 ≤ s.top - 1
    omega
  handler_eq := by
    have hmax : n.toNat ≤ 32 := hn
    exact boxingSexp_eq hlit hhash hcode (toU32_of_lt (show n.toNat + 1 < 2 ^ 32 by omega)) htop hroom
  made _ _ := Bsexp_eq (s := hashedState s n.toNat hash) hroots hn (by omega)
  failed _ _ := Bsexp_error (s := hashedState s n.toNat hash) hroots hn

/-- SEXP makes an s-expression of its operands, with the tag of the name. -/
theorem boxingSexp_makes {t n : UInt32} {name : List UInt8} {ptr : Word}
    (hlit : Literal M s t.toNat name ptr) (hname : TagName name)
    (hcode : Placed M.bf s.codePtr (sexpInstruction t n).encode)
    (hroots : s.extraRoots = []) (hn : n.toNat ≤ maxExtraRootsNumber)
    (htop : 0 ≤ s.top) (hroom : s.top + n.toNat < M.maxStack) :
    Makes E s (boxingSexp E) n.toNat 9 (operands s n.toNat)
      fun relocate => .sexp (tagWord name) ((operands s n.toNat).map relocate) := by
  obtain ⟨hash, hhash⟩ := hname.2
  refine (boxingSexp_constructs hlit hhash hcode hroots hn htop hroom).makes.congr
    fun relocate heap hcollected => ?_
  have hzone : M.heapZone hash = false := heapZone_of_boxed (tagHash_boxed hhash)
  have htag : rewritten M (hashedState s n.toNat hash) relocate s.top = hash := by
    have hself : (hashedState s n.toNat hash).stack s.top = hash := Function.update_self ..
    rw [rewritten, if_pos ⟨by show s.top - 1 < _; omega, by omega⟩, hself, hcollected.word hzone]
  rw [htag, tagWord_eq hhash, argSlots_reverse, operands_map]
  refine congrArg _ (List.map_congr_left fun k hk => ?_)
  rw [List.mem_range] at hk
  rw [rewritten, if_pos ⟨by show s.top - 1 < _; omega, by omega⟩]
  exact congrArg relocate (Function.update_of_ne (by omega) ..)

end Construction

/-! ### Access -/

/-- The turn goes through and replaces the uppermost `n` words by `w`; nothing else changes. -/
def Answers {M : Machine} (E : Env M) (s : State) (n length : ℕ) (w : Word) : Prop :=
  ∃ s', Step E s s' ∧ Evaluated (s.pop n) length w s'

section Access

variable {M : Machine} (E : Env M) {s : State} {a : Word} {k : Aggregate} {elems : List Word}

theorem pushOp_evaluated (n length : ℕ) (w : Word) (touched : ℤ)
    (hroom : 0 ≤ s.top + n ∧ s.top + n < M.maxStack) :
    ∃ s', pushOp M w { s with codePtr := s.codePtr + length, top := s.top + n, touched := touched } =
      .ok () s' ∧ Evaluated (s.pop n) length w s' := by
  refine ⟨_, pushOp_eq w hroom, ⟨_, touched, rfl⟩, Function.update_self .., fun i hi => ?_⟩
  exact Function.update_of_ne (ne_of_gt hi) ..

/-- An instruction that takes one operand and pushes what it finds in the heap. -/
theorem answers_one {type : InstructionType} {handler : Exec Unit} {g : Word → Exec Unit} {length : ℕ}
    {w : Word} (hat : At M s type) (hd : dispatch E type = (do handler; return false))
    (heq : handler s = (do
      let x ← peekOp M
      popOp
      g x) { s with codePtr := s.codePtr + length })
    (hg : ∀ t : State, t.heap = s.heap → g (s.stack (s.top + 1)) t = pushOp M w t)
    (hroom : 0 ≤ s.top + 1 ∧ s.top + 1 < M.maxStack) : Answers E s 1 length w := by
  obtain ⟨s', hpush, hs'⟩ := pushOp_evaluated (s := s) 1 length w (max s.touched (s.top + 1)) hroom
  refine ⟨s', ?_, hs'⟩
  rw [step_iff E hat hd, heq]
  refine (peekOp_popOp (s := { s with codePtr := s.codePtr + length }) hroom).trans ?_
  have hfound := hg { s with
    codePtr := s.codePtr + length, top := s.top + 1, touched := max s.touched (s.top + 1) } rfl
  exact hfound.trans hpush

theorem Llength_eq {o : Obj} (hobj : s.heap a = some o) : Llength a s = .ok (boxInt o.len) s := by
  rw [Llength, exec_bind_of_ok (getObj_eq hobj)]
  rfl

theorem Belem_eq {o : Obj} {i w : Word} (hobj : s.heap a = some o) (hget : o.elem (unbox i) = some w) :
    Belem a i s = .ok w s := by
  rw [Belem, exec_bind_of_ok (getObj_eq hobj), hget]
  rfl

theorem Bsta_eq {o o' : Obj} {i : Word} (v : Word) (hi : isBoxedInt i = true)
    (hobj : s.heap a = some o) (hput : o.put (unbox i) v = some o') :
    Bsta M a i v s = .ok v { s with heap := Function.update s.heap a (some o') } := by
  rw [Bsta, if_pos hi, exec_bind_of_ok (getObj_eq hobj), hput]
  rfl

theorem Aggregate.len_object (k : Aggregate) (elems : List Word) :
    (k.object elems).len = elems.length := by
  cases k <;> rfl

/-- CALL_LENGTH gives the number of elements. -/
theorem length_answers (hobj : s.heap a = some (k.object elems))
    (hcode : Placed M.bf s.codePtr callLengthInstruction.encode) (ha : s.stack (s.top + 1) = a)
    (hroom : 0 ≤ s.top + 1 ∧ s.top + 1 < M.maxStack) :
    Answers E s 1 1 (boxInt elems.length) := by
  have hd : dispatch E .callLength = (do callLength M; return false) := rfl
  refine answers_one E (at_of_placed hcode) hd rfl (fun t ht => ?_) hroom
  rw [← ht] at hobj
  rw [ha, exec_bind_of_ok (Llength_eq hobj), k.len_object]

theorem Aggregate.elem_object (k : Aggregate) (elems : List Word) (i : ℕ) :
    (k.object elems).elem i = elems[i]? := by
  have hi : ¬ (i : ℤ) < 0 := Int.not_lt.mpr (Int.natCast_nonneg i)
  cases k <;> exact if_neg hi

theorem Aggregate.put_object (k : Aggregate) {i : ℕ} (hi : i < elems.length) (w : Word) :
    (k.object elems).put i w = some (k.object (elems.set i w)) := by
  cases k <;> simp [Aggregate.object, Obj.put, hi]

/-- ELEM gives the element at the index. -/
theorem elem_answers {i : ℕ} {w : Word} (hobj : s.heap a = some (k.object elems))
    (hcode : Placed M.bf s.codePtr elemInstruction.encode) (hi : s.stack (s.top + 1) = boxInt i)
    (ha : s.stack (s.top + 2) = a) (hsmall : elems.length < 2 ^ 62) (hw : elems[i]? = some w)
    (hroom : 0 ≤ s.top + 1 ∧ s.top + 2 < M.maxStack) : Answers E s 2 1 w := by
  have hlt : i < elems.length := (List.getElem?_eq_some_iff.mp hw).1
  have hget : (k.object elems).elem (unbox (boxInt i)) = some w := by
    rw [unbox_boxInt (by omega) (by omega), k.elem_object, hw]
  obtain ⟨s', hpush, hs'⟩ := pushOp_evaluated (s := s) (M := M) 2 1 w
    (max (max s.touched (s.top + 1)) (s.top + 2)) ⟨by omega, hroom.2⟩
  refine ⟨s', ?_, hs'⟩
  have hd : dispatch E .elem = (do callElem M; return false) := rfl
  rw [step_iff E (at_of_placed hcode) hd, callElem,
    exec_bind_of_ok (show advance 1 s = .ok () { s with codePtr := s.codePtr + 1 } from rfl)]
  refine (pop_two (s := { s with codePtr := s.codePtr + 1 }) hroom).trans ?_
  dsimp only
  rw [hi, ha]
  refine (exec_bind_of_ok (Belem_eq (o := k.object elems) ?_ hget)).trans hpush
  exact hobj

/-- STA replaces the element at the index. -/
theorem sta_answers {i : ℕ} (hobj : s.heap a = some (k.object elems))
    (hcode : Placed M.bf s.codePtr staInstruction.encode) (hi : s.stack (s.top + 2) = boxInt i)
    (ha : s.stack (s.top + 3) = a) (hsmall : elems.length < 2 ^ 62) (hlt : i < elems.length)
    (hroom : 0 ≤ s.top + 1 ∧ s.top + 3 < M.maxStack) :
    ∃ s', Step E s s' ∧ Evaluated (State.pop { s with
      heap := Function.update s.heap a (some (k.object (elems.set i (s.stack (s.top + 1))))) } 3) 1
        (s.stack (s.top + 1)) s' := by
  have hthree : s.top + 2 + 1 = s.top + 3 := by omega
  have hput : (k.object elems).put (unbox (boxInt i)) (s.stack (s.top + 1)) =
      some (k.object (elems.set i (s.stack (s.top + 1)))) := by
    rw [unbox_boxInt (by omega) (by omega), k.put_object hlt]
  obtain ⟨s', hpush, hs'⟩ := pushOp_evaluated (s := { s with
    heap := Function.update s.heap a (some (k.object (elems.set i (s.stack (s.top + 1))))) }) (M := M) 3 1
    (s.stack (s.top + 1)) (max (max (max s.touched (s.top + 1)) (s.top + 2)) (s.top + 3))
    ⟨by dsimp only; omega, hroom.2⟩
  refine ⟨s', ?_, hs'⟩
  have hd : dispatch E .sta = (do stackSta M; return false) := rfl
  rw [step_iff E (at_of_placed hcode) hd, stackSta,
    exec_bind_of_ok (show advance 1 s = .ok () { s with codePtr := s.codePtr + 1 } from rfl)]
  refine (pop_two (s := { s with codePtr := s.codePtr + 1 }) ⟨hroom.1, by dsimp only; omega⟩).trans ?_
  dsimp only
  rw [hi, if_pos (isBoxedInt_boxInt _)]
  refine (peekOp_popOp (by dsimp only; omega)).trans ?_
  dsimp only
  rw [hthree, ha]
  refine (exec_bind_of_ok (Bsta_eq (o := k.object elems) _ (isBoxedInt_boxInt _) ?_ hput)).trans hpush
  exact hobj

/-- What ARRAY compares: its operand has lost the upper bits. -/
theorem unbox_truncated (m : UInt32) {n : ℕ} (hn : n < 2 ^ 30) :
    ((n : ℤ) == unbox (BitVec.ofInt 64 (toI32 (boxInt m.toNat).toInt))) =
      decide (m.toNat = n ∨ m.toNat = n + 2 ^ 31) := by
  have hm : m.toNat < 2 ^ 32 := m.toNat_lt
  have hvalue : unbox (BitVec.ofInt 64 (toI32 (boxInt m.toNat).toInt)) =
      if m.toNat % 2 ^ 31 < 2 ^ 30 then (m.toNat % 2 ^ 31 : ℤ) else m.toNat % 2 ^ 31 - 2 ^ 31 := by
    unfold unbox boxInt toI32
    rw [BitVec.toInt_ofInt, BitVec.toInt_ofInt, Int.bmod_def, Int.bmod_def]
    split_ifs <;> omega
  rw [hvalue, Bool.eq_iff_iff, beq_iff_eq, decide_eq_true_iff]
  split_ifs <;> omega

def Aggregate.isArray : Aggregate → Bool
  | .array => true
  | .sexp _ => false

/-- The object came from SEXP with this name. -/
def Aggregate.hasTag : Aggregate → List UInt8 → Bool
  | .array, _ => false
  | .sexp name, name' => name' == name

theorem isBoxedInt_of_zone (ha : M.heapZone a = true) : isBoxedInt a = false := by
  rw [isBoxedInt, beq_eq_false_iff_ne, M.zone_even a ha]
  decide

theorem BarrayPatt_eq (ha : M.heapZone a = true) (hobj : s.heap a = some (k.object elems))
    (hsmall : elems.length < 2 ^ 30) (m : UInt32) : BarrayPatt a (boxInt m.toNat) s =
      .ok (boxBool (k.isArray && decide (m.toNat = elems.length ∨ m.toNat = elems.length + 2 ^ 31))) s := by
  rw [BarrayPatt, if_neg (by simp [isBoxedInt_of_zone ha]), exec_bind_of_ok (getObj_eq hobj)]
  cases k with
  | array =>
    rw [← unbox_truncated m hsmall]
    rfl
  | sexp name => rfl

/-- ARRAY compares the length but for the uppermost bit of its operand. -/
theorem array_answers {m : UInt32} (ha : M.heapZone a = true) (hobj : s.heap a = some (k.object elems))
    (hsmall : elems.length < 2 ^ 30) (hcode : Placed M.bf s.codePtr (arrayInstruction m).encode)
    (hop : s.stack (s.top + 1) = a) (hroom : 0 ≤ s.top + 1 ∧ s.top + 1 < M.maxStack) :
    Answers E s 1 5
      (boxBool (k.isArray && decide (m.toNat = elems.length ∨ m.toNat = elems.length + 2 ^ 31))) := by
  have hat : At M s .array := type_arrayInstruction m ▸ at_of_placed hcode
  have hd : dispatch E .array = (do unboxingArray M; return false) := rfl
  refine answers_one (g := fun x => do
    let res ← BarrayPatt x (boxInt m.toNat)
    pushOp M res) E hat hd ?_ (fun t ht => ?_) hroom
  · rw [unboxingArray, exec_bind_of_ok (consumeArgs1_of_placed rfl hcode)]
    rfl
  · rw [← ht] at hobj
    rw [hop, exec_bind_of_ok (BarrayPatt_eq ha hobj hsmall m)]

theorem Btag_eq {name : List UInt8} {hash : Word} (ha : M.heapZone a = true)
    (hobj : s.heap a = some (k.object elems)) (hk : ∀ name, k = .sexp name → TagName name)
    (hname : TagName name) (hhash : tagHash name = .ok hash) (m : UInt32) :
    Btag a hash (boxInt m.toNat) s =
      .ok (boxBool (k.hasTag name && decide (m.toNat = elems.length))) s := by
  have hm : m.toNat < 2 ^ 32 := m.toNat_lt
  rw [Btag, if_neg (by simp [isBoxedInt_of_zone ha]), exec_bind_of_ok (getObj_eq hobj)]
  cases k with
  | array => rfl
  | sexp name' =>
    have htag : (tagWord name' == BitVec.ofInt 64 (unbox hash)) = (name == name') := by
      rw [← tagWord_eq hhash, Bool.eq_iff_iff, beq_iff_eq, beq_iff_eq, tagWord_inj (hk name' rfl) hname]
      exact eq_comm
    have hlen : ((elems.length : ℤ) == unbox (boxInt m.toNat)) = decide (m.toNat = elems.length) := by
      rw [unbox_boxInt (by omega) (by omega), Bool.eq_iff_iff, beq_iff_eq, decide_eq_true_iff]
      omega
    refine congrArg (fun b => EStateM.Result.ok (boxBool b) s) ?_
    show (tagWord name' == _ && _) = (name == name' && _)
    rw [htag, hlen]

/-- TAG compares the names and the lengths. -/
theorem tag_answers {t m : UInt32} {name : List UInt8} {ptr : Word} (ha : M.heapZone a = true)
    (hobj : s.heap a = some (k.object elems)) (hk : ∀ name, k = .sexp name → TagName name)
    (hlit : Literal M s t.toNat name ptr) (hname : TagName name)
    (hcode : Placed M.bf s.codePtr (tagInstruction t m).encode) (hop : s.stack (s.top + 1) = a)
    (hroom : 0 ≤ s.top + 1 ∧ s.top + 1 < M.maxStack) :
    Answers E s 1 9 (boxBool (k.hasTag name && decide (m.toNat = elems.length))) := by
  obtain ⟨hash, hhash⟩ := hname.2
  have hat : At M s .tag := type_tagInstruction t m ▸ at_of_placed hcode
  have hd : dispatch E .tag = (do unboxingTag M; return false) := rfl
  refine answers_one (g := fun x => do
    let hash ← LtagHash ptr
    let res ← Btag x hash (boxInt m.toNat)
    pushOp M res) E hat hd ?_ (fun u hu => ?_) hroom
  · rw [unboxingTag, exec_bind_of_ok (consumeArgs2_of_placed rfl hcode)]
    exact exec_bind_of_ok (getStringPtr_move hlit.found _)
  · have hptr := hlit.object
    rw [← hu] at hobj hptr
    rw [hop, exec_bind_of_ok (LtagHash_eq hptr hlit.ended hhash),
      exec_bind_of_ok (Btag_eq ha hobj hk hname hhash m)]

/-- The answer is unique. -/
theorem Answers.unique {n length : ℕ} {w w' : Word} (h : Answers E s n length w)
    (h' : Answers E s n length w') : w = w' := by
  obtain ⟨s₁, hstep, he⟩ := h
  obtain ⟨s₂, hstep', he'⟩ := h'
  have hsame : s₁ = s₂ := (EStateM.Result.ok.inj (hstep.symm.trans hstep')).2
  rw [← he.value, ← he'.value, hsame]

end Access

/-! ### The laws -/

/-- The instruction that makes the object. -/
def Aggregate.instruction : Aggregate → UInt32 → UInt32 → Instruction
  | .array, _, n => callArrayInstruction n
  | .sexp _, t, n => sexpInstruction t n

/-- SEXP needs a free slot for the tag. -/
def Aggregate.leastTop : Aggregate → ℤ
  | .array => -1
  | .sexp _ => 0

/-- What holds of the object `a` with these elements in the state `s`. -/
structure Laws {M : Machine} (E : Env M) (k : Aggregate) (a : Word) (elems : List Word) (s : State) :
    Prop where
  length : Placed M.bf s.codePtr callLengthInstruction.encode → s.stack (s.top + 1) = a →
    0 ≤ s.top + 1 → s.top + 1 < M.maxStack → Answers E s 1 1 (boxInt elems.length)
  elem : ∀ (i : ℕ) (w : Word), elems[i]? = some w → Placed M.bf s.codePtr elemInstruction.encode →
    s.stack (s.top + 1) = boxInt i → s.stack (s.top + 2) = a → 0 ≤ s.top + 1 →
    s.top + 2 < M.maxStack → Answers E s 2 1 w
  sta : ∀ i < elems.length, Placed M.bf s.codePtr staInstruction.encode →
    s.stack (s.top + 2) = boxInt i → s.stack (s.top + 3) = a → 0 ≤ s.top + 1 →
    s.top + 3 < M.maxStack → ∃ s', Step E s s' ∧ Evaluated (State.pop { s with
      heap := Function.update s.heap a (some (k.object (elems.set i (s.stack (s.top + 1))))) } 3) 1
        (s.stack (s.top + 1)) s'
  tag : ∀ (t m : UInt32) (name : List UInt8) (ptr : Word), Literal M s t.toNat name ptr → TagName name →
    Placed M.bf s.codePtr (tagInstruction t m).encode → s.stack (s.top + 1) = a → 0 ≤ s.top + 1 →
    s.top + 1 < M.maxStack →
    Answers E s 1 9 (boxBool (k.hasTag name && decide (m.toNat = elems.length)))
  array : ∀ m : UInt32, Placed M.bf s.codePtr (arrayInstruction m).encode → s.stack (s.top + 1) = a →
    0 ≤ s.top + 1 → s.top + 1 < M.maxStack →
    (Answers E s 1 5 (boxBool (k.isArray && decide (m.toNat = elems.length))) ↔
      ¬ (k.isArray = true ∧ m.toNat = elems.length + 2 ^ 31))

section Laws

variable {M : Machine} (E : Env M) {s : State} {a : Word} {k : Aggregate} {elems : List Word}

theorem laws_of_object (ha : M.heapZone a = true) (hobj : s.heap a = some (k.object elems))
    (hsmall : elems.length < 2 ^ 30) (hk : ∀ name, k = .sexp name → TagName name) :
    Laws E k a elems s where
  length hcode hop hlow hM := length_answers E hobj hcode hop ⟨hlow, hM⟩
  elem i w hw hcode hi hop hlow hM := elem_answers E hobj hcode hi hop (by omega) hw ⟨hlow, hM⟩
  sta i hi hcode hindex hop hlow hM := sta_answers E hobj hcode hindex hop (by omega) hi ⟨hlow, hM⟩
  tag t m name ptr hlit hname hcode hop hlow hM :=
    tag_answers E ha hobj hk hlit hname hcode hop ⟨hlow, hM⟩
  array m hcode hop hlow hM := by
    have hanswer := array_answers E ha hobj hsmall hcode hop ⟨hlow, hM⟩
    constructor
    · rintro hright ⟨hk, hm⟩
      have hsame := boxBool_inj (hright.unique E hanswer)
      rw [hk, Bool.true_and, Bool.true_and, decide_eq_decide] at hsame
      have hlen := hsame.mpr (.inr hm)
      omega
    · intro hexact
      have hsame : (k.isArray && decide (m.toNat = elems.length)) =
          (k.isArray && decide (m.toNat = elems.length ∨ m.toNat = elems.length + 2 ^ 31)) := by
        cases hk : k.isArray with
        | false => rfl
        | true =>
          have hm : m.toNat ≠ elems.length + 2 ^ 31 := fun hm => hexact ⟨hk, hm⟩
          rw [Bool.true_and, Bool.true_and]
          exact decide_eq_decide.mpr ⟨.inl, fun h => h.resolve_right hm⟩
      rw [hsame]
      exact hanswer

/-- With an empty pool of extra roots, as between the instructions of a run, CALL_ARRAY and SEXP
    replace up to 32 words by a new object of these words, and the laws hold of every such object. -/
theorem aggregates_right {t n : UInt32} (hcode : Placed M.bf s.codePtr (k.instruction t n).encode)
    (hroots : s.extraRoots = []) (hn : n.toNat ≤ maxExtraRootsNumber) (htop : k.leastTop ≤ s.top)
    (hroom : 0 ≤ s.top + n.toNat ∧ s.top + n.toNat < M.maxStack)
    (hname : ∀ name, k = .sexp name → TagName name ∧ ∃ ptr, Literal M s t.toNat name ptr) :
    (∀ s', Step E s s' → ∃ relocate heap a, Created M s n.toNat (k.instruction t n).length relocate
      heap a (k.object ((operands s n.toNat).map relocate)) s') ∧
    ((∀ k h, (E.place k h).isSome = true) → (s.allocs = 0 → ¬ NullRoot M s (operands s n.toNat)) →
      ∃ s', Step E s s') ∧
    ∀ (a : Word) (elems : List Word) (u : State), M.heapZone a = true →
      elems.length ≤ maxExtraRootsNumber → u.heap a = some (k.object elems) → Laws E k a elems u := by
  have hlaws : ∀ (a : Word) (elems : List Word) (u : State), M.heapZone a = true →
      elems.length ≤ maxExtraRootsNumber → u.heap a = some (k.object elems) → Laws E k a elems u := by
    intro a elems u ha hlen hobj
    have hmax : elems.length ≤ 32 := hlen
    exact laws_of_object E ha hobj (by omega) fun name hk => (hname name hk).1
  cases k with
  | array =>
    have hmakes := callArray_makes (E := E) hcode hroots hn htop hroom
    have hat : At M s .callArray := type_callArrayInstruction n ▸ at_of_placed hcode
    have hd : dispatch E .callArray = (do callArray E; return false) := rfl
    refine ⟨fun s' hs' => ?_, fun hmemory hnull => ?_, hlaws⟩
    · rw [step_iff E hat hd] at hs'
      exact hmakes.created s' hs'
    · obtain ⟨s', hs'⟩ := hmakes.total hmemory hnull
      exact ⟨s', (step_iff E hat hd).mpr hs'⟩
  | sexp name =>
    obtain ⟨htag, ptr, hlit⟩ := hname name rfl
    have hmakes := boxingSexp_makes (E := E) hlit htag hcode hroots hn htop hroom.2
    have hat : At M s .sexp := type_sexpInstruction t n ▸ at_of_placed hcode
    have hd : dispatch E .sexp = (do boxingSexp E; return false) := rfl
    refine ⟨fun s' hs' => ?_, fun hmemory hnull => ?_, hlaws⟩
    · rw [step_iff E hat hd] at hs'
      exact hmakes.created s' hs'
    · obtain ⟨s', hs'⟩ := hmakes.total hmemory hnull
      exact ⟨s', (step_iff E hat hd).mpr hs'⟩

end Laws

/-! ### A number that loses its uppermost bit -/

/-- `main` calls a closure that makes an array of two words, asks whether it has 2147483650, and makes
    an s-expression of the answer and two more words. -/
def arrayFile : Bytefile := .ofMain 0
  [0x52, 0, 0, 0, 0, 0, 0, 0, 0, 0x54, 24, 0, 0, 0, 0, 0, 0, 0, 0x55, 0, 0, 0, 0, 0x16,
    0x53, 0, 0, 0, 0, 0, 0, 0, 0, 0x10, 7, 0, 0, 0, 0x10, 8, 0, 0, 0, 0x74, 2, 0, 0, 0,
    0x58, 2, 0, 0, 0x80, 0x10, 5, 0, 0, 0, 0x10, 6, 0, 0, 0, 0x12, 0, 0, 0, 0, 3, 0, 0, 0, 0x16, 0xFF]

def arrayVerified : Bytefile := arrayFile.withBytes (arrayFile.bytes.set 28 1)

/-- The closure is not looked at. -/
theorem verify_arrayFile : verify 20 arrayFile = .ok arrayVerified := by decide

def arrayMachine : Machine := Machine.layout arrayVerified stackSize (by decide) stackSize_le

def arrayEnv : Env arrayMachine := Env.bump arrayMachine fun k => BitVec.ofNat 64 (2 ^ 50 + 64 * k)

/-- The state of `arrayFile` after `n` turns. -/
def arrayState : ℕ → State
  | 0 => startState arrayEnv
  | n + 1 => nextState arrayEnv (arrayState n)

theorem arrayState_codePtr : (arrayState 6).codePtr = 43 ∧ (arrayState 7).codePtr = 48 ∧
    (arrayState 10).codePtr = 63 := by decide +kernel

theorem arrayState_array :
    (arrayState 7).heap ((arrayState 7).stack ((arrayState 7).top + 1)) =
      some (.array [boxInt 7, boxInt 8]) := by decide +kernel

/-- ARRAY 2147483650 does not answer no. -/
theorem arrayFile_mismatch : verify 20 arrayFile = .ok arrayVerified ∧ Starts arrayEnv (arrayState 0) ∧
    (∀ k < 7, Step arrayEnv (arrayState k) (arrayState (k + 1))) ∧
    Placed arrayMachine.bf (arrayState 7).codePtr (arrayInstruction 2147483650).encode ∧
    (arrayState 7).heap ((arrayState 7).stack ((arrayState 7).top + 1)) =
      some (.array [boxInt 7, boxInt 8]) ∧
    ¬ Answers arrayEnv (arrayState 7) 1 5 (boxBool (decide ((2147483650 : UInt32).toNat = 2))) := by
  have hcode : Placed arrayMachine.bf (arrayState 7).codePtr (arrayInstruction 2147483650).encode := by
    rw [arrayState_codePtr.2.1]
    simp [arrayInstruction, Instruction.encode, operandBytes, Placed]
    decide
  have hturns : ∀ k < 7, turnResult arrayEnv (arrayState k) = some false := by decide +kernel
  refine ⟨verify_arrayFile, starts_startState arrayEnv (by decide +kernel),
    fun k hk => turn_nextState arrayEnv (hturns k hk), hcode, arrayState_array, fun hno => ?_⟩
  have hyes := array_answers arrayEnv (k := .array) (by decide +kernel) arrayState_array (by decide) hcode rfl
    (by decide +kernel)
  exact absurd (boxBool_inj (hno.unique arrayEnv hyes)) (by decide)

theorem arrayState_callArray :
    Placed arrayMachine.bf (arrayState 6).codePtr (callArrayInstruction 2).encode := by
  rw [arrayState_codePtr.1]
  simp [callArrayInstruction, Instruction.encode, operandBytes, Placed]
  decide

theorem arrayState_sexp : Placed arrayMachine.bf (arrayState 10).codePtr (sexpInstruction 0 3).encode := by
  rw [arrayState_codePtr.2.2]
  simp [sexpInstruction, Instruction.encode, operandBytes, Placed]
  decide

/-- The name of the s-expression. -/
theorem arrayState_literal : Literal arrayMachine (arrayState 10) (0 : UInt32).toNat
    [109, 97, 105, 110] (BitVec.ofNat 64 (2 ^ 50)) where
  found := by
    have hlookup : (arrayState 10).stringsMap.lookup (0 : UInt32).toNat = some 0 := by decide +kernel
    have hslot : (arrayState 10).stack (arrayMachine.maxStack - (0 : ℕ) - 1) =
        BitVec.ofNat 64 (2 ^ 50) := by decide +kernel
    rw [getStringPtr, exec_get_bind, hlookup, ← hslot]
    exact readSlot_eq (by decide +kernel)
  even := by decide
  object := by decide +kernel
  ended := by decide

theorem aggregates_right_arrayFile :
    ((∃ s', Step arrayEnv (arrayState 6) s') ∧
      (∀ s', Step arrayEnv (arrayState 6) s' → ∃ relocate heap a, Created arrayMachine (arrayState 6) 2 5
        relocate heap a (.array ((operands (arrayState 6) 2).map relocate)) s') ∧
      operands (arrayState 6) 2 = [boxInt 7, boxInt 8] ∧
      Laws arrayEnv .array ((arrayState 7).stack ((arrayState 7).top + 1)) [boxInt 7, boxInt 8] (arrayState 7)) ∧
    (∀ s', Step arrayEnv (arrayState 10) s' → ∃ relocate heap a, Created arrayMachine (arrayState 10) 3 9
      relocate heap a (.sexp (tagWord [109, 97, 105, 110]) ((operands (arrayState 10) 3).map relocate)) s') ∧
    operands (arrayState 10) 3 = [boxInt 1, boxInt 5, boxInt 6] ∧
    Laws arrayEnv (.sexp [109, 97, 105, 110]) ((arrayState 11).stack ((arrayState 11).top + 1))
      [boxInt 1, boxInt 5, boxInt 6] (arrayState 11) := by
  have hname : TagName [109, 97, 105, 110] := ⟨by decide, boxInt 3412558, by decide +kernel⟩
  obtain ⟨hcreated, -, hlaws⟩ := aggregates_right arrayEnv (k := .array) (t := 0) (n := 2)
    arrayState_callArray (by decide +kernel) (by decide) (by decide +kernel) (by decide +kernel)
    fun name hname => by cases hname
  obtain ⟨hcreated', -, hlaws'⟩ := aggregates_right arrayEnv (k := .sexp [109, 97, 105, 110]) (t := 0) (n := 3)
    arrayState_sexp (by decide +kernel) (by decide) (by decide +kernel) (by decide +kernel) fun name heq => by
      cases heq
      exact ⟨hname, _, arrayState_literal⟩
  refine ⟨⟨⟨_, turn_nextState arrayEnv (by decide +kernel)⟩, hcreated, by decide +kernel,
    hlaws _ _ _ (by decide +kernel) (by decide) arrayState_array⟩, hcreated', by decide +kernel,
    hlaws' _ _ _ (by decide +kernel) (by decide) (by decide +kernel)⟩

end LamaSM
