import LamaSM.Variables
import LamaSM.HandlerEffects
import LamaSM.Lib.Bytes

/-! Assignment through a reference, compared with direct assignment.

    STI and STA copy in the wrong direction: they store what the reference points to at the address
    the value stands for. So `LDA x; v; STI` assigns `v` to `x` only where there is nothing to
    assign. -/

namespace LamaSM
open Lib

/-! ### Words behind an address -/

/-- The first word of the contents of an object. The contents of a string hold at least the null byte
    at their end; where they are shorter than a word the slack fills it up. -/
def Obj.firstWord (slack : ℕ → UInt8) : Obj → Option Word
  | .string [] => none
  | .string (b :: bs) => some (wordOfBytes (firstBytes (b :: bs) slack))
  | .array elems => elems.head?
  | .sexp tag _ => some tag
  | .closure entry _ => some entry

/-- The object with another first word. -/
def Obj.setFirst (w : Word) : Obj → Obj
  | .string contents => .string (putFirst w contents)
  | .array elems => .array (w :: elems.tail)
  | .sexp _ fields => .sexp w fields
  | .closure _ captured => .closure w captured

/-- The slack behind the object with another first word. -/
def Obj.setSlack (w : Word) (slack : ℕ → UInt8) : Obj → ℕ → UInt8
  | .string contents => putSlack w contents slack
  | _ => slack

/-- The word at an address: a slot of the stack, or the first word of an object. -/
def wordAt (M : Machine) (s : State) (ptr : Word) : Option Word :=
  match (M.slotOf ptr).filter fun i : ℤ => 0 ≤ i ∧ i < M.maxStack with
  | some i => some (s.stack i)
  | none => (s.heap ptr).bind (Obj.firstWord (s.slack ptr))

theorem wordBytes_eq (w : Word) : wordBytes w = digits 8 w.toNat := by
  simp only [wordBytes, List.range, List.range.loop, List.map, digits, Nat.div_div_eq_div_mul,
    ← Nat.pow_add, Nat.reduceAdd, Nat.reduceMul, Nat.pow_zero, Nat.div_one]

theorem wordOfBytes_eq : ∀ bs : List UInt8, wordOfBytes bs = BitVec.ofNat 64 (byteValue bs)
  | [] => rfl
  | b :: bs => by
    rw [wordOfBytes, wordOfBytes_eq bs, byteValue]
    apply BitVec.eq_of_toNat_eq
    simp only [BitVec.toNat_ofNat]
    omega

theorem wordOfBytes_wordBytes (w : Word) : wordOfBytes (wordBytes w) = w := by
  rw [wordOfBytes_eq, wordBytes_eq, byteValue_digits]
  apply BitVec.eq_of_toNat_eq
  rw [BitVec.toNat_ofNat]
  have hlt := w.isLt
  omega

theorem byteValue_lt : ∀ bs : List UInt8, byteValue bs < 2 ^ (8 * bs.length)
  | [] => by simp [byteValue]
  | b :: bs => by
    have hb := b.toNat_lt
    have hrest := byteValue_lt bs
    rw [List.length_cons, byteValue, show 8 * (bs.length + 1) = 8 + 8 * bs.length by omega, Nat.pow_add]
    omega

theorem wordBytes_wordOfBytes {bs : List UInt8} (h : bs.length = 8) : wordBytes (wordOfBytes bs) = bs := by
  have hlt := byteValue_lt bs
  have hdigits := digits_byteValue bs
  rw [h] at hlt hdigits
  rw [wordOfBytes_eq, wordBytes_eq, BitVec.toNat_ofNat, Nat.mod_eq_of_lt hlt, hdigits]

@[simp] theorem length_wordBytes (w : Word) : (wordBytes w).length = 8 := by simp [wordBytes]

@[simp] theorem length_firstBytes (contents : List UInt8) (slack : ℕ → UInt8) :
    (firstBytes contents slack).length = 8 := by simp [firstBytes]

theorem getElem?_firstBytes (contents : List UInt8) (slack : ℕ → UInt8) {i : ℕ} (hi : i < 8) :
    (firstBytes contents slack)[i]? = some (contents.getD i (slack i)) := by
  rw [firstBytes, List.getElem?_map, List.getElem?_range hi]
  rfl

@[simp] theorem length_putFirst (w : Word) (contents : List UInt8) :
    (putFirst w contents).length = contents.length := by
  rw [putFirst, List.length_take, List.length_append, length_wordBytes, List.length_drop]
  omega

/-- The bytes of a word that is written lie in the contents and in the slack behind them. -/
theorem firstBytes_put (w : Word) (contents : List UInt8) (slack : ℕ → UInt8) :
    firstBytes (putFirst w contents) (putSlack w contents slack) = wordBytes w := by
  refine List.ext_getElem? fun i => ?_
  by_cases hi : i < 8
  · obtain ⟨b, hword⟩ : ∃ b, (wordBytes w)[i]? = some b := ⟨_, List.getElem?_eq_getElem (by simpa using hi)⟩
    rw [getElem?_firstBytes _ _ hi, hword, List.getD_eq_getElem?_getD]
    by_cases hlen : contents.length ≤ i
    · rw [List.getElem?_eq_none (by simpa using hlen), putSlack, if_pos hlen, List.getD_eq_getElem?_getD, hword]
      rfl
    · have hput : (putFirst w contents)[i]? = (wordBytes w)[i]? := by
        rw [putFirst, List.getElem?_take_of_lt (by omega), List.getElem?_append_left (by simpa using hi)]
      rw [hput, hword]
      rfl
  · rw [List.getElem?_eq_none (by simpa using hi), List.getElem?_eq_none (by simpa using hi)]

/-- Writing back what is there changes neither the contents -/
theorem putFirst_firstBytes {w : Word} {contents : List UInt8} {slack : ℕ → UInt8}
    (hw : wordBytes w = firstBytes contents slack) : putFirst w contents = contents := by
  refine List.ext_getElem? fun i => ?_
  by_cases hlen : i < contents.length
  · rw [putFirst, List.getElem?_take_of_lt hlen]
    by_cases hi : i < 8
    · rw [List.getElem?_append_left (by simpa using hi), hw, getElem?_firstBytes _ _ hi,
        List.getD_eq_getElem?_getD, List.getElem?_eq_getElem hlen]
      rfl
    · rw [List.getElem?_append_right (by simpa using hi), length_wordBytes, List.getElem?_drop,
        Nat.add_sub_cancel' (Nat.not_lt.mp hi)]
  · rw [List.getElem?_eq_none (by simpa using hlen), List.getElem?_eq_none (by omega)]

/-- nor the slack. -/
theorem putSlack_firstBytes {w : Word} {contents : List UInt8} {slack : ℕ → UInt8}
    (hw : wordBytes w = firstBytes contents slack) : putSlack w contents slack = slack := by
  funext i
  rw [putSlack]
  split_ifs with hlen
  · rw [hw]
    by_cases hi : i < 8
    · rw [List.getD_eq_getElem?_getD, getElem?_firstBytes _ _ hi, Option.getD_some,
        List.getD_eq_getElem?_getD, List.getElem?_eq_none hlen]
      rfl
    · rw [List.getD_eq_getElem?_getD, List.getElem?_eq_none (by simpa using hi)]
      rfl
  · rfl

/-- A first word that is written is read back. -/
theorem Obj.firstWord_setFirst (w : Word) {o : Obj} {slack : ℕ → UInt8} (h : (o.firstWord slack).isSome) :
    (o.setFirst w).firstWord (o.setSlack w slack) = some w := by
  cases o with
  | string contents =>
    have hbytes := firstBytes_put w contents slack
    have hlen := length_putFirst w contents
    rw [setFirst, setSlack]
    cases hput : putFirst w contents with
    | nil =>
      rw [hput] at hlen
      rw [List.eq_nil_of_length_eq_zero hlen.symm] at h
      cases h
    | cons b bs => rw [firstWord, ← hput, hbytes, wordOfBytes_wordBytes]
  | array elems => rfl
  | sexp tag fields => rfl
  | closure entry captured => rfl

/-- Writing the first word an object has changes nothing. -/
theorem Obj.setFirst_firstWord {w : Word} {o : Obj} {slack : ℕ → UInt8} (h : o.firstWord slack = some w) :
    o.setFirst w = o ∧ o.setSlack w slack = slack := by
  cases o with
  | string contents =>
    cases contents with
    | nil => cases h
    | cons b bs =>
      have hbytes := wordBytes_wordOfBytes (length_firstBytes (b :: bs) slack)
      rw [Option.some.inj h] at hbytes
      exact ⟨congrArg Obj.string (putFirst_firstBytes hbytes), putSlack_firstBytes hbytes⟩
  | array elems =>
    cases elems with
    | nil => cases h
    | cons x xs => cases h; exact ⟨rfl, rfl⟩
  | sexp tag fields => cases h; exact ⟨rfl, rfl⟩
  | closure entry captured => cases h; exact ⟨rfl, rfl⟩

section Words

variable {M : Machine} {s : State} {ptr : Word} {j : ℤ}

theorem wordAt_slot (hj : M.slotOf ptr = some j) (hr : 0 ≤ j ∧ j < M.maxStack) :
    wordAt M s ptr = some (s.stack j) := by
  rw [wordAt, hj, Option.filter_some, if_pos (by simpa using hr)]

/-- The address is no slot of the stack. -/
def NoSlot (M : Machine) (ptr : Word) : Prop :=
  ∀ j, M.slotOf ptr = some j → ¬ (0 ≤ j ∧ j < M.maxStack)

theorem wordAt_object (hno : NoSlot M ptr) : wordAt M s ptr = (s.heap ptr).bind (Obj.firstWord (s.slack ptr)) := by
  rw [wordAt]
  cases hj : M.slotOf ptr with
  | none => rfl
  | some j => rw [Option.filter_some, if_neg (by simpa using hno j hj)]

/-- What an address can lead to. -/
inductive Target (M : Machine) (s : State) (ptr : Word) : Prop
  | slot {j : ℤ} (isSlot : M.slotOf ptr = some j) (range : 0 ≤ j ∧ j < M.maxStack) : Target M s ptr
  | object {o : Obj} {w : Word} (noSlot : NoSlot M ptr) (present : s.heap ptr = some o)
      (first : o.firstWord (s.slack ptr) = some w) : Target M s ptr
  | nothing (noSlot : NoSlot M ptr) (none : (s.heap ptr).bind (Obj.firstWord (s.slack ptr)) = none) :
    Target M s ptr

theorem target (M : Machine) (s : State) (ptr : Word) : Target M s ptr := by
  by_cases hslot : ∃ j, M.slotOf ptr = some j ∧ 0 ≤ j ∧ j < M.maxStack
  · obtain ⟨j, hj, hr⟩ := hslot
    exact .slot hj hr
  · have hno : NoSlot M ptr := fun j hj hr => hslot ⟨j, hj, hr⟩
    cases hw : (s.heap ptr).bind (Obj.firstWord (s.slack ptr)) with
    | none => exact .nothing hno hw
    | some w =>
      obtain ⟨o, ho, hw⟩ := Option.bind_eq_some_iff.mp hw
      exact .object hno ho hw

/-- Each operation goes to the slot, where the address is one, and to the object otherwise. -/
theorem loadWord_noSlot (hno : NoSlot M ptr) : loadWord M ptr s = loadWord.loadObj ptr s := by
  rw [loadWord]
  cases hj : M.slotOf ptr with
  | none => rfl
  | some j => exact if_neg (hno j hj)

theorem storeWord_noSlot (hno : NoSlot M ptr) (w : Word) :
    storeWord M ptr w s = storeWord.storeObj ptr w s := by
  rw [storeWord]
  cases hj : M.slotOf ptr with
  | none => rfl
  | some j => exact if_neg (hno j hj)

theorem loadWord_eq (ptr : Word) : loadWord M ptr s = match wordAt M s ptr with
    | some w => .ok w s
    | none => .error (.undefined (.object ptr.toNat)) s := by
  by_cases hslot : ∃ j, M.slotOf ptr = some j ∧ 0 ≤ j ∧ j < M.maxStack
  · obtain ⟨j, hj, hr⟩ := hslot
    rw [wordAt_slot hj hr, loadWord, hj]
    exact if_pos hr
  · have hno : NoSlot M ptr := fun j hj hr => hslot ⟨j, hj, hr⟩
    rw [loadWord_noSlot hno, wordAt_object hno, loadWord.loadObj]
    cases hobj : s.heap ptr with
    | none => rfl
    | some o =>
      cases o with
      | string contents => cases contents <;> rfl
      | array elems => cases elems <;> rfl
      | sexp tag fields => rfl
      | closure entry captured => rfl

theorem storeWord_slot (hj : M.slotOf ptr = some j) (hr : 0 ≤ j ∧ j < M.maxStack) (w : Word) :
    storeWord M ptr w s = .ok () { s with stack := Function.update s.stack j w } := by
  rw [storeWord, hj]
  exact if_pos hr

theorem storeWord_object (hno : NoSlot M ptr) {o : Obj} {x : Word} (ho : s.heap ptr = some o)
    (hx : o.firstWord (s.slack ptr) = some x) (w : Word) : storeWord M ptr w s = .ok () { s with
      heap := Function.update s.heap ptr (some (o.setFirst w))
      slack := Function.update s.slack ptr (o.setSlack w (s.slack ptr)) } := by
  have hkept : Function.update s.slack ptr (s.slack ptr) = s.slack := Function.update_eq_self ptr s.slack
  rw [storeWord_noSlot hno, storeWord.storeObj, ho]
  cases o with
  | string contents =>
    cases contents with
    | nil => cases hx
    | cons b bs => rfl
  | array elems =>
    cases elems with
    | nil => cases hx
    | cons y ys =>
      simp only [Obj.setSlack, hkept]
      rfl
  | sexp tag fields =>
    simp only [Obj.setSlack, hkept]
    rfl
  | closure entry captured =>
    simp only [Obj.setSlack, hkept]
    rfl

theorem storeWord_nothing (hno : NoSlot M ptr)
    (hnone : (s.heap ptr).bind (Obj.firstWord (s.slack ptr)) = none)
    (w : Word) : storeWord M ptr w s = .error (.undefined (.object ptr.toNat)) s := by
  rw [storeWord_noSlot hno, storeWord.storeObj]
  cases ho : s.heap ptr with
  | none => rfl
  | some o =>
    rw [ho, Option.bind_some] at hnone
    cases o with
    | string contents =>
      cases contents with
      | nil => rfl
      | cons b bs => cases hnone
    | array elems =>
      cases elems with
      | nil => rfl
      | cons y ys => cases hnone
    | sexp tag fields => cases hnone
    | closure entry captured => cases hnone

end Words

/-! ### The two assignments -/

/-- LDA, a push of `v`, and STI or STA -/
def assignThrough (M : Machine) (indirect : Exec Unit) (v : Word) : Exec Unit := do
  stackLda M
  pushOp M v
  indirect

/-- A push of `v`, and ST -/
def assignDirectly (M : Machine) (v : Word) : Exec Unit := do
  pushOp M v
  memStore M

/-- The two states have the same variables in all activations, heap (every byte of it) and operands. -/
structure SameVariables (s s' : State) : Prop where
  frames : SameFrames s s'
  top : s'.top = s.top
  heap : s'.heap = s.heap
  slack : s'.slack = s.slack
  words : ∀ i, s.top < i → s'.stack i = s.stack i

/-- From `s`, both assignments go through and end in the same state; the code of ST is at `o`. -/
def AssignsAlike (M : Machine) (indirect : Exec Unit) (v : Word) (o : ℤ) (s : State) : Prop :=
  ∃ t t', assignThrough M indirect v s = .ok () t ∧
    assignDirectly M v { s with codePtr := o } = .ok () t' ∧ SameVariables t t'

section Assignments

variable {M : Machine} {s : State} {indirect : Exec Unit} {ptr v : Word} {d : MemVar} {n : UInt32} {o : ℤ}

/-- STI and STA with a reference load from the reference and store to the value. -/
theorem indirect_eq (h : indirect = stackSti M ∨ indirect = stackSta M)
    (hi : isBoxedInt (s.stack (s.top + 2)) = false) (htop : 0 ≤ s.top + 1 ∧ s.top + 2 < M.maxStack) :
    indirect s = (do
      let w ← loadWord M (s.stack (s.top + 2))
      storeWord M (s.stack (s.top + 1)) w
      pushOp M (s.stack (s.top + 1))) { s with
        codePtr := s.codePtr + 1, top := s.top + 2
        touched := max (max s.touched (s.top + 1)) (s.top + 2) } := by
  have heven : ¬ isBoxedInt (s.stack (s.top + 2)) = true := by simp [hi]
  have hadvance : advance 1 s = .ok () { s with codePtr := s.codePtr + 1 } := rfl
  rcases h with rfl | rfl
  · rw [stackSti, exec_bind_of_ok hadvance]
    refine (pop_two (s := { s with codePtr := s.codePtr + 1 }) htop).trans ?_
    exact congrFun (if_neg heven) _
  · rw [stackSta, exec_bind_of_ok hadvance]
    refine (pop_two (s := { s with codePtr := s.codePtr + 1 }) htop).trans ?_
    exact congrFun (if_neg heven) _

/-- The state in which STI and STA have taken the value `v` and the reference `ptr`. -/
def referenceState (s : State) (ptr v : Word) : State := { s with
  codePtr := s.codePtr + 6
  stack := Function.update (Function.update s.stack s.top ptr) (s.top - 1) v
  touched := max (max s.touched (s.top - 1)) s.top }

/-- The state behind LDA and the push of `v`. -/
theorem stackLda_pushOp (known : d.isOther = false)
    (h : Placed M.bf s.codePtr (ldaInstruction d n).encode)
    (hlink : getVariableLink M d n.toNat { s with codePtr := s.codePtr + 5 } =
      .ok ptr { s with codePtr := s.codePtr + 5 }) (htop : 1 ≤ s.top ∧ s.top < M.maxStack) :
    assignThrough M indirect v s = indirect { s with
      codePtr := s.codePtr + 5, top := s.top - 2
      stack := Function.update (Function.update s.stack s.top ptr) (s.top - 1) v } := by
  have hpush := pushOp_eq (M := M) (s := { s with codePtr := s.codePtr + 5 }) ptr
    (by dsimp only; omega)
  have hpush' := pushOp_eq (M := M) (s := { s with
    codePtr := s.codePtr + 5, top := s.top - 1, stack := Function.update s.stack s.top ptr }) v
    (by dsimp only; omega)
  have hlda : stackLda M s = .ok () { s with
      codePtr := s.codePtr + 5, top := s.top - 1, stack := Function.update s.stack s.top ptr } := by
    rw [stackLda_eq known h, exec_bind_of_ok hlink]
    exact hpush
  rw [assignThrough, exec_bind_of_ok hlda, exec_bind_of_ok hpush']
  dsimp only
  rw [show s.top - 1 - 1 = s.top - 2 by omega]

theorem assignThrough_eq (h : indirect = stackSti M ∨ indirect = stackSta M)
    (known : d.isOther = false) (hcode : Placed M.bf s.codePtr (ldaInstruction d n).encode)
    (hlink : getVariableLink M d n.toNat { s with codePtr := s.codePtr + 5 } =
      .ok ptr { s with codePtr := s.codePtr + 5 }) (heven : isBoxedInt ptr = false)
    (htop : 1 ≤ s.top ∧ s.top < M.maxStack) :
    assignThrough M indirect v s = (do
      let w ← loadWord M ptr
      storeWord M v w
      pushOp M v) (referenceState s ptr v) := by
  have hone : s.top - 2 + 1 = s.top - 1 := by omega
  have htwo : s.top - 2 + 2 = s.top := by omega
  have hcodePtr : s.codePtr + 5 + 1 = s.codePtr + 6 := by omega
  have hv : Function.update (Function.update s.stack s.top ptr) (s.top - 1) v (s.top - 1) = v :=
    Function.update_self ..
  have hptr : Function.update (Function.update s.stack s.top ptr) (s.top - 1) v s.top = ptr := by
    rw [Function.update_of_ne (by omega), Function.update_self]
  have hindirect := indirect_eq (s := { s with
    codePtr := s.codePtr + 5, top := s.top - 2
    stack := Function.update (Function.update s.stack s.top ptr) (s.top - 1) v }) h
    (by dsimp only; rw [htwo, hptr]; exact heven) (by dsimp only; omega)
  dsimp only at hindirect
  rw [hone, htwo, hv, hptr, hcodePtr] at hindirect
  rw [stackLda_pushOp known hcode hlink htop, hindirect, referenceState]

/-- The state in which ST stores the value `v`. -/
def directState (s : State) (v : Word) (o : ℤ) : State := { s with
  codePtr := o + 5, top := s.top - 1, stack := Function.update s.stack s.top v
  touched := max s.touched s.top }

theorem assignDirectly_eq (known : d.isOther = false)
    (hcode : Placed M.bf o (stInstruction d n).encode) (htop : 0 ≤ s.top ∧ s.top < M.maxStack) :
    assignDirectly M v { s with codePtr := o } = setVariable M d n.toNat v (directState s v o) := by
  have hone : s.top - 1 + 1 = s.top := by omega
  have hpush := pushOp_eq (M := M) (s := { s with codePtr := o }) v htop
  have hpeek := peekOp_eq (M := M) (s := { s with
    codePtr := o + 5, top := s.top - 1, stack := Function.update s.stack s.top v })
    (by dsimp only; omega)
  dsimp only at hpeek
  rw [hone, Function.update_self] at hpeek
  rw [assignDirectly, exec_bind_of_ok hpush]
  have hstore := memStore_eq (s := { s with
    codePtr := o, top := s.top - 1, stack := Function.update s.stack s.top v }) known hcode
  rw [exec_bind_of_ok hpeek] at hstore
  exact hstore

theorem referenceState_stack {i : ℤ} (hi : s.top < i) :
    (referenceState s ptr v).stack i = s.stack i := by
  show Function.update (Function.update s.stack s.top ptr) (s.top - 1) v i = _
  rw [Function.update_of_ne (by omega), Function.update_of_ne (by omega)]

theorem isBoxedInt_slotAddr {k : ℤ} (h0 : 0 ≤ k) (hk : k ≤ M.maxStack) :
    isBoxedInt (M.slotAddr k) = false := by
  have haddr := Machine.slotAddr_toNat (M := M) (i := k) (by unfold Machine.nullSlot; omega) hk
  rw [isBoxedInt, beq_eq_false_iff_ne]
  omega

/-! ### Variables in a slot -/

/-- The address is that of a slot below the operands, or the word behind it is the address itself. -/
def Inert (M : Machine) (s : State) (v : Word) : Prop :=
  (∃ j, M.slotOf v = some j ∧ 0 ≤ j ∧ j ≤ s.top) ∨ wordAt M s v = some v

section Slot

variable {k : ℤ}

theorem Running.top_lt (hrun : Running M s) : s.top < M.maxStack := by
  obtain ⟨-, hle, hfloor, hlast, hinit, -⟩ := hrun.borders
  have hglobals := hrun.globals
  omega

theorem InRange.known {i : ℕ} (hr : InRange M s d i) : d.isOther = false := by
  cases d <;> first | rfl | cases hr

/-- The reference to a variable in a slot leads to its value. -/
theorem assignThrough_slot (hrun : Running M s) (h : indirect = stackSti M ∨ indirect = stackSta M)
    (hr : InRange M s d n.toNat) (hk : slotOfVariable M s d n.toNat = some k)
    (hcode : Placed M.bf s.codePtr (ldaInstruction d n).encode) (htop : 1 ≤ s.top) :
    assignThrough M indirect v s = (do
      storeWord M v (s.stack k)
      pushOp M v) (referenceState s (M.slotAddr k) v) := by
  obtain ⟨hlow, h0, hM⟩ := hrun.slot_range hr hk
  have hsame : SameFrames s { s with codePtr := s.codePtr + 5 } := ⟨rfl, rfl, rfl, rfl⟩
  have hlink := getVariableLink_slot (hsame.slotOfVariable_eq.trans hk)
  have hload : loadWord M (M.slotAddr k) (referenceState s (M.slotAddr k) v) =
      .ok (s.stack k) (referenceState s (M.slotAddr k) v) := by
    have hslot := Machine.slotOf_slotAddr (M := M) (i := k)
      (by unfold Machine.nullSlot; omega) (Int.le_of_lt hM)
    rw [loadWord_eq, wordAt_slot hslot ⟨h0, hM⟩, referenceState_stack hlow]
  rw [assignThrough_eq h hr.known hcode hlink (isBoxedInt_slotAddr h0 (Int.le_of_lt hM))
    ⟨htop, hrun.top_lt⟩]
  exact exec_bind_of_ok hload

theorem assignDirectly_slot (hrun : Running M s) (hr : InRange M s d n.toNat)
    (hk : slotOfVariable M s d n.toNat = some k)
    (hcode : Placed M.bf o (stInstruction d n).encode) (htop : 1 ≤ s.top) :
    assignDirectly M v { s with codePtr := o } = .ok () { s with
      codePtr := o + 5, top := s.top - 1, touched := max s.touched s.top
      stack := Function.update (Function.update s.stack s.top v) k v } := by
  have hsame : SameFrames s (directState s v o) := ⟨rfl, rfl, rfl, rfl⟩
  rw [assignDirectly_eq hr.known hcode ⟨by omega, hrun.top_lt⟩,
    setVariable_slot (hsame.slotOfVariable_eq.trans hk), writeSlot_eq v (hrun.slot_range hr hk).2]
  rfl

/-- Both assignments agree on a variable in a slot only where it already holds the value. -/
theorem holds_of_words {f : ℤ → Word} (hk : s.top < k)
    (hwords : ∀ i, s.top - 1 < i → Function.update (Function.update s.stack s.top v) k v i =
      Function.update f s.top v i) (hf : f k = s.stack k) : s.stack k = v := by
  have hvalue := hwords k (by omega)
  rw [Function.update_self, Function.update_of_ne (by omega), hf] at hvalue
  exact hvalue.symm

theorem words_of_holds {f : ℤ → Word} (hk : s.top < k) (hv : s.stack k = v)
    (hf : ∀ i, s.top < i → f i = s.stack i) {i : ℤ} (hi : s.top - 1 < i) :
    Function.update (Function.update s.stack s.top v) k v i = Function.update f s.top v i := by
  by_cases hik : i = k
  · rw [hik, Function.update_self, Function.update_of_ne (by omega), hf k hk, hv]
  · rw [Function.update_of_ne hik]
    by_cases hit : i = s.top
    · rw [hit, Function.update_self, Function.update_self]
    · rw [Function.update_of_ne hit, Function.update_of_ne hit, hf i (by omega)]

/-- The last push of STI and STA brings the state of ST when the words and the heap are the same. -/
theorem alike_iff_words {u t' : State} (hthrough : assignThrough M indirect v s = pushOp M v u)
    (hdirect : assignDirectly M v { s with codePtr := o } = .ok () t') (hu : SameFrames s u)
    (hutop : u.top = s.top) (ht' : SameFrames s t') (ht'top : t'.top = s.top - 1)
    (hroom : 0 ≤ s.top ∧ s.top < M.maxStack) :
    AssignsAlike M indirect v o s ↔ t'.heap = u.heap ∧ t'.slack = u.slack ∧
      ∀ i, s.top - 1 < i → t'.stack i = Function.update u.stack s.top v i := by
  have hpush := pushOp_eq (M := M) (s := u) v (by rw [hutop]; exact hroom)
  rw [hutop] at hpush
  rw [AssignsAlike, hthrough, hdirect, hpush]
  constructor
  · rintro ⟨t, t'', ht, ht'', hsame⟩
    cases ht
    cases ht''
    exact ⟨hsame.heap, hsame.slack, hsame.words⟩
  · rintro ⟨hheap, hslack, hwords⟩
    refine ⟨_, _, rfl, rfl, ⟨?_, ?_, ?_, ?_⟩, ht'top, hheap, hslack, hwords⟩
    · exact ht'.fp.trans hu.fp.symm
    · exact ht'.argSizes.trans hu.argSizes.symm
    · exact ht'.activations.trans hu.activations.symm
    · exact ht'.stringCounter.trans hu.stringCounter.symm

theorem slot_alike_iff (hrun : Running M s) (h : indirect = stackSti M ∨ indirect = stackSta M)
    (hr : InRange M s d n.toNat) (hk : slotOfVariable M s d n.toNat = some k)
    (hlda : Placed M.bf s.codePtr (ldaInstruction d n).encode)
    (hst : Placed M.bf o (stInstruction d n).encode) (htop : 1 ≤ s.top) :
    AssignsAlike M indirect v o s ↔ s.stack k = v ∧ Inert M s v := by
  have hlow := (hrun.slot_range hr hk).1
  have hroom : 0 ≤ s.top ∧ s.top < M.maxStack := ⟨by omega, hrun.top_lt⟩
  have hthrough := assignThrough_slot (v := v) hrun h hr hk hlda htop
  have hdirect := assignDirectly_slot (v := v) hrun hr hk hst htop
  have hstack (i : ℤ) (hi : s.top < i) : (referenceState s (M.slotAddr k) v).stack i = s.stack i :=
    referenceState_stack hi
  cases target M (referenceState s (M.slotAddr k) v) v with
  | @slot j isSlot range =>
    rw [exec_bind_of_ok (storeWord_slot isSlot range (s.stack k))] at hthrough
    rw [alike_iff_words hthrough hdirect ⟨rfl, rfl, rfl, rfl⟩ rfl ⟨rfl, rfl, rfl, rfl⟩ rfl hroom]
    dsimp only
    constructor
    · rintro ⟨-, -, hwords⟩
      have hvalue : s.stack k = v := by
        refine holds_of_words hlow hwords ?_
        by_cases hkj : k = j
        · rw [hkj, Function.update_self]
        · rw [Function.update_of_ne hkj, hstack k hlow]
      refine ⟨hvalue, ?_⟩
      by_cases hj : j ≤ s.top
      · exact .inl ⟨j, isSlot, range.1, hj⟩
      · refine .inr ?_
        rw [wordAt_slot isSlot range]
        by_cases hjk : j = k
        · rw [hjk, hvalue]
        · have htop' : j ≠ s.top := by omega
          have hword := hwords j (by omega)
          rw [Function.update_of_ne hjk, Function.update_of_ne htop', Function.update_of_ne htop',
            Function.update_self, hvalue] at hword
          rw [hword]
    · rintro ⟨hvalue, hinert⟩
      refine ⟨rfl, rfl, fun i hi => words_of_holds hlow hvalue (fun i hi => ?_) hi⟩
      by_cases hij : i = j
      · rcases hinert with ⟨j', hj', -, hle⟩ | hword
        · rw [isSlot] at hj'
          cases hj'
          omega
        · rw [wordAt_slot isSlot range] at hword
          rw [hij, Function.update_self, hvalue, Option.some.inj hword]
      · rw [Function.update_of_ne hij, hstack i hi]
  | @object obj w noSlot present first =>
    rw [exec_bind_of_ok (storeWord_object noSlot present first (s.stack k))] at hthrough
    rw [alike_iff_words hthrough hdirect ⟨rfl, rfl, rfl, rfl⟩ rfl ⟨rfl, rfl, rfl, rfl⟩ rfl hroom]
    dsimp only
    have hword : wordAt M s v = some w := by
      rw [wordAt_object noSlot, show s.heap v = some obj from present]
      exact first
    constructor
    · rintro ⟨hheap, hslack, hwords⟩
      have hvalue := holds_of_words hlow hwords (hstack k hlow)
      refine ⟨hvalue, .inr ?_⟩
      have hsame : obj = obj.setFirst (s.stack k) := Option.some.inj
        (present.symm.trans ((congrFun hheap v).trans (Function.update_self ..)))
      have hslack' : s.slack v = obj.setSlack (s.stack k) (s.slack v) :=
        (congrFun hslack v).trans (Function.update_self ..)
      have hread := @Obj.firstWord_setFirst (s.stack k) obj (s.slack v)
        (by rw [show obj.firstWord (s.slack v) = _ from first]; rfl)
      rw [← hsame, ← hslack', show obj.firstWord (s.slack v) = _ from first, hvalue] at hread
      rw [hword, hread]
    · rintro ⟨hvalue, ⟨j, hj, h0, hle⟩ | hword'⟩
      · exact absurd ⟨h0, by omega⟩ (noSlot j hj)
      · rw [hword] at hword'
        cases hword'
        obtain ⟨hobj, hbytes⟩ := Obj.setFirst_firstWord first
        refine ⟨?_, ?_, fun i hi => words_of_holds hlow hvalue hstack hi⟩
        · rw [hvalue, hobj, ← present]
          exact (Function.update_eq_self v _).symm
        · rw [hvalue, hbytes]
          exact (Function.update_eq_self v _).symm
  | nothing noSlot none =>
    rw [AssignsAlike, hthrough, exec_bind_of_error (storeWord_nothing noSlot none (s.stack k))]
    constructor
    · rintro ⟨t, t', ht, -⟩
      cases ht
    · rintro ⟨-, ⟨j, hj, h0, hle⟩ | hword⟩
      · exact absurd ⟨h0, by omega⟩ (noSlot j hj)
      · rw [wordAt_object noSlot, show (s.heap v).bind (Obj.firstWord (s.slack v)) = _ from none] at hword
        cases hword

end Slot

/-! ### Captured variables -/

section Captured

variable {c : Word}

/-- LDA on a captured variable pushes its value, not its address. -/
theorem Running.closureLink (hrun : Running M s) (hr : InRange M s .closure n.toNat)
    (hc : HasValue M s .closure n.toNat c) :
    getVariableLink M .closure n.toNat { s with codePtr := s.codePtr + 5 } =
      .ok c { s with codePtr := s.codePtr + 5 } := by
  have hsame : SameFrames s { s with codePtr := s.codePtr + 5 } := ⟨rfl, rfl, rfl, rfl⟩
  exact hrun.hasValue_of_eq hsame rfl hr hc (fun _ _ => rfl) fun _ => ⟨rfl, rfl⟩

theorem assignDirectly_closure (hrun : Running M s) (hr : InRange M s .closure n.toNat)
    (hcode : Placed M.bf o (stInstruction .closure n).encode) (htop : 1 ≤ s.top) :
    ∃ entry, s.heap (s.stack s.closureSlot) = some (.closure entry s.captured) ∧
      assignDirectly M v { s with codePtr := o } = .ok () { s with
        codePtr := o + 5, top := s.top - 1, touched := max s.touched s.top
        stack := Function.update s.stack s.top v
        heap := Function.update s.heap (s.stack s.closureSlot)
          (some (.closure entry (s.captured.set n.toNat v))) } := by
  have hsame : SameFrames s (directState s v o) := ⟨rfl, rfl, rfl, rfl⟩
  have hslot : (directState s v o).stack s.closureSlot = s.stack s.closureSlot := by
    have hclosure := (hrun.closurePtr_eq (State.captured_object hr.1).1).2
    obtain ⟨-, hle, hfloor, -⟩ := hrun.borders
    exact Function.update_of_ne (by omega) ..
  have hcaptured : (directState s v o).captured = s.captured := hsame.captured_eq rfl fun _ => hslot
  have hrun' : Running M (directState s v o) :=
    hrun.of_lower hsame (by show -1 ≤ s.top - 1; omega) (by show s.top - 1 ≤ s.top; omega)
  obtain ⟨entry, hobj, hset⟩ := hrun'.setClosure_eq ((hsame.inRange (by rw [hcaptured])).mpr hr) v
  rw [hsame.closureSlot_eq, hslot, hcaptured] at hobj hset
  refine ⟨entry, hobj, ?_⟩
  rw [assignDirectly_eq rfl hcode ⟨by omega, hrun.top_lt⟩]
  exact hset

/-- STI throws on a boxed reference, and STA takes a third operand. -/
theorem boxed_indirect {t : State} (h : indirect = stackSti M ∨ indirect = stackSta M)
    (hboxed : isBoxedInt (s.stack (s.top + 2)) = true)
    (htop : 0 ≤ s.top + 1 ∧ s.top + 2 < M.maxStack) (ht : indirect s = .ok () t) :
    t.top = s.top + 2 := by
  have hadvance : advance 1 s = .ok () { s with codePtr := s.codePtr + 1 } := rfl
  rcases h with rfl | rfl
  · rw [stackSti, exec_bind_of_ok hadvance] at ht
    replace ht := (pop_two (s := { s with codePtr := s.codePtr + 1 }) htop).symm.trans ht
    rw [if_pos hboxed] at ht
    cases ht
  · rw [stackSta, exec_bind_of_ok hadvance] at ht
    replace ht := (pop_two (s := { s with codePtr := s.codePtr + 1 }) htop).symm.trans ht
    rw [if_pos hboxed, exec_bind_ok] at ht
    obtain ⟨x, s₁, hpeek, ht⟩ := ht
    obtain ⟨rfl, -, -⟩ := peekOp_ok hpeek
    obtain ⟨_, s₂, hpop, ht⟩ := exec_bind_ok.mp ht
    cases hpop
    obtain ⟨_, s₃, hsta, ht⟩ := exec_bind_ok.mp ht
    have hstill := (quiet_Bsta hboxed _).of_ok (Still.refl _) hsta
    have hlast := hstill.top
    obtain ⟨rfl, -⟩ := pushOp_ok ht
    dsimp only at hlast ⊢
    omega

/-- With a boxed value in the captured variable, neither STI nor STA assigns. -/
theorem boxed_not_alike (hrun : Running M s) (h : indirect = stackSti M ∨ indirect = stackSta M)
    (hr : InRange M s .closure n.toNat) (hc : HasValue M s .closure n.toNat c)
    (hboxed : isBoxedInt c = true)
    (hlda : Placed M.bf s.codePtr (ldaInstruction .closure n).encode)
    (hst : Placed M.bf o (stInstruction .closure n).encode) (htop : 1 ≤ s.top) :
    ¬ AssignsAlike M indirect v o s := by
  rintro ⟨t, t', ht, ht', hsame⟩
  have htwo : s.top - 2 + 2 = s.top := by omega
  obtain ⟨entry, -, hdirect⟩ := assignDirectly_closure (v := v) hrun hr hst htop
  rw [hdirect] at ht'
  cases ht'
  rw [stackLda_pushOp rfl hlda (hrun.closureLink hr hc) ⟨htop, hrun.top_lt⟩] at ht
  have hlast := boxed_indirect h (by
    dsimp only
    rw [htwo, Function.update_of_ne (by omega), Function.update_self]
    exact hboxed) (by have hlt := hrun.top_lt; dsimp only; omega) ht
  have heq := hsame.top
  dsimp only at heq hlast
  omega

/-- The closure is the same behind ST when the variable already holds the value. -/
theorem captured_set_eq {captured : List Word} {i : ℕ} (hc : captured[i]? = some c) :
    captured.set i v = captured ↔ c = v := by
  obtain ⟨hlt, hget⟩ := List.getElem?_eq_some_iff.mp hc
  constructor
  · intro heq
    have hset : (captured.set i v)[i]? = some v := List.getElem?_set_self hlt
    rw [heq, hc] at hset
    exact Option.some.inj hset
  · rintro rfl
    rw [← hget]
    exact List.set_getElem_self hlt

/-- Whether there is a word behind an address does not depend on the words of the stack. -/
theorem isSome_wordAt {s' : State} (hheap : s'.heap = s.heap) (hslack : s'.slack = s.slack) (ptr : Word) :
    (wordAt M s' ptr).isSome = (wordAt M s ptr).isSome := by
  cases target M s ptr with
  | slot isSlot range => rw [wordAt_slot isSlot range, wordAt_slot isSlot range]; rfl
  | object noSlot present first => rw [wordAt_object noSlot, wordAt_object noSlot, hheap, hslack]
  | nothing noSlot none => rw [wordAt_object noSlot, wordAt_object noSlot, hheap, hslack]

/-- Where both assignments to a captured variable end alike, it holds the value already. -/
theorem closure_holds_of_heap {entry : Word} {heap : Heap} {i : ℕ} (hc : s.captured[i]? = some c)
    (hheap : Function.update s.heap (s.stack s.closureSlot)
      (some (.closure entry (s.captured.set i v))) = heap)
    (hkept : ∃ entry', heap (s.stack s.closureSlot) = some (.closure entry' s.captured)) : c = v := by
  obtain ⟨entry', hobj⟩ := hkept
  rw [← hheap, Function.update_self, Option.some.injEq, Obj.closure.injEq] at hobj
  exact (captured_set_eq hc).mp hobj.2

/-- Where the variable holds the value, ST leaves the closure as it was. -/
theorem heap_of_closure_holds {p entry : Word} {heap : Heap} {captured : List Word} {i : ℕ}
    (hobj : heap p = some (.closure entry captured)) (hc : captured[i]? = some c) :
    Function.update heap p (some (.closure entry (captured.set i c))) = heap := by
  rw [(captured_set_eq hc).mpr rfl, ← hobj]
  exact Function.update_eq_self p heap

/-- A reference that is stored to itself changes no closure but its own first word. -/
theorem closure_kept {heap : Heap} {p entry w : Word} {captured : List Word} {obj : Obj}
    (hobj : heap p = some (.closure entry captured)) (present : heap v = some obj) :
    ∃ entry', Function.update heap v (some (obj.setFirst w)) p = some (.closure entry' captured) := by
  by_cases hpv : p = v
  · rw [hpv, present] at hobj
    cases hobj
    exact ⟨w, by rw [hpv, Function.update_self]; rfl⟩
  · exact ⟨entry, by rw [Function.update_of_ne hpv, hobj]⟩

theorem pushed_word {i : ℤ} (hi : s.top - 1 < i) : Function.update s.stack s.top v i =
    Function.update (referenceState s ptr v).stack s.top v i := by
  by_cases hit : i = s.top
  · rw [hit, Function.update_self, Function.update_self]
  · rw [Function.update_of_ne hit, Function.update_of_ne hit, referenceState_stack (by omega)]

theorem closure_alike_iff (hrun : Running M s) (h : indirect = stackSti M ∨ indirect = stackSta M)
    (hr : InRange M s .closure n.toNat)
    (hlda : Placed M.bf s.codePtr (ldaInstruction .closure n).encode)
    (hst : Placed M.bf o (stInstruction .closure n).encode) (htop : 1 ≤ s.top) :
    AssignsAlike M indirect v o s ↔ HasValue M s .closure n.toNat v ∧
      isBoxedInt v = false ∧ (wordAt M s v).isSome = true := by
  obtain ⟨c, hvalue⟩ := hrun.exists_hasValue hr
  have hc := (hrun.hasValue_closure hr).mp hvalue
  have hunique : HasValue M s .closure n.toNat v ↔ c = v := by
    rw [hrun.hasValue_closure hr, hc, Option.some.injEq]
  rw [hunique]
  by_cases hboxed : isBoxedInt c = true
  · refine ⟨fun halike => absurd halike (boxed_not_alike hrun h hr hvalue hboxed hlda hst htop), ?_⟩
    rintro ⟨rfl, heven, -⟩
    rw [hboxed] at heven
    cases heven
  have heven : isBoxedInt c = false := by simpa using hboxed
  have hroom : 0 ≤ s.top ∧ s.top < M.maxStack := ⟨by omega, hrun.top_lt⟩
  obtain ⟨entry, hobj, hdirect⟩ := assignDirectly_closure (v := v) hrun hr hst htop
  have hthrough := assignThrough_eq (v := v) h rfl hlda (hrun.closureLink hr hvalue) heven
    ⟨htop, hroom.2⟩
  have hload := loadWord_eq (M := M) (s := referenceState s c v) c
  have hsome : (wordAt M (referenceState s c v) c).isSome = (wordAt M s c).isSome := by
    have hheap : (referenceState s c v).heap = s.heap := rfl
    have hslack : (referenceState s c v).slack = s.slack := rfl
    exact isSome_wordAt hheap hslack c
  cases hw : wordAt M (referenceState s c v) c with
  | none =>
    rw [hw] at hload hsome
    rw [exec_bind_of_error hload] at hthrough
    constructor
    · rintro ⟨t, t', ht, -⟩
      rw [hthrough] at ht
      cases ht
    · rintro ⟨rfl, -, hisSome⟩
      rw [← hsome] at hisSome
      cases hisSome
  | some w =>
    rw [hw] at hload hsome
    rw [exec_bind_of_ok hload] at hthrough
    have hright : c = v → c = v ∧ isBoxedInt v = false ∧ (wordAt M s v).isSome = true := by
      rintro rfl
      exact ⟨rfl, heven, hsome.symm⟩
    cases target M (referenceState s c v) v with
    | @slot j isSlot range =>
      rw [exec_bind_of_ok (storeWord_slot isSlot range w)] at hthrough
      rw [alike_iff_words hthrough hdirect ⟨rfl, rfl, rfl, rfl⟩ rfl ⟨rfl, rfl, rfl, rfl⟩ rfl hroom]
      dsimp only
      constructor
      · rintro ⟨hheap, -⟩
        exact hright (closure_holds_of_heap hc hheap ⟨entry, hobj⟩)
      · rintro ⟨rfl, -⟩
        rw [wordAt_slot isSlot range] at hw
        cases hw
        refine ⟨heap_of_closure_holds hobj hc, rfl, fun i hi => ?_⟩
        rw [Function.update_eq_self]
        exact pushed_word hi
    | @object obj x noSlot present first =>
      rw [exec_bind_of_ok (storeWord_object noSlot present first w)] at hthrough
      rw [alike_iff_words hthrough hdirect ⟨rfl, rfl, rfl, rfl⟩ rfl ⟨rfl, rfl, rfl, rfl⟩ rfl hroom]
      dsimp only
      constructor
      · rintro ⟨hheap, -⟩
        exact hright (closure_holds_of_heap hc hheap (closure_kept hobj present))
      · rintro ⟨rfl, -⟩
        have hword : wordAt M (referenceState s c c) c = some x := by
          rw [wordAt_object noSlot, present]
          exact first
        rw [hw] at hword
        cases hword
        obtain ⟨hsame, hbytes⟩ := Obj.setFirst_firstWord first
        refine ⟨?_, ?_, fun i hi => pushed_word hi⟩
        · rw [heap_of_closure_holds hobj hc, hsame, ← present]
          exact (Function.update_eq_self c _).symm
        · rw [hbytes]
          exact (Function.update_eq_self c _).symm
    | nothing noSlot none =>
      rw [exec_bind_of_error (storeWord_nothing noSlot none w)] at hthrough
      constructor
      · rintro ⟨t, t', ht, -⟩
        rw [hthrough] at ht
        cases ht
      · rintro ⟨rfl, -⟩
        rw [wordAt_object noSlot, none] at hw
        cases hw

end Captured

/-- The store of the word at the variable's reference to the address `v` goes unnoticed. -/
def Harmless (M : Machine) (s : State) (d : MemVar) (v : Word) : Prop :=
  match d with
  | .closure => isBoxedInt v = false ∧ (wordAt M s v).isSome = true
  | _ => Inert M s v

/-- On a stack built from a table with a string that is not empty, with room for two operands, the
    assignment through the reference of a variable in range ends as the direct one just in case the
    variable holds the value already and the store to the value's address is harmless. -/
theorem assigns_alike_iff (E : Env M) {l : List (ℕ × List UInt8)} (htable : StringTable M.bf 0 l)
    (hstring : ∃ e ∈ l, e.2 ≠ []) (hglobals : 0 ≤ M.bf.globalAreaSize) (hsmall : M.maxStack < 2 ^ 31)
    (hbuilt : Built E s) (hrun : s.activations ≠ []) (hr : InRange M s d n.toNat) (htop : 1 ≤ s.top)
    (h : indirect = stackSti M ∨ indirect = stackSta M)
    (hlda : Placed M.bf s.codePtr (ldaInstruction d n).encode)
    (hst : Placed M.bf o (stInstruction d n).encode) :
    AssignsAlike M indirect v o s ↔ HasValue M s d n.toNat v ∧ Harmless M s d v := by
  have hrunning : Running M s := ⟨hbuilt.layout htable hstring, hrun, hglobals, hsmall⟩
  cases hk : slotOfVariable M s d n.toNat with
  | some k =>
    have hvalue : HasValue M s d n.toNat v ↔ s.stack k = v := hrunning.hasValue_slot hr hk
    rw [slot_alike_iff hrunning h hr hk hlda hst htop, hvalue]
    cases d
    case closure | other => cases hk
    all_goals rfl
  | none =>
    cases d
    case global | «local» | argument => cases hk
    case other => cases hr
    case closure => exact closure_alike_iff hrunning h hr hlda hst htop

end Assignments

/-! ### A local variable -/

/-- `main` assigns 5 to its local variable, through its reference and directly. -/
def referenceFile : Bytefile := .ofMain 0
  [0x52, 0, 0, 0, 0, 1, 0, 0, 0, 0x31, 0, 0, 0, 0, 0x10, 5, 0, 0, 0, 0x13, 0x41, 0, 0, 0, 0, 0x16, 0xFF]

def referenceMachine : Machine := Machine.layout referenceFile stackSize (by decide) stackSize_le

def referenceEnv : Env referenceMachine :=
  Env.bump referenceMachine fun k => BitVec.ofNat 64 (2 ^ 50 + 64 * k)

/-- The state behind BEGIN. -/
def beginState : State := nextState referenceEnv (startState referenceEnv)

theorem built_beginState : Built referenceEnv beginState := by
  have hstart : Built referenceEnv (startState referenceEnv) :=
    (starts_startState referenceEnv (by decide +kernel)).built
  have hlocals : Built referenceEnv (finalState (reserveLocals 1 (startState referenceEnv))) :=
    .locals hstart (by decide +kernel) (by decide +kernel) (by decide +kernel) rfl
  refine .operands hlocals ⟨?_, ?_, ?_, ?_⟩ ?_ ?_ <;> decide +kernel

theorem assigns_alike_iff_referenceFile :
    AssignsAlike referenceMachine (stackSti referenceMachine) (boxInt 5) 20 beginState ↔
      HasValue referenceMachine beginState .local 0 (boxInt 5) ∧
        Harmless referenceMachine beginState .local (boxInt 5) := by
  refine assigns_alike_iff referenceEnv (l := [(0, [109, 97, 105, 110])]) ?_ (by decide) (by decide)
    (by decide) built_beginState (by decide +kernel) (n := 0) ?_ (by decide +kernel) (.inl rfl) ?_ ?_
  · exact .cons (by decide) (by decide +kernel) (.nil (by decide))
  · show 0 < beginState.reserved
    decide +kernel
  · rw [show beginState.codePtr = 9 by decide +kernel]
    simp [ldaInstruction, MemVar.toByte, Instruction.encode, operandBytes, Placed]
    decide
  · simp [stInstruction, MemVar.toByte, Instruction.encode, operandBytes, Placed]
    decide

/-- STI writes to the address 11, which is the integer 5. -/
theorem referenceFile_unassigned : Built referenceEnv beginState ∧ 1 ≤ beginState.top ∧
    InRange referenceMachine beginState .local 0 ∧
    Placed referenceMachine.bf beginState.codePtr (ldaInstruction .local 0).encode ∧
    Placed referenceMachine.bf 20 (stInstruction .local 0).encode ∧
    ¬ AssignsAlike referenceMachine (stackSti referenceMachine) (boxInt 5) 20 beginState := by
  refine ⟨built_beginState, by decide +kernel, ?_, ?_, ?_, ?_⟩
  · show 0 < beginState.reserved
    decide +kernel
  · rw [show beginState.codePtr = 9 by decide +kernel]
    simp [ldaInstruction, MemVar.toByte, Instruction.encode, operandBytes, Placed]
    decide
  · simp [stInstruction, MemVar.toByte, Instruction.encode, operandBytes, Placed]
    decide
  · rintro ⟨t, -, ht, -⟩
    have herror : returned (assignThrough referenceMachine (stackSti referenceMachine) (boxInt 5)
        beginState) = none := by decide +kernel
    rw [ht] at herror
    cases herror

end LamaSM
