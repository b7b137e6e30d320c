import LamaSM.Layout
import LamaSM.Forward
import LamaSM.Boxing

/-! Variables of the running activation: LD, ST and LDA on them.

    A designation names a slot of the stack or a captured variable of the running closure. In a
    `Layout` the slots of the variables in range lie in their own regions, so a store changes the one
    variable and nothing that belongs to the rest of the stack. -/

namespace LamaSM
open Lib

/-! ### Designations and the instructions on them -/

def MemVar.isOther : MemVar → Bool
  | .other _ => true
  | _ => false

/-- The low bits of a designation. -/
def MemVar.toByte : MemVar → UInt8
  | .global => 0 | .local => 1 | .argument => 2 | .closure => 3 | .other _ => 4

theorem getInstructionType_ld (d : MemVar) : getInstructionType (0x20 + d.toByte).toNat = .ld := by
  cases d
  case other => exact (show getInstructionType (0x24 : UInt8).toNat = .ld from rfl)
  all_goals rfl

theorem getInstructionType_st (d : MemVar) : getInstructionType (0x40 + d.toByte).toNat = .st := by
  cases d
  case other => exact (show getInstructionType (0x44 : UInt8).toNat = .st from rfl)
  all_goals rfl

theorem getInstructionType_lda (d : MemVar) : getInstructionType (0x30 + d.toByte).toNat = .lda := by
  cases d
  case other => exact (show getInstructionType (0x34 : UInt8).toNat = .lda from rfl)
  all_goals rfl

/-- LD d n -/
def ldInstruction (d : MemVar) (n : UInt32) : Instruction where
  opcode := 0x20 + d.toByte
  args := [n]
  captures := []
  known := by rw [getInstructionType_ld]; rfl
  args_length := by rw [getInstructionType_ld]; rfl
  captures_length := by rw [getInstructionType_ld]; rfl

/-- ST d n -/
def stInstruction (d : MemVar) (n : UInt32) : Instruction where
  opcode := 0x40 + d.toByte
  args := [n]
  captures := []
  known := by rw [getInstructionType_st]; rfl
  args_length := by rw [getInstructionType_st]; rfl
  captures_length := by rw [getInstructionType_st]; rfl

/-- LDA d n -/
def ldaInstruction (d : MemVar) (n : UInt32) : Instruction where
  opcode := 0x30 + d.toByte
  args := [n]
  captures := []
  known := by rw [getInstructionType_lda]; rfl
  args_length := by rw [getInstructionType_lda]; rfl
  captures_length := by rw [getInstructionType_lda]; rfl

/-- The getter LD uses. -/
def getVariable (M : Machine) : MemVar → ℕ → Exec Word
  | .global, i => getGlobal M i
  | .local, i => getLocal M i
  | .argument, i => getArg M i
  | .closure, i => getClosure M i
  | .other _, _ => throw (.runtimeError "Invalid load instruction lower bits.")

/-- The setter ST uses. -/
def setVariable (M : Machine) : MemVar → ℕ → Word → Exec Unit
  | .global, i, w => setGlobal M i w
  | .local, i, w => setLocal M i w
  | .argument, i, w => setArg M i w
  | .closure, i, w => setClosure M i w
  | .other _, _, _ => throw (.runtimeError "Invalid store instruction lower bits.")

/-- The address LDA pushes. -/
def getVariableLink (M : Machine) : MemVar → ℕ → Exec Word
  | .global, i => getGlobalLink M i
  | .local, i => getLocalLink M i
  | .argument, i => getArgLink M i
  | .closure, i => getClosureLink M i
  | .other _, _ => throw (.runtimeError "Invalid store instruction lower bits.")

/-- LD would push `w`. -/
def HasValue (M : Machine) (s : State) (d : MemVar) (i : ℕ) (w : Word) : Prop :=
  getVariable M d i s = .ok w s

/-! ### Turns -/

section Turns

variable {M : Machine} (E : Env M) {s : State} {d : MemVar} {n : UInt32}

theorem at_ld (h : Placed M.bf s.codePtr (ldInstruction d n).encode) : At M s .ld := by
  have ht := Instruction.typeAt h
  rwa [show (ldInstruction d n).type = .ld from getInstructionType_ld d] at ht

theorem at_st (h : Placed M.bf s.codePtr (stInstruction d n).encode) : At M s .st := by
  have ht := Instruction.typeAt h
  rwa [show (stInstruction d n).type = .st from getInstructionType_st d] at ht

theorem memLoad_eq (known : d.isOther = false)
    (h : Placed M.bf s.codePtr (ldInstruction d n).encode) : memLoad M s = (do
      let w ← getVariable M d n.toNat
      pushOp M w) { s with codePtr := s.codePtr + 5 } := by
  have hcode : M.bf.code s.codePtr = .ok (0x20 + d.toByte).toNat := h.1
  rw [memLoad, exec_bind_of_ok (consumeLowerBits1_eq hcode (code32_of_placed rfl h))]
  cases d
  case other => cases known
  all_goals rfl

theorem memStore_eq (known : d.isOther = false)
    (h : Placed M.bf s.codePtr (stInstruction d n).encode) : memStore M s = (do
      let w ← peekOp M
      setVariable M d n.toNat w) { s with codePtr := s.codePtr + 5 } := by
  have hcode : M.bf.code s.codePtr = .ok (0x40 + d.toByte).toNat := h.1
  rw [memStore, exec_bind_of_ok (consumeLowerBits1_eq hcode (code32_of_placed rfl h))]
  cases d
  case other => cases known
  all_goals rfl

theorem stackLda_eq (known : d.isOther = false)
    (h : Placed M.bf s.codePtr (ldaInstruction d n).encode) : stackLda M s = (do
      let ptr ← getVariableLink M d n.toNat
      pushOpLink M ptr) { s with codePtr := s.codePtr + 5 } := by
  have hcode : M.bf.code s.codePtr = .ok (0x30 + d.toByte).toNat := h.1
  rw [stackLda, exec_bind_of_ok (consumeLowerBits1_eq hcode (code32_of_placed rfl h))]
  cases d
  case other => cases known
  all_goals rfl

end Turns

/-! ### Where the variables are -/

/-- The slot of a variable; a captured variable has none. -/
def slotOfVariable (M : Machine) (s : State) : MemVar → ℕ → Option ℤ
  | .global, i => some (globalSlot M s i)
  | .local, i => some (s.fp - i)
  | .argument, i => some (s.fp + 4 + i)
  | .closure, _ | .other _, _ => none

namespace State

/-- 1 if the running activation is one of a closure. -/
def isClosure (s : State) : ℕ :=
  match s.activations with
  | [] => 0
  | a :: _ => a.isClosure

/-- The slot of the running closure. -/
def closureSlot (s : State) : ℤ := s.fp + 4 + s.passed

/-- The captured variables of the running closure. -/
def captured (s : State) : List Word :=
  match s.heap (s.stack s.closureSlot) with
  | some (.closure _ captured) => if s.isClosure = 1 then captured else []
  | _ => []

end State

/-- The index is below the number of the variables of the running activation. A closure captures
    fewer than `2 ^ 32` variables, since the operand of CLOSURE has 32 bits. -/
def InRange (M : Machine) (s : State) : MemVar → ℕ → Prop
  | .global, i => (i : ℤ) < M.bf.globalAreaSize
  | .local, i => i < s.reserved
  | .argument, i => i < s.passed
  | .closure, i => i < s.captured.length ∧ s.captured.length < 2 ^ 32
  | .other _, _ => False

/-- An activation runs, on a stack whose size is an `int`. -/
structure Running (M : Machine) (s : State) : Prop where
  layout : Layout M s
  activations : s.activations ≠ []
  globals : 0 ≤ M.bf.globalAreaSize
  small : M.maxStack < 2 ^ 31

section Slots

variable {M : Machine} {s : State} {d : MemVar} {i : ℕ} {k : ℤ} {w : Word}

theorem getVariable_slot (hk : slotOfVariable M s d i = some k) : getVariable M d i s = readSlot M k s := by
  cases d <;> cases hk <;> rfl

theorem setVariable_slot (hk : slotOfVariable M s d i = some k) :
    setVariable M d i w s = writeSlot M k w s := by
  cases d <;> cases hk <;> rfl

theorem getVariableLink_slot (hk : slotOfVariable M s d i = some k) :
    getVariableLink M d i s = .ok (M.slotAddr k) s := by
  cases d <;> cases hk <;> rfl

/-- The borders between the regions, as numbers. -/
structure Borders (M : Machine) (s : State) : Prop where
  top_ge : -1 ≤ s.top
  top_le : s.top ≤ s.floor
  floor_le : s.floor = s.fp - s.reserved
  last_le : s.fp + 3 + s.passed + s.isClosure ≤ M.initialTop
  initialTop_le : M.initialTop + M.bf.globalAreaSize + s.stringCounter < M.maxStack
  argSizes : ∃ rest, s.argSizes = (s.passed : ℤ) :: rest

theorem Running.borders (h : Running M s) : Borders M s := by
  obtain ⟨a, as, hact⟩ := List.exists_cons_of_ne_nil h.activations
  have hfp := h.layout.fp a as hact
  have hlast := h.layout.stacked.last_le a (by rw [hact]; exact List.mem_cons_self)
  have hle := h.layout.top_le
  have hargs := h.layout.argSizes
  have hcounter := h.layout.counter
  have hsmall := h.small
  have hglobals := h.globals
  have hfloor : s.floor = s.fp - a.reserved := by rw [State.floor, State.reserved, hact]
  have hge := h.layout.top_ge.resolve_right h.activations
  rw [hact] at hle hargs
  have hle : s.top ≤ a.floor := hle
  unfold Activation.floor at hle
  unfold Activation.last at hlast
  have hfit : (a.nargs : ℤ) < 2 ^ 31 := by unfold Machine.initialTop at hlast; omega
  have hreserved : s.reserved = a.reserved := by rw [State.reserved, hact]
  have hpassed : s.passed = a.nargs := by rw [State.passed, hact]
  have hclosure : s.isClosure = a.isClosure := by rw [State.isClosure, hact]
  constructor
  · exact hge
  · omega
  · rw [hfloor, hreserved]
  · rw [hpassed, hclosure, hfp]
    exact hlast
  · unfold Machine.initialTop
    omega
  · rw [hpassed, hargs, List.map_cons, toI32_of_lt (by omega)]
    exact ⟨_, rfl⟩

/-- The slot of a variable in range lies in the region of its designation. -/
theorem Running.slot_region (h : Running M s) (hr : InRange M s d i)
    (hk : slotOfVariable M s d i = some k) :
    (s.floor < k ∧ k ≤ s.fp) ∨ (s.fp + 3 < k ∧ k ≤ s.fp + 3 + s.passed) ∨
      (M.initialTop < k ∧ k < M.maxStack - s.stringCounter) := by
  have hb := h.borders.initialTop_le
  have hfloor := h.borders.floor_le
  cases d
  case global =>
    cases hk
    simp only [InRange] at hr
    unfold globalSlot
    omega
  case «local» =>
    cases hk
    simp only [InRange] at hr
    omega
  case argument =>
    cases hk
    simp only [InRange] at hr
    omega
  case closure | other => cases hk

theorem Running.slot_range (h : Running M s) (hr : InRange M s d i)
    (hk : slotOfVariable M s d i = some k) : s.top < k ∧ 0 ≤ k ∧ k < M.maxStack := by
  have hregion := h.slot_region hr hk
  obtain ⟨htop, hle, hfloor, hlast, hinit, -⟩ := h.borders
  have hglobals := h.globals
  omega

/-- Two variables in range with one slot are the same. -/
theorem Running.slot_inj (h : Running M s) {d' : MemVar} {j : ℕ} (hr : InRange M s d i)
    (hr' : InRange M s d' j) (hk : slotOfVariable M s d i = some k)
    (hk' : slotOfVariable M s d' j = some k) : d = d' ∧ i = j := by
  have hb := h.borders
  obtain ⟨htop, hle, hfloor, hlast, hinit, -⟩ := hb
  cases d <;> cases d' <;> simp only [slotOfVariable, Option.some.injEq, reduceCtorEq] at hk hk' <;>
    simp only [InRange, globalSlot] at hr hr' hk hk' <;>
    simp only [reduceCtorEq, false_and, true_and] <;> omega

/-- LD on a variable with a slot reads it. -/
theorem Running.hasValue_slot (h : Running M s) (hr : InRange M s d i)
    (hk : slotOfVariable M s d i = some k) : HasValue M s d i w ↔ s.stack k = w := by
  rw [HasValue, getVariable_slot hk, readSlot_eq (h.slot_range hr hk).2]
  constructor
  · intro he
    cases he
    rfl
  · rintro rfl
    rfl

/-! ### Captured variables -/

theorem Running.closurePtr_eq (h : Running M s) (hclosure : s.isClosure = 1) :
    closurePtr M s = .ok (s.stack s.closureSlot) s ∧
      s.fp + 3 + s.passed < s.closureSlot ∧ s.closureSlot ≤ M.initialTop := by
  obtain ⟨htop, hle, hfloor, hlast, hinit, rest, hargs⟩ := h.borders
  have hglobals := h.globals
  have hslot : s.fp + 3 + s.passed < s.closureSlot ∧ s.closureSlot ≤ M.initialTop := by
    unfold State.closureSlot
    omega
  refine ⟨?_, hslot⟩
  rw [closurePtr, exec_get_bind, hargs]
  exact readSlot_eq (by unfold State.closureSlot at hslot; omega)

/-- The running closure, when it has captured variables. -/
theorem State.captured_object (hr : i < s.captured.length) : s.isClosure = 1 ∧
    ∃ entry, s.heap (s.stack s.closureSlot) = some (.closure entry s.captured) := by
  unfold State.captured at hr ⊢
  split at hr
  · rename_i entry captured hobj
    split_ifs at hr with hclosure
    · refine ⟨hclosure, entry, ?_⟩
      rw [hobj]
      simp [hclosure]
    · cases hr
  · cases hr

theorem State.captured_eq {entry : Word} {captured : List Word} (hclosure : s.isClosure = 1)
    (hobj : s.heap (s.stack s.closureSlot) = some (.closure entry captured)) :
    s.captured = captured := by
  rw [State.captured, hobj]
  exact if_pos hclosure

theorem unbox_index (hi : i + 1 < 2 ^ 32) : unbox (boxInt (toU32 (i + 1 : ℕ))) = (i + 1 : ℕ) := by
  rw [toU32_of_lt hi]
  exact unbox_boxInt (by omega) (by omega)

/-- LD on a captured variable reads it. -/
theorem Running.hasValue_closure (h : Running M s) (hr : InRange M s .closure i) :
    HasValue M s .closure i w ↔ s.captured[i]? = some w := by
  obtain ⟨hlt, hsmall⟩ := hr
  obtain ⟨hclosure, entry, hobj⟩ := State.captured_object hlt
  have helem : (Obj.closure entry s.captured).elem (unbox (boxInt (toU32 (i + 1 : ℕ)))) =
      s.captured[i]? := by
    rw [unbox_index (by omega), Obj.elem, if_neg (by omega)]
    rfl
  have hget : getClosure M i s = .ok (s.captured[i]) s := by
    rw [getClosure, exec_bind_of_ok (h.closurePtr_eq hclosure).1, Belem,
      exec_bind_of_ok (getObj_eq hobj)]
    push_cast at helem
    rw [helem, List.getElem?_eq_getElem hlt]
    rfl
  rw [HasValue, getVariable, hget, List.getElem?_eq_getElem hlt]
  constructor
  · intro he
    cases he
    rfl
  · intro he
    rw [Option.some.inj he]

/-- ST on a captured variable replaces it in the closure. -/
theorem Running.setClosure_eq (h : Running M s) (hr : InRange M s .closure i) (v : Word) :
    ∃ entry, s.heap (s.stack s.closureSlot) = some (.closure entry s.captured) ∧
      setClosure M i v s = .ok () { s with
        heap := Function.update s.heap (s.stack s.closureSlot)
          (some (.closure entry (s.captured.set i v))) } := by
  obtain ⟨hlt, hsmall⟩ := hr
  obtain ⟨hclosure, entry, hobj⟩ := State.captured_object hlt
  have hindex := unbox_index (i := i) (by omega)
  push_cast at hindex
  have hput : (Obj.closure entry s.captured).put (unbox (boxInt (toU32 (i + 1)))) v =
      some (.closure entry (s.captured.set i v)) := by
    rw [hindex, Obj.put, if_neg (by omega)]
    rw [show ((i : ℤ) + 1).toNat = i + 1 by omega]
    exact if_pos hlt
  refine ⟨entry, hobj, ?_⟩
  rw [setClosure, exec_bind_of_ok (h.closurePtr_eq hclosure).1]
  have hsta : Bsta M (s.stack s.closureSlot) (boxInt (toU32 (i + 1))) v s =
      .ok v { s with
        heap := Function.update s.heap (s.stack s.closureSlot)
          (some (.closure entry (s.captured.set i v))) } := by
    rw [Bsta, if_pos (isBoxedInt_boxInt _), exec_bind_of_ok (getObj_eq hobj), hput]
    rfl
  rw [exec_bind_of_ok hsta]
  rfl

/-- A variable in range has a value. -/
theorem Running.exists_hasValue (h : Running M s) (hr : InRange M s d i) : ∃ w, HasValue M s d i w := by
  cases hk : slotOfVariable M s d i with
  | some k => exact ⟨_, (h.hasValue_slot hr hk).mpr rfl⟩
  | none =>
    cases d
    case global | «local» | argument => cases hk
    case closure => exact ⟨_, (h.hasValue_closure hr).mpr (List.getElem?_eq_getElem hr.1)⟩
    case other => cases hr

end Slots

/-! ### Stores -/

/-- A slot of an activation that waits for a callee: its operands, locals, header, arguments and
    closure, without what it passed on. -/
def Waiting : List Activation → ℤ → Prop
  | a :: b :: as, k => (a.last < k ∧ k ≤ b.last) ∨ Waiting (b :: as) k
  | _, _ => False

/-- A slot that is no variable of the running activation: one of another activation, an operand, a
    header word or the closure of the running one, or one of the string pool. -/
def Foreign (M : Machine) (s : State) (k : ℤ) : Prop :=
  Waiting s.activations k ∨ (s.top < k ∧ k ≤ s.floor) ∨ (s.fp < k ∧ k ≤ s.fp + 3) ∨
    (s.isClosure = 1 ∧ k = s.closureSlot) ∨ (M.maxStack - s.stringCounter ≤ k ∧ k < M.maxStack)

/-- `s'` is `s` behind a store of `v` to a variable: it alone has changed. -/
structure Stored (M : Machine) (s : State) (d : MemVar) (i : ℕ) (v : Word) (s' : State) : Prop where
  codePtr : s'.codePtr = s.codePtr + 5
  top : s'.top = s.top
  frames : SameFrames s s'
  range : ∀ d' j, InRange M s d' j → InRange M s' d' j
  value : HasValue M s' d i v
  others : ∀ d' j, InRange M s d' j → (d', j) ≠ (d, i) → ∀ w, HasValue M s d' j w → HasValue M s' d' j w
  words : ∀ k, Foreign M s k → s'.stack k = s.stack k

theorem Waiting.region {M : Machine} : ∀ {as : List Activation} {a : Activation} {k : ℤ},
    Waiting (a :: as) k → Stacked M (a :: as) → a.last < k ∧ k ≤ M.initialTop
  | [], _, _, h, _ => h.elim
  | b :: as, a, k, h, hs => by
    have hlast : a.last ≤ b.floor := hs.1
    have hb := hs.last_le b (List.mem_cons_of_mem a List.mem_cons_self)
    have hfloor := b.floor_le_fp
    have hfp := b.fp_lt_last
    rcases h with ⟨hlo, hhi⟩ | hrest
    · omega
    · have hregion := hrest.region hs.2.2
      omega

section Stores

variable {M : Machine} (E : Env M) {s s' : State} {d : MemVar} {i : ℕ} {k : ℤ} {v : Word}

/-- No variable in range lies in a foreign slot. -/
theorem Running.slot_ne (h : Running M s) (hr : InRange M s d i) (hk : slotOfVariable M s d i = some k)
    {k' : ℤ} (hforeign : Foreign M s k') : k' ≠ k := by
  have hregion := h.slot_region hr hk
  obtain ⟨htop, hle, hfloor, hlast, hinit, -⟩ := h.borders
  have hglobals := h.globals
  rcases hforeign with hwait | hop | hheader | ⟨hclosure, rfl⟩ | hpool
  · obtain ⟨a, as, hact⟩ := List.exists_cons_of_ne_nil h.activations
    have hstacked := h.layout.stacked
    rw [hact] at hwait hstacked
    have hwaiting := hwait.region hstacked
    have hpassed : s.passed = a.nargs := by rw [State.passed, hact]
    have hfp := h.layout.fp a as hact
    unfold Activation.last at hwaiting
    omega
  · omega
  · omega
  · have hslot := (h.closurePtr_eq hclosure).2
    omega
  · omega

/-- More operands do not change what runs. -/
theorem Running.of_lower (h : Running M s) (hsame : SameFrames s s') (hge : -1 ≤ s'.top)
    (hle : s'.top ≤ s.top) : Running M s' := by
  have hact := hsame.activations
  have hl := h.layout
  refine ⟨⟨?_, ?_, ?_, ?_, ?_, ?_⟩, ?_, h.globals, h.small⟩
  · rw [hsame.stringCounter]
    exact hl.counter
  · rw [hact]
    exact hl.stacked
  · exact .inl hge
  · rw [hact]
    exact le_trans hle hl.top_le
  · intro a as he
    rw [hact] at he
    rw [hsame.fp]
    exact hl.fp a as he
  · rw [hsame.argSizes, hact]
    exact hl.argSizes
  · rw [hact]
    exact h.activations

theorem Running.of_same (h : Running M s) (hsame : SameFrames s s') (htop : s'.top = s.top) :
    Running M s' :=
  h.of_lower hsame (htop ▸ h.borders.top_ge) (le_of_eq htop)

theorem SameFrames.slotOfVariable_eq (h : SameFrames s s') :
    slotOfVariable M s' d i = slotOfVariable M s d i := by
  have hfp := h.fp
  have hcounter := h.stringCounter
  cases d <;> simp only [slotOfVariable, globalSlot, hfp, hcounter]

theorem SameFrames.closureSlot_eq (h : SameFrames s s') : s'.closureSlot = s.closureSlot := by
  rw [State.closureSlot, State.passed, h.fp, h.activations]
  rfl

theorem SameFrames.isClosure_eq (h : SameFrames s s') : s'.isClosure = s.isClosure := by
  rw [State.isClosure, h.activations]
  rfl

theorem SameFrames.inRange (h : SameFrames s s') (hcaptured : s'.captured.length = s.captured.length) :
    InRange M s' d i ↔ InRange M s d i := by
  have hact := h.activations
  cases d <;> simp only [InRange, State.reserved, State.passed, hact, hcaptured]

theorem SameFrames.captured_eq (h : SameFrames s s') (hheap : s'.heap = s.heap)
    (hslot : s.isClosure = 1 → s'.stack s.closureSlot = s.stack s.closureSlot) :
    s'.captured = s.captured := by
  unfold State.captured
  rw [h.closureSlot_eq, h.isClosure_eq, hheap]
  by_cases hclosure : s.isClosure = 1
  · rw [hslot hclosure]
  · simp only [hclosure, if_false]
    split <;> split <;> rfl

/-- A variable keeps its value when its slot, and with it the running closure, are left alone. -/
theorem Running.hasValue_of_eq (h : Running M s) (hsame : SameFrames s s') (htop : s'.top = s.top)
    (hr : InRange M s d i) {w : Word} (hw : HasValue M s d i w)
    (hslot : ∀ k, slotOfVariable M s d i = some k → s'.stack k = s.stack k)
    (hcaptured : d = .closure → s'.captured.length = s.captured.length ∧
      s'.captured[i]? = s.captured[i]?) : HasValue M s' d i w := by
  have h' := h.of_same hsame htop
  cases hk : slotOfVariable M s d i with
  | some k =>
    have hk' := hk
    rw [← hsame.slotOfVariable_eq] at hk'
    have hr' : InRange M s' d i := by
      have hact := hsame.activations
      cases d
      case closure | other => cases hk
      all_goals simpa only [InRange, State.reserved, State.passed, hact] using hr
    rw [h'.hasValue_slot hr' hk', hslot k hk]
    exact (h.hasValue_slot hr hk).mp hw
  | none =>
    cases d
    case global | «local» | argument => cases hk
    case other => cases hr
    case closure =>
      obtain ⟨hlength, hget⟩ := hcaptured rfl
      rw [h'.hasValue_closure ((hsame.inRange hlength).mpr hr), hget]
      exact (h.hasValue_closure hr).mp hw

/-- A write to the slot of a variable is a store to this variable. -/
theorem Running.stored_slot (h : Running M s) (hr : InRange M s d i)
    (hk : slotOfVariable M s d i = some k) (touched : ℤ) :
    Stored M s d i v { s with
      codePtr := s.codePtr + 5, touched := touched, stack := Function.update s.stack k v } := by
  have hsame : SameFrames s { s with
      codePtr := s.codePtr + 5, touched := touched, stack := Function.update s.stack k v } :=
    ⟨rfl, rfl, rfl, rfl⟩
  have hwords : ∀ k', Foreign M s k' → Function.update s.stack k v k' = s.stack k' :=
    fun k' hk' => Function.update_of_ne (h.slot_ne hr hk hk') ..
  have hcaptured := hsame.captured_eq rfl fun hclosure =>
    hwords _ (.inr (.inr (.inr (.inl ⟨hclosure, rfl⟩))))
  have hrange : ∀ d' j, InRange M s d' j → InRange M _ d' j :=
    fun d' j => (hsame.inRange (by rw [hcaptured])).mpr
  refine ⟨rfl, rfl, hsame, hrange, ?_, ?_, hwords⟩
  · have hk' := hk
    rw [← hsame.slotOfVariable_eq] at hk'
    rw [(h.of_same hsame rfl).hasValue_slot (hrange d i hr) hk']
    exact Function.update_self ..
  · intro d' j hr' hne w hw
    refine h.hasValue_of_eq hsame rfl hr' hw (fun k' hk' => ?_) fun _ => by simp only [hcaptured, and_self]
    refine Function.update_of_ne ?_ ..
    rintro rfl
    obtain ⟨rfl, rfl⟩ := h.slot_inj hr hr' hk hk'
    exact hne rfl

/-- A write to the running closure is a store to the captured variable. -/
theorem Running.stored_closure (h : Running M s) (hr : InRange M s .closure i) (entry : Word)
    (touched : ℤ) : Stored M s .closure i v { s with
      codePtr := s.codePtr + 5, touched := touched
      heap := Function.update s.heap (s.stack s.closureSlot)
        (some (.closure entry (s.captured.set i v))) } := by
  have hsame : SameFrames s { s with
      codePtr := s.codePtr + 5, touched := touched
      heap := Function.update s.heap (s.stack s.closureSlot)
        (some (.closure entry (s.captured.set i v))) } := ⟨rfl, rfl, rfl, rfl⟩
  have hclosure := (State.captured_object hr.1).1
  have hcaptured := State.captured_eq (hsame.isClosure_eq.trans hclosure) (Function.update_self ..)
  have hrange : ∀ d' j, InRange M s d' j → InRange M _ d' j :=
    fun d' j => (hsame.inRange (by rw [hcaptured, List.length_set])).mpr
  refine ⟨rfl, rfl, hsame, hrange, ?_, ?_, fun _ _ => rfl⟩
  · rw [(h.of_same hsame rfl).hasValue_closure (hrange _ i hr), hcaptured, List.getElem?_set_self hr.1]
  · intro d' j hr' hne w hw
    refine h.hasValue_of_eq hsame rfl hr' hw (fun k hk => rfl) ?_
    rintro rfl
    have hij : i ≠ j := fun hij => hne (hij ▸ rfl)
    rw [hcaptured, List.length_set, List.getElem?_set_ne hij]
    exact ⟨rfl, rfl⟩

theorem step_st {n : UInt32} (known : d.isOther = false)
    (hcode : Placed M.bf s.codePtr (stInstruction d n).encode)
    (htop : 0 ≤ s.top + 1 ∧ s.top + 1 < M.maxStack)
    (hset : setVariable M d n.toNat (s.stack (s.top + 1)) { s with
      codePtr := s.codePtr + 5, touched := max s.touched (s.top + 1) } = .ok () s') : Step E s s' := by
  have hpeek := peekOp_eq (M := M) (s := { s with codePtr := s.codePtr + 5 }) htop
  rw [step_iff E (at_st hcode) rfl, memStore_eq known hcode, exec_bind_of_ok hpeek]
  exact hset

/-- ST on a variable in range is a store of the operand, which stays. -/
theorem Running.store_step {n : UInt32} (h : Running M s) (hr : InRange M s d n.toNat)
    (hop : s.top < s.floor) (hcode : Placed M.bf s.codePtr (stInstruction d n).encode) :
    ∃ s', Step E s s' ∧ Stored M s d n.toNat (s.stack (s.top + 1)) s' := by
  have known : d.isOther = false := by cases d <;> first | rfl | cases hr
  have hroom : 0 ≤ s.top + 1 ∧ s.top + 1 < M.maxStack := by
    obtain ⟨htop, hle, hfloor, hlast, hinit, -⟩ := h.borders
    have hglobals := h.globals
    omega
  have hsame : SameFrames s { s with
      codePtr := s.codePtr + 5, touched := max s.touched (s.top + 1) } := ⟨rfl, rfl, rfl, rfl⟩
  cases hk : slotOfVariable M s d n.toNat with
  | some k =>
    have hset := setVariable_slot (w := s.stack (s.top + 1)) (hsame.slotOfVariable_eq.trans hk)
    rw [writeSlot_eq _ (h.slot_range hr hk).2] at hset
    exact ⟨_, step_st E known hcode hroom hset, h.stored_slot hr hk _⟩
  | none =>
    cases d
    case global | «local» | argument => cases hk
    case other => cases hr
    case closure =>
      obtain ⟨entry, -, hset⟩ := (h.of_same hsame rfl).setClosure_eq hr (s.stack (s.top + 1))
      exact ⟨_, step_st E known hcode hroom hset, h.stored_closure hr entry _⟩

/-- LD on a variable in range pushes its value. -/
theorem Running.load_step {n : UInt32} {w : Word} (h : Running M s) (hr : InRange M s d n.toNat)
    (hw : HasValue M s d n.toNat w) (htop : 0 ≤ s.top)
    (hcode : Placed M.bf s.codePtr (ldInstruction d n).encode) :
    ∃ s', Step E s s' ∧ Evaluated s 5 w s' := by
  have known : d.isOther = false := by cases d <;> first | rfl | cases hr
  have hroom : 0 ≤ s.top ∧ s.top < M.maxStack := by
    obtain ⟨-, hle, hfloor, hlast, hinit, -⟩ := h.borders
    have hglobals := h.globals
    omega
  have hsame : SameFrames s { s with codePtr := s.codePtr + 5 } := ⟨rfl, rfl, rfl, rfl⟩
  have hget := h.hasValue_of_eq hsame rfl hr hw (fun _ _ => rfl) fun _ => ⟨rfl, rfl⟩
  have hstep : Step E s { s with
      codePtr := s.codePtr + 5, top := s.top - 1, stack := Function.update s.stack s.top w } := by
    rw [step_iff E (at_ld hcode) rfl, memLoad_eq known hcode, exec_bind_of_ok hget]
    exact pushOp_eq w hroom
  refine ⟨_, hstep, ⟨_, _, rfl⟩, Function.update_self .., fun i hi => ?_⟩
  exact Function.update_of_ne (ne_of_gt hi) ..

/-- On a stack built from a table with a string that is not empty, ST on a variable in range and LD on
    it push the stored value, and ST changes nothing else: the other variables of the activation keep
    their values, and the operands, the header and the closure of the activation, the words of the
    other activations and the string pool stay as they are. -/
theorem store_load_separate {l : List (ℕ × List UInt8)} (htable : StringTable M.bf 0 l)
    (hstring : ∃ e ∈ l, e.2 ≠ []) (hglobals : 0 ≤ M.bf.globalAreaSize) (hsmall : M.maxStack < 2 ^ 31)
    (hbuilt : Built E s) (hrun : s.activations ≠ []) {n : UInt32} (hr : InRange M s d n.toNat)
    (hop : s.top < s.floor) (hcode : Placed M.bf s.codePtr
      ((stInstruction d n).encode ++ (ldInstruction d n).encode)) :
    ∃ s', Step E s s' ∧ Stored M s d n.toNat (s.stack (s.top + 1)) s' ∧
      (0 ≤ s.top → ∃ s'', Step E s' s'' ∧ Evaluated s' 5 (s.stack (s.top + 1)) s'') := by
  rw [placed_append] at hcode
  have h : Running M s := ⟨hbuilt.layout htable hstring, hrun, hglobals, hsmall⟩
  obtain ⟨s', hstep, hstored⟩ := h.store_step E hr hop hcode.1
  refine ⟨s', hstep, hstored, fun htop => ?_⟩
  have h' := h.of_same hstored.frames hstored.top
  have hld : Placed M.bf s'.codePtr (ldInstruction d n).encode := by
    rw [hstored.codePtr]
    exact hcode.2
  rw [← hstored.top] at htop
  exact h'.load_step E (hstored.range d _ hr) hstored.value htop hld

end Stores

/-! ### A local variable -/

/-- `main` stores 7 to its local variable and loads it. -/
def localFile : Bytefile := .ofMain 1
  [0x52, 0, 0, 0, 0, 1, 0, 0, 0, 0x10, 7, 0, 0, 0, 0x41, 0, 0, 0, 0, 0x21, 0, 0, 0, 0, 0x16, 0xFF]

def localMachine : Machine := Machine.layout localFile stackSize (by decide) stackSize_le

def localEnv : Env localMachine := Env.bump localMachine fun k => BitVec.ofNat 64 (2 ^ 50 + 64 * k)

/-- The state of `localFile` after `n` turns. -/
def localState : ℕ → State
  | 0 => startState localEnv
  | n + 1 => nextState localEnv (localState n)

theorem stringTable_localFile : StringTable localMachine.bf 0 [(0, [109, 97, 105, 110])] :=
  .cons (by decide) (by decide) (.nil (by decide))

theorem built_localState : Built localEnv (localState 2) := by
  have hstart : Built localEnv (localState 0) :=
    (starts_startState localEnv (by decide +kernel)).built
  have hlocals : Built localEnv (finalState (reserveLocals 1 (localState 0))) :=
    .locals hstart (by decide +kernel) (by decide +kernel) (by decide +kernel) rfl
  refine .operands hlocals ⟨?_, ?_, ?_, ?_⟩ ?_ ?_ <;> decide +kernel

theorem store_load_separate_localFile :
    ∃ s', Step localEnv (localState 2) s' ∧
      Stored localMachine (localState 2) .local 0 ((localState 2).stack ((localState 2).top + 1)) s' ∧
      (0 ≤ (localState 2).top → ∃ s'', Step localEnv s' s'' ∧
        Evaluated s' 5 ((localState 2).stack ((localState 2).top + 1)) s'') := by
  have hcode : (localState 2).codePtr = 14 := by decide +kernel
  refine store_load_separate localEnv stringTable_localFile (by decide) (by decide) (by decide)
    built_localState (by decide +kernel) (n := 0) ?_ (by decide +kernel) ?_
  · show 0 < (localState 2).reserved
    decide +kernel
  · rw [hcode]
    simp [stInstruction, ldInstruction, MemVar.toByte, Instruction.encode, operandBytes, Placed]
    decide

end LamaSM
