import LamaSM.Interpret

/-! Operations beside the heap.

    Most of what the interpreter does leaves the heap, the extra roots and the record of collections
    alone. `Aside` says so of an operation that returns; it holds of the handlers of all instructions
    but those that make an object (SEXP, CLOSURE, CALL_STRING, CALL_ARRAY) or store into one (STA, STI,
    ST). -/

namespace LamaSM
open Lib

/-- The two states agree on the heap and on what the collector works with. -/
structure Beside (s s' : State) : Prop where
  heap : s'.heap = s.heap
  extraRoots : s'.extraRoots = s.extraRoots
  collections : s'.collections = s.collections

/-- When it returns, the operation has left the heap alone. -/
def Aside {α : Type} (x : Exec α) : Prop := ∀ s a s', x s = .ok a s' → Beside s s'

section Aside

variable {α β : Type}

theorem Beside.refl (s : State) : Beside s s := ⟨rfl, rfl, rfl⟩

theorem Beside.trans {s s' s'' : State} (h : Beside s s') (h' : Beside s' s'') : Beside s s'' :=
  ⟨h'.heap.trans h.heap, h'.extraRoots.trans h.extraRoots, h'.collections.trans h.collections⟩

theorem Aside.bind {x : Exec α} {f : α → Exec β} (hx : Aside x) (hf : ∀ a, Aside (f a)) :
    Aside (x >>= f) := by
  intro s b s' h
  obtain ⟨a, s₁, h₁, h₂⟩ := exec_bind_ok.mp h
  exact (hx s a s₁ h₁).trans (hf a s₁ b s' h₂)

theorem aside_pure (a : α) : Aside (pure a : Exec α) := by
  intro s b s' h
  cases h
  exact .refl s

theorem aside_throw (e : Fault) : Aside (throw e : Exec α) := by
  intro s a s' h
  cases h

theorem aside_get : Aside (get : Exec State) := by
  intro s a s' h
  cases h
  exact .refl s

theorem aside_modify {f : State → State} (hf : ∀ s, Beside s (f s)) :
    Aside (modify f : Exec PUnit) := by
  intro s a s' h
  cases h
  exact hf s

end Aside

/-! ### Operations -/

section Operations

variable {M : Machine} (E : Env M)

theorem aside_readFileByte {α : Type} (r : Result α) : Aside (readFileByte r) := by
  cases r with
  | ok a => exact aside_pure a
  | error e => exact aside_throw e

theorem aside_readSlot (i : ℤ) : Aside (readSlot M i) :=
  fun s a s' h => by
    rw [readSlot] at h
    split_ifs at h
    cases h
    exact ⟨rfl, rfl, rfl⟩

theorem aside_writeSlot (i : ℤ) (w : Word) : Aside (writeSlot M i w) :=
  fun s a s' h => by
    rw [writeSlot] at h
    split_ifs at h
    cases h
    exact ⟨rfl, rfl, rfl⟩

theorem aside_touch (i : ℤ) : Aside (touch i) :=
  fun _ _ _ h => by cases h; exact ⟨rfl, rfl, rfl⟩

theorem aside_advance (length : ℕ) : Aside (advance length) :=
  fun _ _ _ h => by cases h; exact ⟨rfl, rfl, rfl⟩

theorem aside_jumpTo (o : ℤ) : Aside (jumpTo o) :=
  fun _ _ _ h => by cases h; exact ⟨rfl, rfl, rfl⟩

theorem aside_popOps (n : ℕ) : Aside (popOps n) :=
  fun _ _ _ h => by cases h; exact ⟨rfl, rfl, rfl⟩

theorem aside_reserveLocals (n : ℕ) : Aside (reserveLocals n) :=
  fun _ _ _ h => by cases h; exact ⟨rfl, rfl, rfl⟩

theorem aside_reverseSlots (a : ℤ) (n : ℕ) : Aside (reverseSlots M a n) :=
  fun s u s' h => by
    rw [reverseSlots] at h
    split_ifs at h <;> cases h <;> exact ⟨rfl, rfl, rfl⟩

theorem aside_getObj (a : Word) : Aside (getObj a) :=
  fun s o s' h => by
    rw [getObj] at h
    cases ho : s.heap a with
    | none => rw [ho] at h; cases h
    | some o => rw [ho] at h; cases h; exact .refl s

theorem aside_Lread : Aside (Lread E) :=
  fun _ _ _ h => by cases h; exact ⟨rfl, rfl, rfl⟩

theorem aside_Lwrite (w : Word) : Aside (Lwrite w) :=
  fun _ _ _ h => by cases h; exact ⟨rfl, rfl, rfl⟩

theorem aside_readOperand (i : ℤ) : Aside (readOperand M i) :=
  (aside_touch i).bind fun _ => aside_readSlot i

theorem aside_peekOp : Aside (peekOp M) := aside_get.bind fun _ => aside_readOperand _

theorem aside_popOp : Aside popOp := aside_popOps 1

theorem aside_pushOp (w : Word) : Aside (pushOp M w) :=
  aside_get.bind fun _ => (aside_writeSlot _ w).bind fun _ => aside_modify fun _ => ⟨rfl, rfl, rfl⟩

theorem aside_operand (k : ℕ) : Aside (operand M k) :=
  aside_get.bind fun _ => aside_readFileByte _

theorem aside_consumeArgs1 : Aside (consumeArgs1 M) :=
  (aside_operand 0).bind fun a => (aside_advance 5).bind fun _ => aside_pure a

theorem aside_consumeArgs2 : Aside (consumeArgs2 M) :=
  (aside_operand 0).bind fun a => (aside_operand 1).bind fun b =>
    (aside_advance 9).bind fun _ => aside_pure (a, b)

theorem aside_consumeLowerBits0 : Aside (consumeLowerBits0 M) :=
  aside_get.bind fun _ => (aside_readFileByte _).bind fun _ =>
    (aside_advance 1).bind fun _ => aside_pure _

theorem aside_consumeLowerBits1 : Aside (consumeLowerBits1 M) :=
  aside_get.bind fun _ => (aside_readFileByte _).bind fun _ =>
    (aside_operand 0).bind fun _ => (aside_advance 5).bind fun _ => aside_pure _

theorem aside_consumeDesignations (n : ℕ) : Aside (consumeDesignations M n) := by
  induction n with
  | zero => exact aside_pure []
  | succ n ih =>
    exact aside_get.bind fun _ => (aside_readFileByte _).bind fun _ =>
      (aside_advance 5).bind fun _ => ih.bind fun _ => aside_pure _

theorem aside_getStringPtr (index : ℕ) : Aside (getStringPtr M index) := by
  refine aside_get.bind fun s => ?_
  cases s.stringsMap.lookup index with
  | some k => exact aside_readSlot _
  | none =>
    refine Aside.bind (aside_modify ?_) fun _ => aside_readSlot _
    exact fun _ => ⟨rfl, rfl, rfl⟩

/-! ### Runtime functions -/

theorem aside_Llength (p : Word) : Aside (Llength p) :=
  (aside_getObj p).bind fun _ => aside_pure _

theorem aside_Belem (p i : Word) : Aside (Belem p i) := by
  refine (aside_getObj p).bind fun o => ?_
  cases o.elem (unbox i) with
  | some w => exact aside_pure w
  | none => exact aside_throw _

theorem aside_loadWord (ptr : Word) : Aside (loadWord M ptr) := by
  have hobj : Aside (loadWord.loadObj ptr) := fun s w s' h => by
    unfold loadWord.loadObj at h
    split at h <;> cases h <;> exact .refl s
  intro s w s' h
  rw [loadWord] at h
  cases hj : M.slotOf ptr with
  | none => rw [hj] at h; exact hobj s w s' h
  | some j =>
    rw [hj] at h
    dsimp only at h
    split_ifs at h
    · cases h; exact .refl s
    · exact hobj s w s' h

theorem aside_LtagHash (w : Word) : Aside (LtagHash w) := by
  refine (aside_getObj w).bind fun o => ?_
  split
  · exact aside_throw _
  · split
    · exact aside_pure _
    · exact aside_throw _

theorem aside_Btag (d t n : Word) : Aside (Btag d t n) := by
  rw [Btag]
  split_ifs
  · exact aside_pure _
  · refine (aside_getObj d).bind fun o => ?_
    cases o <;> exact aside_pure _

theorem aside_BarrayPatt (d n : Word) : Aside (BarrayPatt d n) := by
  rw [BarrayPatt]
  split_ifs
  · exact aside_pure _
  · refine (aside_getObj d).bind fun o => ?_
    cases o <;> exact aside_pure _

theorem aside_BstringPatt (x y : Word) : Aside (BstringPatt x y) := by
  rw [BstringPatt]
  split_ifs
  · exact aside_pure _
  · refine (aside_getObj x).bind fun o => ?_
    cases o with
    | string contents =>
      refine (aside_getObj y).bind fun o' => ?_
      cases strcmpEq contents o'.bytes with
      | some b => exact aside_pure _
      | none => exact aside_throw _
    | _ => exact aside_pure _

theorem aside_tagPatt (test : Obj → Bool) (x : Word) : Aside (tagPatt test x) := by
  rw [tagPatt]
  split_ifs
  · exact aside_pure _
  · exact (aside_getObj x).bind fun _ => aside_pure _

theorem aside_readArgs : ∀ slots : List ℤ, Aside (readArgs M slots)
  | [] => aside_pure []
  | i :: is => (aside_readOperand i).bind fun _ =>
      (aside_readArgs is).bind fun _ => aside_pure _

/-! ### Variables and frames -/

theorem aside_closurePtr : Aside (closurePtr M) := by
  refine aside_get.bind fun s => ?_
  cases s.argSizes with
  | nil => exact aside_throw _
  | cons n ns => exact aside_readSlot _

theorem aside_getSlot (slot : State → ℤ) :
    Aside ((get : Exec State) >>= fun s => readSlot M (slot s)) :=
  aside_get.bind fun _ => aside_readSlot _

theorem aside_setSlot (slot : State → ℤ) (w : Word) :
    Aside ((get : Exec State) >>= fun s => writeSlot M (slot s) w) :=
  aside_get.bind fun _ => aside_writeSlot _ w

theorem aside_getClosure (index : ℕ) : Aside (getClosure M index) :=
  aside_closurePtr.bind fun _ => aside_Belem _ _

theorem aside_pushStackFrame (n isClosure : ℕ) (ra : Word) :
    Aside (pushStackFrame M n ra isClosure) := by
  refine Aside.bind (aside_modify fun _ => ⟨rfl, rfl, rfl⟩) fun _ => aside_get.bind fun s =>
    (aside_touch _).bind fun _ => Aside.bind ?_ fun _ => (aside_writeSlot _ _).bind fun _ =>
      (aside_writeSlot _ _).bind fun _ => (aside_writeSlot _ _).bind fun _ =>
        aside_modify fun _ => ⟨rfl, rfl, rfl⟩
  split_ifs
  · exact aside_reverseSlots _ _
  · exact aside_pure ()

theorem aside_slotPtr (w : Word) : Aside (slotPtr M w) := by
  rw [slotPtr]
  cases M.slotOf w with
  | some i => exact aside_pure i
  | none => exact aside_throw _

theorem aside_popStackFrame : Aside (popStackFrame M) := by
  refine aside_get.bind fun s => ?_
  cases s.argSizes with
  | nil => exact aside_throw _
  | cons n ns =>
    refine Aside.bind (aside_modify ?_) fun _ => (aside_readSlot _).bind fun w =>
      (aside_slotPtr w).bind fun fp => Aside.bind (aside_modify ?_) fun _ =>
        (aside_readSlot _).bind fun w => (aside_slotPtr w).bind fun top =>
          Aside.bind (aside_modify ?_) fun _ => aside_readSlot _
    all_goals exact fun _ => ⟨rfl, rfl, rfl⟩

theorem aside_pushDesignations : ∀ ds : List Designation, Aside (pushDesignations M ds)
  | [] => aside_pure ()
  | d :: ds => by
    have hrest (w : Word) : Aside (do
        pushOp M w
        pushDesignations M ds) := (aside_pushOp w).bind fun _ => aside_pushDesignations ds
    rw [pushDesignations]
    cases d.memVar with
    | «local» | argument => exact (aside_getSlot _).bind hrest
    | closure => exact (aside_getClosure _).bind hrest
    | global | other => exact Aside.bind (aside_throw _) fun _ => aside_pushDesignations ds

/-! ### Handlers -/

section Handlers

theorem aside_pop {α : Type} {f : Word → Exec α} (hf : ∀ w, Aside (f w)) :
    Aside (do
      let w ← peekOp M
      popOp
      f w) := aside_peekOp.bind fun w => aside_popOp.bind fun _ => hf w

theorem aside_push {x : Exec Word} (hx : Aside x) : Aside (do
    let w ← x
    pushOp M w) := hx.bind fun w => aside_pushOp w

theorem aside_binopInterpreter : Aside (binopInterpreter M) := by
  have hboxed (op : BinOp) : Aside (boxed M op) :=
    aside_pop fun b => aside_pop fun a => aside_pushOp _
  have hunboxed (op : BinOp) : Aside (boxedUnboxed M op) :=
    aside_pop fun b => aside_pop fun a => by
      split_ifs
      · exact aside_throw _
      · exact aside_throw _
      · exact aside_pushOp _
  refine aside_consumeLowerBits0.bind fun low => ?_
  cases BinOp.ofByte low with
  | eq | neq => exact hboxed _
  | other => exact aside_throw _
  | _ => exact hunboxed _

theorem aside_load : Aside (memLoad M) ∧ Aside (stackLda M) := by
  refine ⟨aside_consumeLowerBits1.bind fun (low, index) => ?_,
    aside_consumeLowerBits1.bind fun (low, index) => ?_⟩
  · dsimp only
    cases MemVar.ofByte low with
    | global | «local» | argument => exact aside_push (aside_getSlot _)
    | closure => exact aside_push (aside_getClosure index)
    | other => exact aside_throw _
  · dsimp only
    cases MemVar.ofByte low with
    | global | «local» | argument => exact aside_push (aside_get.bind fun _ => aside_pure _)
    | closure => exact aside_push (aside_getClosure index)
    | other => exact aside_throw _

theorem aside_patt : Aside (patt M) := by
  have hanswer {x : Exec Word} (hx : Aside x) : Aside (do
      let isPatt ← x
      popOp
      pushOp M isPatt) := hx.bind fun w => aside_popOp.bind fun _ => aside_pushOp w
  refine aside_consumeLowerBits0.bind fun low => ?_
  dsimp only
  cases Patt.ofByte low with
  | strCmp =>
    exact aside_pop fun x => aside_peekOp.bind fun y => hanswer (aside_BstringPatt x y)
  | boxed | unBoxed => exact aside_peekOp.bind fun w => hanswer (aside_pure _)
  | other => exact hanswer (aside_throw _)
  | _ => exact aside_peekOp.bind fun w => hanswer (aside_tagPatt _ w)

theorem aside_jumps :
    Aside (jump M) ∧ Aside (jumpIfZero M) ∧ Aside (jumpIfNotZero M) := by
  have hto (p : Prop) [Decidable p] (o : ℤ) : Aside (if p then jumpTo o else return ()) := by
    split_ifs
    · exact aside_jumpTo o
    · exact aside_pure ()
  exact ⟨aside_consumeArgs1.bind fun target => aside_jumpTo target,
    aside_consumeArgs1.bind fun target => aside_pop fun w => hto _ target,
    aside_consumeArgs1.bind fun target => aside_pop fun w => hto _ target⟩

theorem aside_calls : Aside (callStackCall M) ∧ Aside (closuresCall M) :=
  ⟨aside_consumeArgs2.bind fun _ => aside_get.bind fun _ =>
      (aside_pushStackFrame _ _ _).bind fun _ => aside_jumpTo _,
    aside_consumeArgs1.bind fun _ => aside_get.bind fun _ =>
      (aside_readOperand _).bind fun _ => (aside_Belem _ _).bind fun _ =>
        aside_get.bind fun _ => (aside_pushStackFrame _ _ _).bind fun _ => aside_jumpTo _⟩

theorem aside_callStackBegin : Aside (callStackBegin M) := by
  refine aside_consumeArgs2.bind fun _ => aside_get.bind fun _ => ?_
  split_ifs
  · exact (aside_readFileByte _).bind fun _ => aside_throw _
  · exact aside_reserveLocals _

theorem aside_callStackEnd : Aside (callStackEnd M) := by
  refine (aside_advance 1).bind fun _ => aside_peekOp.bind fun w =>
    aside_popStackFrame.bind fun ra => ?_
  split_ifs
  · exact aside_pure true
  · refine Aside.bind (aside_modify ?_) fun _ => (aside_pushOp w).bind fun _ =>
      aside_pure false
    exact fun _ => ⟨rfl, rfl, rfl⟩

theorem aside_unboxingTag : Aside (unboxingTag M) :=
  aside_consumeArgs2.bind fun _ => (aside_getStringPtr _).bind fun p =>
    aside_pop fun d => (aside_LtagHash p).bind fun _ => aside_push (aside_Btag d _ _)

/-- The instructions that may make an object or store into one. -/
def InstructionType.usesHeap : InstructionType → Bool
  | .sexp | .closure | .callString | .callArray | .sta | .sti | .st => true
  | _ => false

/-- All other instructions leave the heap alone. -/
theorem aside_dispatch (type : InstructionType) (htype : type.usesHeap = false) :
    Aside (dispatch E type) := by
  have go {handler : Exec Unit} (h : Aside handler) : Aside (do handler; return false) :=
    h.bind fun _ => aside_pure false
  cases type
  case sexp | closure | callString | callArray | sta | sti | st => cases htype
  case ret | other => exact aside_throw _
  case binop => exact go aside_binopInterpreter
  case const => exact go (aside_consumeArgs1.bind fun _ => aside_pushOp _)
  case string => exact go (aside_consumeArgs1.bind fun _ => aside_push (aside_getStringPtr _))
  case jmp => exact go aside_jumps.1
  case cjmpz => exact go aside_jumps.2.1
  case cjmpnz => exact go aside_jumps.2.2
  case «end» => exact aside_callStackEnd
  case drop => exact go ((aside_advance 1).bind fun _ => aside_popOp)
  case dup => exact go ((aside_advance 1).bind fun _ => aside_push aside_peekOp)
  case swap =>
    exact go ((aside_advance 1).bind fun _ => aside_pop fun a => aside_pop fun b =>
      (aside_pushOp a).bind fun _ => aside_pushOp b)
  case elem =>
    exact go ((aside_advance 1).bind fun _ => aside_pop fun a => aside_pop fun b =>
      aside_push (aside_Belem b a))
  case ld => exact go aside_load.1
  case lda => exact go aside_load.2
  case «begin» | cbegin => exact go aside_callStackBegin
  case callc => exact go aside_calls.2
  case call => exact go aside_calls.1
  case tag => exact go aside_unboxingTag
  case array =>
    exact go (aside_consumeArgs1.bind fun _ => aside_pop fun d =>
      aside_push (aside_BarrayPatt d _))
  case fail => exact go (aside_consumeArgs2.bind fun _ => aside_throw _)
  case line => exact go (aside_advance 5)
  case patt => exact go aside_patt
  case callRead => exact go ((aside_advance 1).bind fun _ => aside_push (aside_Lread E))
  case callWrite => exact go ((aside_advance 1).bind fun _ => aside_peekOp.bind fun w => aside_Lwrite w)
  case callLength =>
    exact go ((aside_advance 1).bind fun _ => aside_pop fun w => aside_push (aside_Llength w))

end Handlers

end Operations

end LamaSM
