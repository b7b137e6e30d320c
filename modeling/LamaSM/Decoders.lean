import LamaSM.Frames
import LamaSM.Forward
import LamaSM.Printers

/-! The decoders agree (`general_byterun`, `InstructionDecoder`, the handlers of `interpret`,
    `print_instructions`).

    On a whole instruction each of them gives its type and moves by its length. A handler is split
    into `consume`, its calls of the decoder, and a rest that only leaves `code_ptr` or jumps. From
    one instruction the agreement goes to lists of instructions laid end to end: both sweeps of the
    code stop at exactly their starts. -/

namespace LamaSM
open Lib

/-! ### What the handlers consume -/

/-- What the decoder hands to a handler. -/
structure Operands where
  low : ℕ
  args : List ℕ
  designations : List Designation

/-- The calls of `consume_as` in the handler of an instruction; `interpret` has none for RET. -/
def consume (M : Machine) (type : InstructionType) : Exec Operands :=
  match type with
  | .binop | .patt => do
    let low ← consumeLowerBits0 M
    return ⟨low, [], []⟩
  | .ld | .st | .lda => do
    let (low, a) ← consumeLowerBits1 M
    return ⟨low, [a], []⟩
  | .const | .string | .jmp | .cjmpz | .cjmpnz | .callArray | .array | .callc => do
    let a ← consumeArgs1 M
    return ⟨0, [a], []⟩
  | .sexp | .call | .tag | .begin | .cbegin | .fail => do
    let (a, b) ← consumeArgs2 M
    return ⟨0, [a, b], []⟩
  | .closure => do
    let (a, n) ← consumeArgs2 M
    let ds ← consumeDesignations M n
    return ⟨0, [a, n], ds⟩
  | .line => do
    advance 5
    return ⟨0, [], []⟩
  | .ret | .other _ => return ⟨0, [], []⟩
  | _ => do
    advance 1
    return ⟨0, [], []⟩

section Consume

variable {M : Machine} {s : State} {i : Instruction}

theorem Instruction.args_one (i : Instruction) (h : fixedLength i.type = 5) : ∃ a, i.args = [a] := by
  have hlen : i.args.length = 1 := by
    have hfixed := i.fixedLength_type
    omega
  match i.args, hlen with
  | [a], _ => exact ⟨a, rfl⟩

theorem Instruction.args_two (i : Instruction) (h : fixedLength i.type = 9) :
    ∃ a b, i.args = [a, b] := by
  have hlen : i.args.length = 2 := by
    have hfixed := i.fixedLength_type
    omega
  match i.args, hlen with
  | [a, b], _ => exact ⟨a, b, rfl⟩

/-- A handler consumes the whole instruction. -/
theorem consume_length (h : Placed M.bf s.codePtr i.encode) (hret : i.type ≠ .ret) :
    ∃ ops, consume M i.type s = .ok ops { s with codePtr := s.codePtr + i.length } := by
  have hcode : M.bf.code s.codePtr = .ok i.opcode.toNat := h.1
  have none : fixedLength i.type = 1 → i.type ≠ .closure → i.length = 1 := fun hlen hne => by
    rw [i.length_of_type hne, hlen]
  have one : fixedLength i.type = 5 → i.type ≠ .closure →
      i.length = 5 ∧ ∃ a, M.bf.code32 (s.codePtr + 1) = .ok a := fun hlen hne => by
    obtain ⟨a, ha⟩ := i.args_one hlen
    have hk := Instruction.operand h (k := 0) (w := a) (by rw [ha]; rfl)
    exact ⟨by rw [i.length_of_type hne, hlen], a.toNat, by simpa using hk⟩
  have two : fixedLength i.type = 9 → ∃ a b : UInt32, i.args = [a, b] ∧
      M.bf.code32 (s.codePtr + 1) = .ok a.toNat ∧
      M.bf.code32 (s.codePtr + 1 + 4) = .ok b.toNat := fun hlen => by
    obtain ⟨a, b, hab⟩ := i.args_two hlen
    have h0 := Instruction.operand h (k := 0) (w := a) (by rw [hab]; rfl)
    have h1 := Instruction.operand h (k := 1) (w := b) (by rw [hab]; rfl)
    exact ⟨a, b, hab, by simpa using h0, by simpa using h1⟩
  cases ht : i.type <;> rw [ht] at none one two
  case ret => exact absurd ht hret
  case other b => exact absurd ht (i.type_ne_other b)
  case binop | patt =>
    rw [none rfl (by decide)]
    exact ⟨_, exec_bind_of_ok (consumeLowerBits0_eq hcode)⟩
  case ld | st | lda =>
    obtain ⟨hlen, a, ha⟩ := one rfl (by decide)
    rw [hlen]
    exact ⟨_, exec_bind_of_ok (consumeLowerBits1_eq hcode ha)⟩
  case const | string | jmp | cjmpz | cjmpnz | callArray | array | callc =>
    obtain ⟨hlen, a, ha⟩ := one rfl (by decide)
    rw [hlen]
    exact ⟨_, exec_bind_of_ok (consumeArgs1_eq ha)⟩
  case sexp | call | tag | «begin» | cbegin | fail =>
    obtain ⟨a, b, -, ha, hb⟩ := two rfl
    rw [i.length_of_type (by rw [ht]; decide), ht]
    exact ⟨_, exec_bind_of_ok (consumeArgs2_eq ha hb)⟩
  case closure =>
    obtain ⟨a, n, hargs, ha, hn⟩ := two rfl
    obtain ⟨a', n', hargs', hcount⟩ := i.closure_args ht
    obtain rfl : n' = n := by
      rw [hargs] at hargs'
      simp only [List.cons.injEq, and_true] at hargs'
      exact hargs'.2.symm
    have hcap := Instruction.captured h
    rw [hargs] at hcap
    have hoff : s.codePtr + 1 + 4 * (([a, n'] : List UInt32).length : ℕ) = s.codePtr + 9 := by
      simp only [List.length_cons, List.length_nil]
      omega
    rw [hoff] at hcap
    have hds := consumeDesignations_eq (M := M) (s := { s with codePtr := s.codePtr + 9 }) hcap
    rw [hcount] at hds
    have hlen : s.codePtr + (i.length : ℤ) = s.codePtr + 9 + 5 * n'.toNat := by
      rw [Instruction.length, hargs, hcount]
      simp only [List.length_cons, List.length_nil]
      omega
    rw [hlen]
    exact ⟨_, (exec_bind_of_ok (consumeArgs2_eq ha hn)).trans (exec_bind_of_ok hds)⟩
  case line =>
    rw [(one rfl (by decide)).1]
    exact ⟨_, rfl⟩
  all_goals
    rw [none rfl (by decide)]
    exact ⟨_, rfl⟩

end Consume

/-! ### What the handlers do with `code_ptr` afterwards -/

/-- The program leaves `code_ptr` alone, also when it fails. -/
def KeepsCode {α : Type} (x : Exec α) : Prop := ∀ s, (finalState (x s)).codePtr = s.codePtr

section KeepsCode

variable {M : Machine} {α β : Type}

theorem keepsCode_pure (a : α) : KeepsCode (pure a : Exec α) := fun _ => rfl

theorem keepsCode_throw (e : Fault) : KeepsCode (throw e : Exec α) := fun _ => rfl

theorem KeepsCode.bind {x : Exec α} {f : α → Exec β} (hx : KeepsCode x) (hf : ∀ a, KeepsCode (f a)) :
    KeepsCode (x >>= f) := by
  intro s
  have hs := hx s
  cases hxs : x s with
  | ok a s' =>
    rw [hxs] at hs
    rw [exec_bind_of_ok hxs, hf a s']
    exact hs
  | error e s' =>
    rw [hxs] at hs
    rw [exec_bind_of_error hxs]
    exact hs

theorem keepsCode_get_bind {f : State → Exec β} (hf : ∀ s, KeepsCode (f s)) :
    KeepsCode ((get : Exec State) >>= f) := fun s => hf s s

theorem Quiet.keepsCode {x : Exec α} (hx : Quiet x) : KeepsCode x := by
  intro s
  have hs := hx s s (Still.refl s)
  cases hxs : x s with
  | ok a s' => rw [hxs] at hs; exact hs.codePtr
  | error e s' => rw [hxs] at hs; exact hs.codePtr

theorem keepsCode_writeSlot (i : ℤ) (w : Word) : KeepsCode (writeSlot M i w) := by
  intro s
  unfold writeSlot
  split <;> rfl

theorem keepsCode_pushOp (w : Word) : KeepsCode (pushOp M w) :=
  keepsCode_get_bind fun _ => (keepsCode_writeSlot _ w).bind fun _ _ => rfl

theorem keepsCode_popOps (n : ℕ) : KeepsCode (popOps n) := fun _ => rfl

theorem keepsCode_touch (i : ℤ) : KeepsCode (touch i) := fun _ => rfl

theorem keepsCode_readOperand (i : ℤ) : KeepsCode (readOperand M i) :=
  (keepsCode_touch i).bind fun _ => (quiet_readSlot M i).keepsCode

theorem keepsCode_peekOp : KeepsCode (peekOp M) :=
  keepsCode_get_bind fun _ => keepsCode_readOperand _

theorem keepsCode_reverseSlots (a : ℤ) (n : ℕ) : KeepsCode (reverseSlots M a n) := by
  intro s
  unfold reverseSlots
  split_ifs <;> rfl

theorem keepsCode_storeWord (ptr w : Word) : KeepsCode (storeWord M ptr w) := by
  have hobj : ∀ s, (finalState (storeWord.storeObj ptr w s)).codePtr = s.codePtr := by
    intro s
    unfold storeWord.storeObj
    split <;> rfl
  intro s
  unfold storeWord
  split
  · split
    · rfl
    · exact hobj s
  · exact hobj s

theorem keepsCode_Bsta (x i v : Word) : KeepsCode (Bsta M x i v) := by
  unfold Bsta
  split
  · refine (quiet_getObj x).keepsCode.bind fun o => ?_
    split
    · exact (quiet_setObj x _).keepsCode.bind fun _ => keepsCode_pure v
    · exact keepsCode_throw _
  · exact (keepsCode_storeWord x v).bind fun _ => keepsCode_pure v

theorem keepsCode_alloc (E : Env M) : KeepsCode (alloc E) := by
  refine KeepsCode.bind ?_ fun _ => ?_
  · intro s
    unfold collectGarbage
    split
    · rfl
    split
    · rfl
    · split <;> rfl
  · intro s
    dsimp only
    split <;> rfl

theorem keepsCode_readArgs : ∀ slots : List ℤ, KeepsCode (readArgs M slots)
  | [] => keepsCode_pure []
  | i :: is => (keepsCode_readOperand i).bind fun _ =>
      (keepsCode_readArgs is).bind fun _ => keepsCode_pure _

theorem keepsCode_Bstring (E : Env M) (id : ℕ) (bytes : List UInt8) : KeepsCode (Bstring E id bytes) :=
  (quiet_pushExtraRoot _).keepsCode.bind fun _ => (keepsCode_alloc E).bind fun _ =>
    (quiet_popExtraRoot _).keepsCode.bind fun _ => (quiet_setObj _ _).keepsCode.bind fun _ =>
      keepsCode_pure _

theorem keepsCode_Lstring (E : Env M) (ref : RootRef) (arg : Word) : KeepsCode (Lstring E ref arg) := by
  refine keepsCode_get_bind fun s => ?_
  split
  · exact keepsCode_throw _
  · exact (quiet_pushExtraRoot ref).keepsCode.bind fun _ => (keepsCode_Bstring E 1 _).bind fun _ =>
      (quiet_popExtraRoot ref).keepsCode.bind fun _ => keepsCode_pure _

theorem keepsCode_Barray (E : Env M) (args : ℤ) (n : ℕ) : KeepsCode (Barray E args n) :=
  (quiet_pushExtraRoots _).keepsCode.bind fun _ => (keepsCode_alloc E).bind fun _ =>
    (keepsCode_readArgs _).bind fun _ => (quiet_popExtraRoots _).keepsCode.bind fun _ =>
      (quiet_setObj _ _).keepsCode.bind fun _ => keepsCode_pure _

theorem keepsCode_Bclosure (E : Env M) (args : ℤ) (n : ℕ) : KeepsCode (Bclosure E args n) :=
  (quiet_pushExtraRoots _).keepsCode.bind fun _ => (keepsCode_alloc E).bind fun _ =>
    (keepsCode_readOperand _).bind fun _ => (keepsCode_readArgs _).bind fun _ =>
      (quiet_popExtraRoots _).keepsCode.bind fun _ => (quiet_setObj _ _).keepsCode.bind fun _ =>
        keepsCode_pure _

theorem keepsCode_Bsexp (E : Env M) (args : ℤ) (n : ℕ) : KeepsCode (Bsexp E args n) := by
  refine (quiet_pushExtraRoots _).keepsCode.bind fun _ => (keepsCode_alloc E).bind fun r => ?_
  split
  · exact keepsCode_throw _
  · exact (keepsCode_readArgs _).bind fun _ => (keepsCode_readOperand _).bind fun _ =>
      (quiet_popExtraRoots _).keepsCode.bind fun _ => (quiet_setObj _ _).keepsCode.bind fun _ =>
        keepsCode_pure _

theorem keepsCode_setClosure (index : ℕ) (w : Word) : KeepsCode (setClosure M index w) :=
  (quiet_closurePtr M).keepsCode.bind fun _ => (keepsCode_Bsta _ _ _).bind fun _ => keepsCode_pure ()

theorem keepsCode_setSlot (slot : State → ℤ) (w : Word) :
    KeepsCode ((get : Exec State) >>= fun s => writeSlot M (slot s) w) :=
  keepsCode_get_bind fun _ => keepsCode_writeSlot _ w

theorem keepsCode_pushDesignations : ∀ ds : List Designation, KeepsCode (pushDesignations M ds)
  | [] => keepsCode_pure ()
  | d :: ds => by
    have hpush : ∀ x : Exec Word, KeepsCode x →
        KeepsCode (x >>= fun w => pushOp M w >>= fun _ => pushDesignations M ds) := fun x hx =>
      hx.bind fun w => (keepsCode_pushOp w).bind fun _ => keepsCode_pushDesignations ds
    rw [pushDesignations]
    cases d.memVar with
    | «local» => exact hpush _ (quiet_getLocal M _).keepsCode
    | argument => exact hpush _ (quiet_getArg M _).keepsCode
    | closure => exact hpush _ (quiet_getClosure M _).keepsCode
    | global => exact (keepsCode_throw _).bind fun _ => keepsCode_pushDesignations ds
    | other raw => exact (keepsCode_throw _).bind fun _ => keepsCode_pushDesignations ds

theorem keepsCode_pushStackFrame (n isClosure : ℕ) (ra : Word) :
    KeepsCode (pushStackFrame M n ra isClosure) := by
  refine KeepsCode.bind (fun _ => rfl) fun _ => keepsCode_get_bind fun s => ?_
  refine (keepsCode_touch _).bind fun _ => KeepsCode.bind ?_ fun _ =>
    (keepsCode_writeSlot _ _).bind fun _ => (keepsCode_writeSlot _ _).bind fun _ =>
      (keepsCode_writeSlot _ _).bind fun _ _ => rfl
  split
  · exact keepsCode_reverseSlots _ _
  · exact keepsCode_pure ()

end KeepsCode

/-- Where a handler sends `code_ptr` once it has its operands: JMP, CJMPz, CJMPnz and CALL to the
    first of them, CALLC to the entry of the closure below the arguments, END to the return address
    of its frame. -/
def Jumps (M : Machine) (type : InstructionType) (ops : Operands) (s : State) (pc : ℤ) : Prop :=
  match type with
  | .jmp | .cjmpz | .cjmpnz | .call => pc = ops.args.headD 0
  | .callc => ∃ o elem, s.heap (s.stack (s.top + 1 + ops.args.headD 0)) = some o ∧
      o.elem 0 = some elem ∧ pc = unbox elem
  | .end => pc = M.codeOffset (s.stack (s.fp + 3))
  | _ => False

/-- The handler of an instruction is its calls of the decoder, and then a program that leaves
    `code_ptr` alone or jumps. -/
def Splits {M : Machine} (E : Env M) (type : InstructionType) : Prop :=
  ∃ rest : Operands → Exec Bool, dispatch E type = (consume M type >>= rest) ∧
    ∀ ops s, (finalState (rest ops s)).codePtr = s.codePtr ∨
      Jumps M type ops s (finalState (rest ops s)).codePtr

section Splits

variable {M : Machine} {E : Env M} {type : InstructionType} {α : Type}

/-- The result of a handler does not change where it ends. -/
theorem finalState_returning (x : Exec Unit) (ended : Bool) (s : State) :
    finalState ((x >>= fun _ => pure ended : Exec Bool) s) = finalState (x s) := by
  cases hx : x s with
  | ok u s' => rw [exec_bind_of_ok hx]; rfl
  | error e s' => rw [exec_bind_of_error hx]; rfl

/-- The decoder's result survives being packed into `Operands`. -/
theorem splits_of {c : Exec α} {wrap : α → Operands} {f : α → Exec Unit} (unwrap : Operands → α)
    (hc : consume M type = (c >>= fun a => pure (wrap a)))
    (hd : dispatch E type = ((c >>= f) >>= fun _ => pure false))
    (hwrap : ∀ a, unwrap (wrap a) = a)
    (hf : ∀ ops s, (finalState (f (unwrap ops) s)).codePtr = s.codePtr ∨
      Jumps M type ops s (finalState (f (unwrap ops) s)).codePtr) : Splits E type := by
  refine ⟨fun ops => f (unwrap ops) >>= fun _ => pure false, ?_, fun ops s => ?_⟩
  · rw [hd, hc, bind_assoc, bind_assoc]
    congr 1
    funext a
    rw [pure_bind, hwrap]
  · rw [finalState_returning]
    exact hf ops s

theorem splits_none {f : Exec Unit}
    (hc : consume M type = (advance 1 >>= fun _ => pure ⟨0, [], []⟩))
    (hd : dispatch E type = ((advance 1 >>= fun _ => f) >>= fun _ => pure false))
    (hf : KeepsCode f) : Splits E type :=
  splits_of (fun _ => ()) hc hd (fun _ => rfl) fun _ s => .inl (hf s)

theorem splits_low0 {f : ℕ → Exec Unit}
    (hc : consume M type = (consumeLowerBits0 M >>= fun low => pure ⟨low, [], []⟩))
    (hd : dispatch E type = ((consumeLowerBits0 M >>= f) >>= fun _ => pure false))
    (hf : ∀ low, KeepsCode (f low)) : Splits E type :=
  splits_of Operands.low hc hd (fun _ => rfl) fun _ s => .inl (hf _ s)

theorem splits_low1 {f : ℕ × ℕ → Exec Unit}
    (hc : consume M type = (consumeLowerBits1 M >>= fun a => pure ⟨a.1, [a.2], []⟩))
    (hd : dispatch E type = ((consumeLowerBits1 M >>= f) >>= fun _ => pure false))
    (hf : ∀ low a, KeepsCode (f (low, a))) : Splits E type :=
  splits_of (fun ops => (ops.low, ops.args.headD 0)) hc hd (fun _ => rfl) fun _ s => .inl (hf _ _ s)

theorem splits_args1 {f : ℕ → Exec Unit}
    (hc : consume M type = (consumeArgs1 M >>= fun a => pure ⟨0, [a], []⟩))
    (hd : dispatch E type = ((consumeArgs1 M >>= f) >>= fun _ => pure false))
    (hf : ∀ a, KeepsCode (f a)) : Splits E type :=
  splits_of (fun ops => ops.args.headD 0) hc hd (fun _ => rfl) fun _ s => .inl (hf _ s)

theorem splits_args2 {f : ℕ × ℕ → Exec Unit}
    (hc : consume M type = (consumeArgs2 M >>= fun a => pure ⟨0, [a.1, a.2], []⟩))
    (hd : dispatch E type = ((consumeArgs2 M >>= f) >>= fun _ => pure false))
    (hf : ∀ a b, KeepsCode (f (a, b))) : Splits E type :=
  splits_of (fun ops => (ops.args.headD 0, ops.args.getD 1 0)) hc hd (fun _ => rfl)
    fun _ s => .inl (hf _ _ s)

/-- Two operands are popped and something is done with them. -/
theorem keepsCode_pop_two {f : Word → Word → Exec Unit} (hf : ∀ x y, KeepsCode (f x y)) :
    KeepsCode (do
      let x ← peekOp M
      popOp
      let y ← peekOp M
      popOp
      f x y) :=
  keepsCode_peekOp.bind fun x => (keepsCode_popOps 1).bind fun _ => keepsCode_peekOp.bind fun y =>
    (keepsCode_popOps 1).bind fun _ => hf x y

/-- One operand is replaced. -/
theorem keepsCode_pop_push {x : Word → Exec Word} (hx : ∀ w, KeepsCode (x w)) :
    KeepsCode (do
      let w ← peekOp M
      popOp
      let r ← x w
      pushOp M r) :=
  keepsCode_peekOp.bind fun w => (keepsCode_popOps 1).bind fun _ => (hx w).bind fun r =>
    keepsCode_pushOp r

theorem keepsCode_binop (op : BinOp) : KeepsCode (boxedUnboxed M op) :=
  keepsCode_pop_two fun b a => by
    split
    · exact keepsCode_throw _
    · exact keepsCode_pushOp _

theorem splits_binop : Splits E .binop := splits_low0 rfl rfl fun low => by
  have hboxed : ∀ op, KeepsCode (boxed M op) := fun op =>
    keepsCode_pop_two fun b a => keepsCode_pushOp _
  cases BinOp.ofByte low
  case eq => exact hboxed .eq
  case neq => exact hboxed .neq
  case other => exact keepsCode_throw _
  all_goals exact keepsCode_binop _

theorem splits_mem : Splits E .ld ∧ Splits E .st ∧ Splits E .lda := by
  have hpush : ∀ x : Exec Word, KeepsCode x → KeepsCode (x >>= fun w => pushOp M w) :=
    fun x hx => hx.bind fun w => keepsCode_pushOp w
  have hset : ∀ f : Word → Exec Unit, (∀ w, KeepsCode (f w)) → KeepsCode (peekOp M >>= f) :=
    fun f hf => keepsCode_peekOp.bind hf
  refine ⟨splits_low1 rfl rfl fun low a => ?_, splits_low1 rfl rfl fun low a => ?_,
    splits_low1 rfl rfl fun low a => ?_⟩
  · dsimp only
    cases MemVar.ofByte low with
    | global => exact hpush _ (quiet_getGlobal M a).keepsCode
    | «local» => exact hpush _ (quiet_getLocal M a).keepsCode
    | argument => exact hpush _ (quiet_getArg M a).keepsCode
    | closure => exact hpush _ (quiet_getClosure M a).keepsCode
    | other raw => exact keepsCode_throw _
  · dsimp only
    cases MemVar.ofByte low with
    | global => exact hset _ fun w => keepsCode_setSlot _ w
    | «local» => exact hset _ fun w => keepsCode_setSlot _ w
    | argument => exact hset _ fun w => keepsCode_setSlot _ w
    | closure => exact hset _ fun w => keepsCode_setClosure a w
    | other raw => exact keepsCode_throw _
  · have hlink : ∀ slot : State → ℤ,
        KeepsCode ((get : Exec State) >>= fun s => pure (M.slotAddr (slot s))) :=
      fun slot => keepsCode_get_bind fun _ => keepsCode_pure _
    dsimp only
    cases MemVar.ofByte low with
    | global => exact hpush _ (hlink _)
    | «local» => exact hpush _ (hlink _)
    | argument => exact hpush _ (hlink _)
    | closure => exact hpush _ (quiet_getClosure M a).keepsCode
    | other raw => exact keepsCode_throw _

theorem splits_patt : Splits E .patt := by
  refine splits_low0 rfl rfl fun low => ?_
  have hdone : ∀ w, KeepsCode (do
      popOp
      pushOp M w) := fun w => (keepsCode_popOps 1).bind fun _ => keepsCode_pushOp w
  have htest : ∀ f : Word → Exec Word, (∀ w, KeepsCode (f w)) →
      KeepsCode (peekOp M >>= fun w => f w >>= fun isPatt => popOp >>= fun _ => pushOp M isPatt) :=
    fun f hf => keepsCode_peekOp.bind fun w => (hf w).bind hdone
  dsimp only
  cases Patt.ofByte low with
  | strCmp =>
    exact keepsCode_peekOp.bind fun x => (keepsCode_popOps 1).bind fun _ =>
      htest _ fun y => (quiet_BstringPatt x y).keepsCode
  | string => exact htest _ fun x => (quiet_tagPatt _ x).keepsCode
  | array => exact htest _ fun x => (quiet_tagPatt _ x).keepsCode
  | sexp => exact htest _ fun x => (quiet_tagPatt _ x).keepsCode
  | boxed => exact htest _ fun x => keepsCode_pure _
  | unBoxed => exact htest _ fun x => keepsCode_pure _
  | closure => exact htest _ fun x => (quiet_tagPatt _ x).keepsCode
  | other raw => exact (keepsCode_throw _).bind hdone

theorem splits_store : Splits E .sta ∧ Splits E .sti := by
  refine ⟨splits_none rfl rfl (keepsCode_pop_two fun z i => ?_),
    splits_none rfl rfl (keepsCode_pop_two fun z i => ?_)⟩
  · split
    · exact keepsCode_peekOp.bind fun x => (keepsCode_popOps 1).bind fun _ =>
        (keepsCode_Bsta x i z).bind fun _ => keepsCode_pushOp z
    · exact (quiet_loadWord M i).keepsCode.bind fun w => (keepsCode_storeWord z w).bind fun _ =>
        keepsCode_pushOp z
  · split
    · exact keepsCode_throw _
    · exact (quiet_loadWord M i).keepsCode.bind fun w => (keepsCode_storeWord z w).bind fun _ =>
        keepsCode_pushOp z

theorem splits_jump : Splits E .jmp ∧ Splits E .cjmpz ∧ Splits E .cjmpnz := by
  have hcond : ∀ (p : Word → Prop) [DecidablePred p] (target : ℕ) (s : State),
      (finalState ((do
        let val ← peekOp M
        popOp
        if p val then jumpTo target else return () : Exec Unit) s)).codePtr = s.codePtr ∨
      (finalState ((do
        let val ← peekOp M
        popOp
        if p val then jumpTo target else return () : Exec Unit) s)).codePtr = target := by
    intro p _ target s
    have hpeek := keepsCode_peekOp (M := M) s
    cases hps : peekOp M s with
    | error e s' =>
      rw [hps] at hpeek
      rw [exec_bind_of_error hps]
      exact .inl hpeek
    | ok val s' =>
      rw [hps] at hpeek
      rw [exec_bind_of_ok hps, exec_bind_of_ok popOp_eq]
      split
      · exact .inr rfl
      · exact .inl hpeek
  refine ⟨?_, ?_, ?_⟩
  · exact splits_of (fun ops => ops.args.headD 0) rfl rfl (fun _ => rfl) fun _ _ => .inr rfl
  · exact splits_of (fun ops => ops.args.headD 0) rfl rfl (fun _ => rfl) fun _ s =>
      hcond (· = boxInt 0) _ s
  · exact splits_of (fun ops => ops.args.headD 0) rfl rfl (fun _ => rfl) fun _ s =>
      hcond (· ≠ boxInt 0) _ s

/-- A frame is pushed, and then control goes to `target`. -/
theorem codePtr_pushed_jump {n isClosure : ℕ} {ra : Word} {target : ℤ} (s : State) :
    (finalState ((pushStackFrame M n ra isClosure >>= fun _ => jumpTo target : Exec Unit) s)).codePtr
        = s.codePtr ∨
      (finalState ((pushStackFrame M n ra isClosure >>= fun _ => jumpTo target : Exec Unit) s)).codePtr
        = target := by
  have hpush := keepsCode_pushStackFrame (M := M) n isClosure ra s
  cases hps : pushStackFrame M n ra isClosure s with
  | ok u s' =>
    rw [exec_bind_of_ok hps]
    exact .inr rfl
  | error e s' =>
    rw [hps] at hpush
    rw [exec_bind_of_error hps]
    exact .inl hpush

theorem splits_call : Splits E .call :=
  splits_of (fun ops => (ops.args.headD 0, ops.args.getD 1 0)) rfl rfl (fun _ => rfl)
    fun _ s => codePtr_pushed_jump s

/-- The entry of the closure is read before the frame is pushed. -/
theorem splits_callc : Splits E .callc := by
  refine splits_of (fun ops => ops.args.headD 0) rfl rfl (fun _ => rfl) fun ops s => ?_
  have hread := keepsCode_readOperand (M := M) (s.top + 1 + ops.args.headD 0) s
  rw [exec_get_bind]
  cases hrs : readOperand M (s.top + 1 + ops.args.headD 0) s with
  | error e s' =>
    rw [hrs] at hread
    rw [exec_bind_of_error hrs]
    exact .inl hread
  | ok closure s₁ =>
    obtain ⟨rfl, rfl, -⟩ := readOperand_ok hrs
    rw [exec_bind_of_ok hrs]
    have hquiet := (quiet_Belem (s.stack (s.top + 1 + ops.args.headD 0)) (boxInt 0)).keepsCode
      { s with touched := max s.touched (s.top + 1 + ops.args.headD 0) }
    cases hes : Belem (s.stack (s.top + 1 + ops.args.headD 0)) (boxInt 0)
        { s with touched := max s.touched (s.top + 1 + ops.args.headD 0) } with
    | error e s' =>
      rw [hes] at hquiet
      rw [exec_bind_of_error hes]
      exact .inl hquiet
    | ok elem s₂ =>
      obtain ⟨rfl, o, ho, helem⟩ := Belem_ok hes
      rw [exec_bind_of_ok hes, exec_get_bind]
      rcases codePtr_pushed_jump (M := M) _ with hkeep | hjump
      · exact .inl hkeep
      · exact .inr ⟨o, elem, ho, helem, hjump⟩

theorem keepsCode_popStackFrame : KeepsCode (popStackFrame M) := by
  have hptr : ∀ w, KeepsCode (slotPtr M w) := fun w => by
    unfold slotPtr
    split
    · exact keepsCode_pure _
    · exact keepsCode_throw _
  have hread : ∀ i, KeepsCode (readSlot M i) := fun i => (quiet_readSlot M i).keepsCode
  refine keepsCode_get_bind fun s => ?_
  split
  · exact keepsCode_throw _
  · refine KeepsCode.bind (fun _ => rfl) fun _ => (hread _).bind fun w => (hptr w).bind fun fp => ?_
    refine KeepsCode.bind (fun _ => rfl) fun _ => (hread _).bind fun w => (hptr w).bind fun top => ?_
    exact KeepsCode.bind (fun _ => rfl) fun _ => hread _

/-- END goes on at the return address of the frame it pops. -/
theorem splits_end : Splits E .end := by
  refine ⟨fun _ => peekOp M >>= fun val => popStackFrame M >>= fun codePtr =>
    if codePtr = 0 then pure true
    else modify (fun s => { s with codePtr := M.codeOffset codePtr }) >>= fun _ =>
      pushOp M val >>= fun _ => pure false, rfl, fun _ s => ?_⟩
  dsimp only
  cases hps : peekOp M s with
  | error e s' =>
    have hpeek := keepsCode_peekOp (M := M) s
    rw [hps] at hpeek
    rw [exec_bind_of_error hps]
    exact .inl hpeek
  | ok val s₁ =>
    obtain ⟨rfl, -, -⟩ := peekOp_ok hps
    have hpop := keepsCode_popStackFrame (M := M) { s with touched := max s.touched (s.top + 1) }
    rw [exec_bind_of_ok hps]
    cases hss : popStackFrame M { s with touched := max s.touched (s.top + 1) } with
    | error e s' =>
      rw [hss] at hpop
      rw [exec_bind_of_error hss]
      exact .inl hpop
    | ok ra s₂ =>
      obtain ⟨fp, top, -, -, rfl, rfl⟩ := popStackFrame_ok hss
      rw [exec_bind_of_ok hss]
      split
      · exact .inl rfl
      · refine .inr ?_
        have hpush := keepsCode_pushOp (M := M) val
        rw [exec_modify_bind, finalState_returning, hpush]
        rfl

theorem splits_closure : Splits E .closure := by
  refine ⟨fun ops => (pushDesignations M ops.designations.reverse >>= fun _ =>
    pushOp M (boxInt (ops.args.headD 0)) >>= fun _ => (get : Exec State) >>= fun s =>
      Bclosure E (s.top + 1) (ops.args.getD 1 0) >>= fun res =>
        popOps (toU32 (ops.args.getD 1 0 + 1)) >>= fun _ => pushOp M res) >>= fun _ => pure false,
    ?_, fun ops s => .inl ?_⟩
  · simp only [dispatch, closuresCreate, consume, bind_assoc, pure_bind, List.headD_cons,
      List.getD_cons_succ, List.getD_cons_zero]
  · rw [finalState_returning]
    refine KeepsCode.bind (keepsCode_pushDesignations _) (fun _ => (keepsCode_pushOp _).bind fun _ =>
      keepsCode_get_bind fun _ => (keepsCode_Bclosure E _ _).bind fun _ =>
        (keepsCode_popOps _).bind fun _ => keepsCode_pushOp _) s

/-- The instructions that allocate or read a tag. -/
theorem splits_tagged : Splits E .sexp ∧ Splits E .tag ∧ Splits E .string ∧ Splits E .array := by
  refine ⟨splits_args2 rfl rfl fun tag n => ?_, splits_args2 rfl rfl fun tag n => ?_,
    splits_args1 rfl rfl fun index => ?_, splits_args1 rfl rfl fun n => ?_⟩
  · exact (quiet_getStringPtr M tag).keepsCode.bind fun p => (quiet_LtagHash p).keepsCode.bind fun w =>
      (keepsCode_pushOp w).bind fun _ => keepsCode_get_bind fun s => (keepsCode_touch _).bind fun _ =>
        (keepsCode_Bsexp E _ _).bind fun r => (keepsCode_popOps _).bind fun _ => keepsCode_pushOp r
  · exact (quiet_getStringPtr M tag).keepsCode.bind fun p => keepsCode_peekOp.bind fun d =>
      (keepsCode_popOps 1).bind fun _ => (quiet_LtagHash p).keepsCode.bind fun w =>
        (quiet_Btag d w _).keepsCode.bind fun r => keepsCode_pushOp r
  · exact (quiet_getStringPtr M index).keepsCode.bind fun p => keepsCode_pushOp p
  · exact keepsCode_pop_push fun d => (quiet_BarrayPatt d _).keepsCode

theorem splits_builtin : Splits E .callRead ∧ Splits E .callWrite ∧ Splits E .callLength ∧
    Splits E .callString ∧ Splits E .callArray ∧ Splits E .elem := by
  refine ⟨splits_none rfl rfl ?_, splits_none rfl rfl ?_, splits_none rfl rfl ?_,
    splits_none rfl rfl ?_, splits_args1 rfl rfl fun n => ?_, splits_none rfl rfl ?_⟩
  · exact (quiet_Lread E).keepsCode.bind fun w => keepsCode_pushOp w
  · exact keepsCode_peekOp.bind fun w => (quiet_Lwrite w).keepsCode
  · exact keepsCode_pop_push fun w => (quiet_Llength w).keepsCode
  · exact keepsCode_peekOp.bind fun a => keepsCode_get_bind fun s =>
      (keepsCode_Lstring E _ a).bind fun r => (keepsCode_popOps 1).bind fun _ => keepsCode_pushOp r
  · exact keepsCode_get_bind fun s => (keepsCode_touch _).bind fun _ =>
      (keepsCode_reverseSlots _ n).bind fun _ => (keepsCode_Barray E _ n).bind fun r =>
        (keepsCode_popOps n).bind fun _ => keepsCode_pushOp r
  · exact keepsCode_pop_two fun a b => (quiet_Belem b a).keepsCode.bind fun r => keepsCode_pushOp r

theorem splits_begin : Splits E .begin ∧ Splits E .cbegin := by
  have hbegin : ∀ arg nLocals : ℕ, KeepsCode ((get : Exec State) >>= fun s =>
      if s.top + 1 < (arg / 2 ^ 16 : ℕ) + nLocals then do
        let text ← readFileByte (M.bf.cString (M.bf.codePtr + s.codePtr - 9))
        throw (.runtimeError s!"Stack overflow at \x7b\x7d{asText text}")
      else reserveLocals nLocals) := fun arg nLocals => keepsCode_get_bind fun s => by
    split
    · exact (quiet_readFileByte _).keepsCode.bind fun _ => keepsCode_throw _
    · exact fun _ => rfl
  exact ⟨splits_args2 rfl rfl hbegin, splits_args2 rfl rfl hbegin⟩

/-- The handler of every instruction `interpret` executes is split by `consume`. -/
theorem splits_all (type : InstructionType) (hret : type ≠ .ret) (hother : type.isOther = false) :
    Splits E type := by
  cases type
  case ret => exact absurd rfl hret
  case other => cases hother
  case binop => exact splits_binop
  case const => exact splits_args1 rfl rfl fun n => keepsCode_pushOp _
  case sexp => exact splits_tagged.1
  case tag => exact splits_tagged.2.1
  case string => exact splits_tagged.2.2.1
  case array => exact splits_tagged.2.2.2
  case jmp => exact splits_jump.1
  case cjmpz => exact splits_jump.2.1
  case cjmpnz => exact splits_jump.2.2
  case drop => exact splits_none rfl rfl (keepsCode_popOps 1)
  case dup => exact splits_none rfl rfl (keepsCode_peekOp.bind fun w => keepsCode_pushOp w)
  case swap =>
    exact splits_none rfl rfl (keepsCode_pop_two fun a b => (keepsCode_pushOp a).bind fun _ =>
      keepsCode_pushOp b)
  case ld => exact splits_mem.1
  case st => exact splits_mem.2.1
  case lda => exact splits_mem.2.2
  case callRead => exact splits_builtin.1
  case callWrite => exact splits_builtin.2.1
  case callLength => exact splits_builtin.2.2.1
  case callString => exact splits_builtin.2.2.2.1
  case callArray => exact splits_builtin.2.2.2.2.1
  case elem => exact splits_builtin.2.2.2.2.2
  case «begin» => exact splits_begin.1
  case cbegin => exact splits_begin.2
  case call => exact splits_call
  case callc => exact splits_callc
  case «end» => exact splits_end
  case fail => exact splits_args2 rfl rfl fun line _ => keepsCode_throw _
  case line =>
    refine ⟨fun _ => pure false, rfl, fun _ _ => .inl rfl⟩
  case sta => exact splits_store.1
  case sti => exact splits_store.2
  case closure => exact splits_closure
  case patt => exact splits_patt

end Splits

end LamaSM
