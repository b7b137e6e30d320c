import LamaSM.Roots
import LamaSM.Activations

/-! What the handlers put into the scanned part of the stack.

    Most handlers push boxed integers, new objects, or words they found among the scanned ones. The
    words some of them take from a place the collector does not follow are collected in `Untracked`:
    as long as these are valid, a handler keeps every scanned word valid. -/

namespace LamaSM
open Lib

/-! ### The words the collector does not follow -/

/-- The instruction at `code_ptr` designates the variable. -/
inductive Designated (M : Machine) (s : State) : InstructionType → Designation → Prop
  | operand {type : InstructionType} {low index : ℕ} : type = .ld ∨ type = .st ∨ type = .lda →
      M.bf.lowBitsAt s.codePtr = .ok low → M.bf.code32 (s.codePtr + 1) = .ok index →
      Designated M s type ⟨MemVar.ofByte low, index⟩
  | captured {n k : ℕ} {d : Designation} : M.bf.code32 (s.codePtr + 1 + 4) = .ok n → k < n →
      M.bf.designation (s.codePtr + 9 + 5 * k) = .ok d → Designated M s .closure d

/-- The slot of a variable, none for a captured one. -/
def variableSlot (M : Machine) (s : State) (d : Designation) : Option ℤ :=
  match d.memVar with
  | .global => some (globalSlot M s d.value)
  | .local => some (s.fp - d.value)
  | .argument => some (s.fp + 4 + d.value)
  | _ => none

/-- The slot of the string an instruction names. -/
def namedSlot (M : Machine) (s : State) (index : ℕ) : ℤ :=
  M.maxStack - ((s.stringsMap.lookup index).getD 0 : ℕ) - 1

/-- The instruction at `code_ptr` takes the word from a place no collection rewrites: a slot at or
    below the top, the entry of a closure, the first word of an object that is no pointer, or an
    address it makes itself. -/
inductive Untracked (M : Machine) (s : State) : InstructionType → Word → Prop
  | reserved {type : InstructionType} {nLocals : ℕ} {i : ℤ} : type = .begin ∨ type = .cbegin →
      M.bf.code32 (s.codePtr + 1 + 4) = .ok nLocals → s.top - nLocals < i → i ≤ s.top →
      Untracked M s type (s.stack i)
  | loaded {type : InstructionType} {d : Designation} {i : ℤ} : type = .ld ∨ type = .closure →
      Designated M s type d → variableSlot M s d = some i → 0 ≤ i → i ≤ s.top →
      Untracked M s type (s.stack i)
  | link {d : Designation} {i : ℤ} : Designated M s .lda d → variableSlot M s d = some i →
      i < 0 ∨ M.maxStack < i → Untracked M s .lda (M.slotAddr i)
  | name {index : ℕ} : M.bf.code32 (s.codePtr + 1) = .ok index → namedSlot M s index ≤ s.top →
      Untracked M s .string (s.stack (namedSlot M s index))
  | entry {type : InstructionType} {d : Designation} {n : ℤ} {ns : List ℤ} {w : Word}
      {captured : List Word} : type ≠ .st → Designated M s type d → d.memVar = .closure →
      s.argSizes = n :: ns → toU32 (d.value + 1) = 0 →
      s.heap (s.stack (s.fp + 4 + n)) = some (.closure w captured) → Untracked M s type w
  | elem {w : Word} {captured : List Word} : unbox (s.stack (s.top + 1)) = 0 →
      s.heap (s.stack (s.top + 2)) = some (.closure w captured) → Untracked M s .elem w
  | rawSlot {type : InstructionType} {i : ℤ} : type = .sta ∨ type = .sti → integerIndex s = false →
      M.slotOf (s.stack (s.top + 2)) = some i → 0 ≤ i → i ≤ s.top → Untracked M s type (s.stack i)
  | rawWord {type : InstructionType} {o : Obj} {w : Word} : type = .sta ∨ type = .sti →
      integerIndex s = false → s.heap (s.stack (s.top + 2)) = some o → (∀ elems, o ≠ .array elems) →
      loadWord.loadObj (s.stack (s.top + 2)) s = .ok w s → Untracked M s type w

/-- The instruction takes no stale address from such a place. -/
def NoStale (M : Machine) (s : State) (type : InstructionType) : Prop :=
  ∀ w, Untracked M s type w → Valid M s.heap w

/-- The instructions that take words from such places. -/
def InstructionType.takesUntracked : InstructionType → Bool
  | .begin | .cbegin | .ld | .lda | .closure | .string | .elem | .sta | .sti => true
  | _ => false

theorem Untracked.takes {M : Machine} {s : State} {type : InstructionType} {w : Word}
    (h : Untracked M s type w) : type.takesUntracked = true := by
  cases h with
  | reserved ht => rcases ht with rfl | rfl <;> rfl
  | loaded ht => rcases ht with rfl | rfl <;> rfl
  | link => rfl
  | name => rfl
  | entry hne hd =>
    cases hd with
    | operand ht =>
      rcases ht with rfl | rfl | rfl
      · rfl
      · exact absurd rfl hne
      · rfl
    | captured => rfl
  | elem => rfl
  | rawSlot ht => rcases ht with rfl | rfl <;> rfl
  | rawWord ht => rcases ht with rfl | rfl <;> rfl

theorem noStale_of_tracked {M : Machine} {s : State} {type : InstructionType}
    (h : type.takesUntracked = false) : NoStale M s type := by
  intro w hw
  rw [hw.takes] at h
  cases h

/-- BEGIN takes the words of the slots it reserves. -/
theorem Untracked.reserved_slot {M : Machine} {s : State} {type : InstructionType} {w : Word}
    (ht : type = .begin ∨ type = .cbegin) (h : Untracked M s type w) :
    ∃ (nLocals : ℕ) (i : ℤ), M.bf.code32 (s.codePtr + 1 + 4) = .ok nLocals ∧ s.top - nLocals < i ∧
      i ≤ s.top ∧ w = s.stack i := by
  cases h with
  | reserved _ hn hlow hhigh => exact ⟨_, _, hn, hlow, hhigh, rfl⟩
  | loaded hne => rcases ht with rfl | rfl <;> rcases hne with h | h <;> cases h
  | rawSlot hne => rcases ht with rfl | rfl <;> rcases hne with h | h <;> cases h
  | rawWord hne => rcases ht with rfl | rfl <;> rcases hne with h | h <;> cases h
  | entry _ hd =>
    cases hd with
    | operand h => rcases ht with rfl | rfl <;> rcases h with h | h | h <;> cases h
    | captured => rcases ht with h | h <;> cases h
  | link => rcases ht with h | h <;> cases h
  | name => rcases ht with h | h <;> cases h
  | elem => rcases ht with h | h <;> cases h

section Handlers

variable {M : Machine} {E : Env M} {α : Type} {s s' : State} {ws : List Word}

/-! ### Handlers that push results -/

/-- The program returns a boxed integer and leaves the state alone. -/
def Boxes (x : Exec Word) : Prop := ∀ s s' w, x s = .ok w s' → s' = s ∧ isBoxedInt w = true

theorem boxes_boxBool (b : Bool) : isBoxedInt (boxBool b) = true := isBoxedInt_boxInt _

theorem boxes_pure {w : Word} (hw : isBoxedInt w = true) : Boxes (pure w) := by
  intro s s' w' h
  cases h
  exact ⟨rfl, hw⟩

theorem boxes_throw {e : Fault} : Boxes (throw e) := fun _ _ _ h => nomatch h

theorem boxes_getObj {a : Word} {f : Obj → Exec Word} (hf : ∀ o, Boxes (f o)) :
    Boxes (getObj a >>= f) := by
  intro s s' w h
  obtain ⟨o, s₁, ho, hrest⟩ := exec_bind_ok.mp h
  obtain ⟨rfl, -⟩ := getObj_ok ho
  exact hf o _ _ _ hrest

theorem boxes_Llength (p : Word) : Boxes (Llength p) :=
  boxes_getObj fun _ => boxes_pure (isBoxedInt_boxInt _)

theorem boxes_LtagHash (p : Word) : Boxes (LtagHash p) := by
  refine boxes_getObj fun o => ?_
  split
  · exact boxes_throw
  · cases hh : tagHash (o.bytes.takeWhile (· ≠ 0)) with
    | error e => exact boxes_throw
    | ok h =>
      refine boxes_pure ?_
      obtain ⟨v, -, hv⟩ := except_bind_ok.mp hh
      split at hv
      · cases hv
      · cases hv
        exact isBoxedInt_boxInt _

theorem boxes_Btag (d t n : Word) : Boxes (Btag d t n) := by
  unfold Btag
  split
  · exact boxes_pure (isBoxedInt_boxInt _)
  · refine boxes_getObj fun o => ?_
    cases o
    case sexp => exact boxes_pure (boxes_boxBool _)
    all_goals exact boxes_pure (isBoxedInt_boxInt _)

theorem boxes_BarrayPatt (d n : Word) : Boxes (BarrayPatt d n) := by
  unfold BarrayPatt
  split
  · exact boxes_pure (isBoxedInt_boxInt _)
  · refine boxes_getObj fun o => ?_
    cases o
    case array => exact boxes_pure (boxes_boxBool _)
    all_goals exact boxes_pure (isBoxedInt_boxInt _)

theorem boxes_BstringPatt (x y : Word) : Boxes (BstringPatt x y) := by
  unfold BstringPatt
  split
  · exact boxes_pure (isBoxedInt_boxInt _)
  · refine boxes_getObj fun o => ?_
    cases o
    case string contents =>
      refine boxes_getObj fun r => ?_
      cases strcmpEq contents r.bytes
      · exact boxes_throw
      · exact boxes_pure (boxes_boxBool _)
    all_goals exact boxes_pure (isBoxedInt_boxInt _)

theorem boxes_tagPatt (test : Obj → Bool) (x : Word) : Boxes (tagPatt test x) := by
  unfold tagPatt
  split
  · exact boxes_pure (isBoxedInt_boxInt _)
  · exact boxes_getObj fun _ => boxes_pure (boxes_boxBool _)

/-- Nothing is in flight at the end of a handler. -/
theorem Holds.last {x : Exec α} {give : α → List Word} (h : Holds M ws x give) :
    Holds M ws x fun _ => [] := Triple.post h fun _ _ hs => hs.ignore

theorem holds_int {w : Word} (hw : isBoxedInt w = true) : Holds M ws (pushOp M w) fun _ => [] :=
  (holds_pushOp_int hw).last

theorem holds_push {w : Word} (hw : w ∈ ws) : Holds M ws (pushOp M w) fun _ => [] :=
  (holds_pushOp hw).last

theorem Boxes.push {x : Exec Word} (hx : Boxes x) :
    Holds M ws (do let w ← x; pushOp M w) fun _ => [] := by
  refine holds_of_ok fun hs h => ?_
  obtain ⟨w, s₁, hw, hpush⟩ := exec_bind_ok.mp h
  obtain ⟨rfl, hbox⟩ := hx _ _ _ hw
  exact (hs.push (valid_of_odd hbox) hpush).ignore

theorem holds_advance (n : ℕ) : Holds M ws (advance n) fun _ => ws :=
  holds_same fun h => by cases h; exact ⟨rfl, rfl, rfl⟩

theorem holds_jumpTo (o : ℤ) : Holds M ws (jumpTo o) fun _ => [] :=
  (holds_same fun h => by cases h; exact ⟨rfl, rfl, rfl⟩).last

theorem holds_consumeArgs1 : Holds M ws (consumeArgs1 M) fun _ => ws :=
  holds_same fun h => by obtain ⟨-, rfl⟩ := consumeArgs1_ok h; exact ⟨rfl, rfl, rfl⟩

theorem holds_consumeArgs2 : Holds M ws (consumeArgs2 M) fun _ => ws :=
  holds_same fun h => by obtain ⟨-, -, rfl⟩ := consumeArgs2_ok h; exact ⟨rfl, rfl, rfl⟩

theorem holds_consumeLowerBits0 : Holds M ws (consumeLowerBits0 M) fun _ => ws :=
  holds_same fun h => by obtain ⟨-, rfl⟩ := consumeLowerBits0_ok h; exact ⟨rfl, rfl, rfl⟩

theorem holds_consumeLowerBits1 : Holds M ws (consumeLowerBits1 M) fun _ => ws :=
  holds_same fun h => by obtain ⟨-, -, rfl⟩ := consumeLowerBits1_ok h; exact ⟨rfl, rfl, rfl⟩

/-- Two operands are popped for `f`. -/
theorem holds_popTwo {f : Word → Word → Exec Unit} (hf : ∀ a b, Holds M (a :: b :: ws) (f a b) fun _ => []) :
    Holds M ws (do
      let b ← peekOp M
      popOp
      let a ← peekOp M
      popOp
      f a b) fun _ => [] :=
  holds_peekOp.bind fun b => holds_popOp.bind fun _ => holds_peekOp.bind fun a =>
    holds_popOp.bind fun _ => hf a b

theorem holds_binopInterpreter : Holds M ws (binopInterpreter M) fun _ => [] := by
  refine holds_consumeLowerBits0.bind fun low => ?_
  have hunboxed : ∀ op, Holds M ws (boxedUnboxed M op) fun _ => [] := fun op =>
    holds_popTwo fun a b => by
      split
      · exact holds_throw
      · exact holds_int (isBoxedInt_boxInt _)
  have hboxed : ∀ op, Holds M ws (boxed M op) fun _ => [] := fun op =>
    holds_popTwo fun a b => holds_int (isBoxedInt_boxInt _)
  cases BinOp.ofByte low
  case eq | neq => exact hboxed _
  case other => exact holds_throw
  all_goals exact hunboxed _

theorem holds_callRead : Holds M ws (callRead E) fun _ => [] := by
  refine (holds_advance 1).bind fun _ => holds_of_ok fun {s s'} _ hs h => ?_
  obtain ⟨w, s₁, hread, hpush⟩ := exec_bind_ok.mp h
  cases hread
  have hs₁ : Held M ws { s with reads := s.reads + 1 } := hs.same ⟨rfl, rfl, rfl⟩
  exact (hs₁.push (valid_of_odd (isBoxedInt_boxInt _)) hpush).ignore

theorem holds_callWrite : Holds M ws (callWrite M) fun _ => [] := by
  refine (holds_advance 1).bind fun _ => holds_peekOp.bind fun w => (holds_same fun h => ?_).last
  cases h
  exact ⟨rfl, rfl, rfl⟩

theorem holds_callLength : Holds M ws (callLength M) fun _ => [] :=
  (holds_advance 1).bind fun _ => holds_peekOp.bind fun _ => holds_popOp.bind fun _ =>
    (boxes_Llength _).push

/-- A new object takes the place of its operands. -/
theorem Held.replace {r : Word} {n : ℕ} (hs : Held M [r] s)
    (h : (do popOps n; pushOp M r : Exec Unit) s = .ok () s') : Held M [] s' :=
  ((holds_popOps n).bind fun _ => holds_push (List.mem_singleton_self r)).ok hs h

theorem holds_callString : Holds M ws (callString E) fun _ => [] := by
  refine (holds_advance 1).bind fun _ => holds_peekOp.bind fun a => holds_of_ok fun hs h => ?_
  obtain ⟨t, s₁, hget, h⟩ := exec_bind_ok.mp h
  cases hget
  obtain ⟨res, s₂, hstring, h⟩ := exec_bind_ok.mp h
  exact (hs.Lstring hstring).replace h

theorem holds_callArray : Holds M ws (callArray E) fun _ => [] := by
  refine holds_consumeArgs1.bind fun n => holds_of_ok fun {s s'} _ hs h => ?_
  obtain ⟨t, s₁, hget, h⟩ := exec_bind_ok.mp h
  cases hget
  obtain ⟨_, s₁, htouch, h⟩ := exec_bind_ok.mp h
  cases htouch
  have hs₁ : Held M ws { s with touched := max s.touched (s.top + n) } := hs.same ⟨rfl, rfl, rfl⟩
  obtain ⟨_, s₂, hrev, h⟩ := exec_bind_ok.mp h
  obtain ⟨res, s₃, harray, h⟩ := exec_bind_ok.mp h
  obtain ⟨st, hst, -⟩ := reverseSlots_ok hrev
  have htop : s₂.top = s.top := by rw [hst]
  exact ((hs₁.reverse hrev).Barray (by omega) harray).replace h

theorem holds_jump : Holds M ws (jump M) fun _ => [] :=
  holds_consumeArgs1.bind fun _ => holds_jumpTo _

theorem holds_jumpIf (test : Word → Prop) [DecidablePred test] : Holds M ws (do
    let target ← consumeArgs1 M
    let val ← peekOp M
    popOp
    if test val then jumpTo target else return ()) fun _ => [] :=
  holds_consumeArgs1.bind fun _ => holds_peekOp.bind fun _ => holds_popOp.bind fun _ => by
    split
    · exact holds_jumpTo _
    · exact holds_pure fun _ hw => nomatch hw

/-- A boxed result takes the place of the operand on top. -/
theorem Boxes.replace {x : Exec Word} (hx : Boxes x) :
    Holds M ws (do let w ← x; popOp; pushOp M w) fun _ => [] := by
  refine holds_of_ok fun hs h => ?_
  obtain ⟨w, s₁, hw, hrest⟩ := exec_bind_ok.mp h
  obtain ⟨rfl, hbox⟩ := hx _ _ _ hw
  exact (holds_popOp.bind fun _ => holds_int hbox).ok hs hrest

theorem holds_patt : Holds M ws (patt M) fun _ => [] := by
  refine holds_consumeLowerBits0.bind fun low => ?_
  have one : ∀ {f : Word → Exec Word}, (∀ x, Boxes (f x)) → Holds M ws (do
      let x ← peekOp M
      let isPatt ← f x
      popOp
      pushOp M isPatt) fun _ => [] := fun hf => holds_peekOp.bind fun x => (hf x).replace
  cases Patt.ofByte low
  case closure => exact one (boxes_tagPatt _)
  case array => exact one (boxes_tagPatt _)
  case string => exact one (boxes_tagPatt _)
  case sexp => exact one (boxes_tagPatt _)
  case boxed => exact one fun x => boxes_pure (boxes_boxBool _)
  case unBoxed => exact one fun x => boxes_pure (boxes_boxBool _)
  case strCmp =>
    exact holds_peekOp.bind fun x => holds_popOp.bind fun _ => holds_peekOp.bind fun y =>
      (boxes_BstringPatt x y).replace
  case other =>
    refine holds_of_ok fun _ h => ?_
    obtain ⟨_, _, hthrow, -⟩ := exec_bind_ok.mp h
    cases hthrow

theorem holds_unboxingArray : Holds M ws (unboxingArray M) fun _ => [] :=
  holds_consumeArgs1.bind fun _ => holds_peekOp.bind fun _ => holds_popOp.bind fun _ =>
    (boxes_BarrayPatt _ _).push

theorem holds_stackDup : Holds M ws (stackDup M) fun _ => [] :=
  (holds_advance 1).bind fun _ => holds_peekOp.bind fun _ => holds_push List.mem_cons_self

theorem holds_stackDrop : Holds M ws stackDrop fun _ => [] :=
  (holds_advance 1).bind fun _ => holds_popOp.last

theorem holds_stackConst : Holds M ws (stackConst M) fun _ => [] :=
  holds_consumeArgs1.bind fun _ => holds_int (isBoxedInt_boxInt _)

theorem holds_stackSwap : Holds M ws (stackSwap M) fun _ => [] :=
  (holds_advance 1).bind fun _ => holds_peekOp.bind fun a => holds_popOp.bind fun _ =>
    holds_peekOp.bind fun b => holds_popOp.bind fun _ =>
    (holds_pushOp (by simp : a ∈ b :: a :: ws)).bind fun _ => holds_push List.mem_cons_self

/-! ### Handlers that store -/

theorem holds_Bsta {x i v : Word} (hi : isBoxedInt i = true) (hv : v ∈ ws) :
    Holds M ws (Bsta M x i v) fun _ => ws := by
  refine holds_of_ok fun hs h => ?_
  unfold Bsta at h
  rw [if_pos hi] at h
  obtain ⟨o, s₁, hget, hrest⟩ := exec_bind_ok.mp h
  obtain ⟨rfl, ho⟩ := getObj_ok hget
  cases hput : o.put (unbox i) v with
  | none =>
    rw [hput] at hrest
    cases hrest
  | some o' =>
    rw [hput] at hrest
    obtain ⟨_, s₂, hset, hret⟩ := exec_bind_ok.mp hrest
    cases hret
    refine (hs.setObj (hs.heap.zone x (by rw [ho]; rfl)) (fun w hw => ?_) hset).mono
      fun w hw => List.mem_cons_of_mem x hw
    rcases Obj.put_pointers hput w hw with hw | rfl
    · exact hs.heap.pointers x o ho w hw
    · exact hs.flight w hv

theorem holds_storeWord {ptr w : Word} (hw : w ∈ ws) :
    Holds M ws (storeWord M ptr w) fun _ => ws := by
  have hobj : Holds M ws (storeWord.storeObj ptr w) fun _ => ws := by
    refine holds_of_ok fun {s s'} _ hs h => ?_
    have hset : ∀ {o : Obj} (o' : Obj) {t : State}, s.heap ptr = some o →
        (∀ v ∈ o'.pointers, v ∈ o.pointers ∨ v = w) → setObj ptr o' s = .ok () t → Held M ws t := by
      intro o o' t ho hptr hx
      refine (hs.setObj (hs.heap.zone ptr (by rw [ho]; rfl)) (fun v hv => ?_) hx).mono
        fun v hv => List.mem_cons_of_mem ptr hv
      rcases hptr v hv with hv | rfl
      · exact hs.heap.pointers ptr o ho v hv
      · exact hs.flight v hw
    unfold storeWord.storeObj at h
    split at h
    · rename_i u us ho
      exact hset _ ho (fun v hv => (List.mem_cons.mp hv).elim .inr fun hv =>
        .inl (List.mem_cons_of_mem u hv)) h
    · rename_i fields ho
      exact hset (.sexp w fields) ho (fun v hv => .inl hv) h
    · rename_i captured ho
      exact hset (.closure w captured) ho (fun v hv => .inl hv) h
    · rename_i b bs ho
      cases h
      exact (hset (.string (putFirst w (b :: bs))) ho (fun v hv => nomatch hv) rfl).same ⟨rfl, rfl, rfl⟩
    · cases h
  refine holds_of_ok fun {s s'} _ hs h => ?_
  unfold storeWord at h
  cases hslot : M.slotOf ptr with
  | none =>
    rw [hslot] at h
    exact hobj.ok hs h
  | some i =>
    rw [hslot] at h
    dsimp only at h
    split at h
    · rename_i hr
      have hwrite : writeSlot M i w s = .ok () s' := by
        rw [writeSlot, if_pos hr]
        exact h
      exact hs.write (hs.flight w hw) hwrite
    · exact hobj.ok hs h

theorem closurePtr_ok {w : Word} (h : closurePtr M s = .ok w s') :
    s' = s ∧ ∃ n ns, s.argSizes = n :: ns ∧ w = s.stack (s.fp + 4 + n) ∧
      s.fp + 4 + n < M.maxStack := by
  obtain ⟨t, s₁, hget, h⟩ := exec_bind_ok.mp h
  cases hget
  cases hsizes : s.argSizes with
  | nil =>
    rw [hsizes] at h
    cases h
  | cons n ns =>
    rw [hsizes] at h
    obtain ⟨rfl, rfl, -, hM⟩ := readSlot_ok h
    exact ⟨rfl, n, ns, rfl, rfl, hM⟩

theorem holds_closurePtr : Holds M ws (closurePtr M) fun _ => ws := holds_same fun h => by
  obtain ⟨rfl, -⟩ := closurePtr_ok h
  exact ⟨rfl, rfl, rfl⟩

theorem holds_memStore : Holds M ws (memStore M) fun _ => [] := by
  refine holds_consumeLowerBits1.bind fun ⟨low, index⟩ => ?_
  have store : ∀ {f : Word → Exec Unit}, (∀ w, Holds M (w :: ws) (f w) fun _ => w :: ws) →
      Holds M ws (do let w ← peekOp M; f w) fun _ => [] := fun hf =>
    holds_peekOp.bind fun w => (hf w).last
  have slot : ∀ (slot : State → ℤ) (w : Word), Holds M (w :: ws) (do
      let s ← get
      writeSlot M (slot s) w) fun _ => w :: ws := by
    intro slot w
    refine holds_of_ok fun hs h => ?_
    obtain ⟨t, s₁, hget, h⟩ := exec_bind_ok.mp h
    cases hget
    exact (holds_writeSlot List.mem_cons_self).ok hs h
  dsimp only
  cases MemVar.ofByte low
  case global => exact store fun w => slot (fun s => globalSlot M s index) w
  case «local» => exact store fun w => slot (fun s => s.fp - index) w
  case argument => exact store fun w => slot (fun s => s.fp + 4 + index) w
  case closure =>
    exact store fun w => (holds_closurePtr).bind fun p =>
      (holds_Bsta (isBoxedInt_boxInt _) List.mem_cons_self).bind fun _ => holds_pure fun _ h => h
  case other => exact holds_throw

/-! ### Handlers that load -/

/-- A slot is scanned, or the guard covers it. -/
theorem Held.slot (hs : Held M ws s) {i : ℤ} (hM : i < M.maxStack)
    (hlow : i ≤ s.top → Valid M s.heap (s.stack i)) : Valid M s.heap (s.stack i) := by
  rcases Int.lt_or_le s.top i with hi | hi
  · exact hs.roots i hi hM
  · exact hlow hi

theorem getStringPtr_ok {index : ℕ} {w : Word} (h : getStringPtr M index s = .ok w s') :
    SameRoots s s' ∧ w = s.stack (namedSlot M s index) ∧ namedSlot M s index < M.maxStack := by
  obtain ⟨t, s₁, hget, hread⟩ := exec_bind_ok.mp h
  cases hget
  unfold namedSlot
  cases hkey : s.stringsMap.lookup index with
  | some assocIndex =>
    rw [hkey] at hread
    obtain ⟨rfl, rfl, -, hM⟩ := readSlot_ok hread
    exact ⟨⟨rfl, rfl, rfl⟩, rfl, hM⟩
  | none =>
    rw [hkey] at hread
    obtain ⟨_, s₂, hmap, hread⟩ := exec_bind_ok.mp hread
    cases hmap
    obtain ⟨rfl, rfl, -, hM⟩ := readSlot_ok hread
    exact ⟨⟨rfl, rfl, rfl⟩, rfl, hM⟩

theorem boxingString_held (hs : Held M [] s) (hstale : NoStale M s .string)
    (h : boxingString M s = .ok () s') : Held M [] s' := by
  obtain ⟨index, s₁, hargs, h⟩ := exec_bind_ok.mp h
  obtain ⟨hindex, rfl⟩ := consumeArgs1_ok hargs
  obtain ⟨w, s₂, hptr, hpush⟩ := exec_bind_ok.mp h
  obtain ⟨hsame, rfl, hM⟩ := getStringPtr_ok hptr
  have hw : Valid M s.heap (s.stack (namedSlot M s index)) :=
    hs.slot hM fun hlow => hstale _ (.name hindex hlow)
  have hs₁ : Held M [s.stack (namedSlot M s index)] { s with codePtr := s.codePtr + 5 } :=
    (hs.cons hw).same ⟨rfl, rfl, rfl⟩
  exact (holds_push (List.mem_singleton_self _)).ok (hs₁.same hsame) hpush

theorem holds_getStringPtr (index : ℕ) : Holds M ws (getStringPtr M index) fun _ => ws :=
  holds_same fun h => (getStringPtr_ok h).1

theorem holds_unboxingTag : Holds M ws (unboxingTag M) fun _ => [] :=
  holds_consumeArgs2.bind fun _ => (holds_getStringPtr _).bind fun _ => holds_peekOp.bind fun _ =>
    holds_popOp.bind fun _ => holds_of_ok fun hs h => by
      obtain ⟨hash, s₁, hhash, hrest⟩ := exec_bind_ok.mp h
      obtain ⟨rfl, -⟩ := boxes_LtagHash _ _ _ _ hhash
      exact (boxes_Btag _ _ _).push.ok hs hrest

theorem holds_boxingSexp : Holds M ws (boxingSexp E) fun _ => [] := by
  refine holds_consumeArgs2.bind fun ⟨tag, n⟩ => (holds_getStringPtr tag).bind fun tagPtr => ?_
  have hash : Holds M ws (LtagHash tagPtr) fun w => w :: ws := holds_of_ok fun hs h => by
    obtain ⟨rfl, hbox⟩ := boxes_LtagHash _ _ _ _ h
    exact hs.cons (valid_of_odd hbox)
  refine hash.bind fun w => (holds_push List.mem_cons_self).bind fun _ =>
    holds_of_ok fun {s s'} _ hs h => ?_
  obtain ⟨t, s₁, hget, h⟩ := exec_bind_ok.mp h
  cases hget
  obtain ⟨_, s₂, htouch, h⟩ := exec_bind_ok.mp h
  cases htouch
  obtain ⟨res, s₃, hsexp, h⟩ := exec_bind_ok.mp h
  have hs₂ : Held M [] { s with touched := max s.touched (s.top + (toU32 (n + 1) : ℕ)) } :=
    hs.same ⟨rfl, rfl, rfl⟩
  exact (hs₂.Bsexp (by dsimp only; omega) hsexp).replace h

/-- An element is valid, unless it is the entry of a closure. -/
theorem Held.Belem (hs : Held M ws s) {p i w : Word} (h : Belem p i s = .ok w s')
    (hentry : ∀ captured, unbox i = 0 → s.heap p = some (.closure w captured) → Valid M s.heap w) :
    s' = s ∧ Valid M s.heap w := by
  obtain ⟨rfl, o, ho, hw⟩ := Belem_ok h
  refine ⟨rfl, ?_⟩
  rcases Obj.elem_cases hw with hptr | hbox | ⟨captured, hi, rfl⟩
  · exact hs.heap.pointers p o ho w hptr
  · exact valid_of_odd hbox
  · exact hentry captured hi ho

/-- The state in which a handler has popped two operands, and these. -/
theorem popTwo_ok {f : Word → Word → Exec Unit} (h : (do
      advance 1
      let a ← peekOp M
      popOp
      let b ← peekOp M
      popOp
      f a b : Exec Unit) s = .ok () s') :
    ∃ pc t, s.top + 2 < M.maxStack ∧ f (s.stack (s.top + 1)) (s.stack (s.top + 2))
      { s with codePtr := pc, top := s.top + 2, touched := t } = .ok () s' := by
  obtain ⟨_, s₁, hadv, h⟩ := exec_bind_ok.mp h
  cases hadv
  obtain ⟨a, s₂, hpeek, h⟩ := exec_bind_ok.mp h
  obtain ⟨rfl, rfl, -, -⟩ := peekOp_ok hpeek
  obtain ⟨_, s₃, hpop, h⟩ := exec_bind_ok.mp h
  cases hpop
  obtain ⟨b, s₄, hpeek', h⟩ := exec_bind_ok.mp h
  obtain ⟨rfl, rfl, -, hM⟩ := peekOp_ok hpeek'
  obtain ⟨_, s₅, hpop', h⟩ := exec_bind_ok.mp h
  cases hpop'
  have htwo : s.top + ((1 : ℕ) : ℤ) + 1 = s.top + 2 := by omega
  have htop : s.top + ((1 : ℕ) : ℤ) + ((1 : ℕ) : ℤ) = s.top + 2 := by omega
  dsimp only at h hM
  rw [htwo] at hM
  rw [htwo, htop] at h
  exact ⟨_, _, hM, h⟩

/-- After popping two operands these are in flight. -/
theorem Held.popTwo (hs : Held M [] s) (hM : s.top + 2 < M.maxStack) (pc t : ℤ) :
    Held M [s.stack (s.top + 1), s.stack (s.top + 2)]
      { s with codePtr := pc, top := s.top + 2, touched := t } := by
  refine ⟨fun i hi hM => hs.roots i (by dsimp only at hi; omega) hM, hs.heap, fun w hw => ?_⟩
  rcases List.mem_cons.mp hw with rfl | hw
  · exact hs.roots _ (by omega) (by omega)
  · rw [List.mem_singleton.mp hw]
    exact hs.roots _ (by omega) hM

theorem callElem_held (hs : Held M [] s) (hstale : NoStale M s .elem)
    (h : callElem M s = .ok () s') : Held M [] s' := by
  obtain ⟨pc, t, hM, h⟩ := popTwo_ok h
  obtain ⟨w, s₁, helem, hpush⟩ := exec_bind_ok.mp h
  obtain ⟨rfl, hw⟩ := (hs.popTwo hM pc t).Belem helem fun captured hi ho => hstale _ (.elem hi ho)
  exact ((hs.popTwo hM pc t).push hw hpush).ignore

/-- The first word of an object is a pointer only in an array. -/
theorem loadObj_ok {p w : Word} (h : loadWord.loadObj p s = .ok w s') :
    s' = s ∧ ∃ o, s.heap p = some o ∧ (w ∈ o.pointers ∨
      (∀ elems, o ≠ .array elems) ∧ ∀ t : State, t.heap = s.heap → t.slack = s.slack →
        loadWord.loadObj p t = .ok w t) := by
  have hsame : ∀ t : State, t.heap = s.heap → t.slack = s.slack → ∀ {w : Word},
      loadWord.loadObj p s = .ok w s → loadWord.loadObj p t = .ok w t := by
    intro t ht hslack w hw
    unfold loadWord.loadObj at hw ⊢
    rw [ht, hslack]
    split at hw
    · cases hw
      rfl
    · cases hw
      rfl
    · cases hw
      rfl
    · obtain ⟨hword, -⟩ := EStateM.Result.ok.inj hw
      exact congrArg (fun v => EStateM.Result.ok v t) hword
    · cases hw
  have hs : s' = s := by
    unfold loadWord.loadObj at h
    split at h <;> cases h <;> rfl
  subst hs
  refine ⟨rfl, ?_⟩
  cases ho : s'.heap p with
  | none =>
    unfold loadWord.loadObj at h
    rw [ho] at h
    cases h
  | some o =>
    refine ⟨o, rfl, ?_⟩
    by_cases harray : ∃ elems, o = .array elems
    · obtain ⟨elems, rfl⟩ := harray
      unfold loadWord.loadObj at h
      rw [ho] at h
      cases elems with
      | nil => cases h
      | cons u us =>
        cases h
        exact .inl List.mem_cons_self
    · exact .inr ⟨fun elems he => harray ⟨elems, he⟩, fun t ht hslack => hsame t ht hslack h⟩

/-- A word loaded through a pointer is scanned, a pointer of an array, or covered by the guard. -/
theorem raw_held (hs : Held M [] s) {type : InstructionType} (ht : type = .sta ∨ type = .sti)
    (hstale : NoStale M s type) (hi : integerIndex s = false) (hM : s.top + 2 < M.maxStack) {pc t : ℤ}
    (h : (do
      let w ← loadWord M (s.stack (s.top + 2))
      storeWord M (s.stack (s.top + 1)) w
      pushOp M (s.stack (s.top + 1)) : Exec Unit)
        { s with codePtr := pc, top := s.top + 2, touched := t } = .ok () s') : Held M [] s' := by
  obtain ⟨w, s₁, hload, hrest⟩ := exec_bind_ok.mp h
  have hs₂ := hs.popTwo hM pc t
  have hobj : loadWord.loadObj (s.stack (s.top + 2))
      { s with codePtr := pc, top := s.top + 2, touched := t } = .ok w s₁ →
      s₁ = { s with codePtr := pc, top := s.top + 2, touched := t } ∧ Valid M s.heap w := by
    intro hl
    obtain ⟨hs₁, o, ho, hw⟩ := loadObj_ok hl
    refine ⟨hs₁, ?_⟩
    rcases hw with hptr | ⟨harray, hsame⟩
    · exact hs.heap.pointers _ o ho w hptr
    · exact hstale w (.rawWord ht hi ho harray (hsame s rfl rfl))
  have hload : s₁ = { s with codePtr := pc, top := s.top + 2, touched := t } ∧ Valid M s.heap w := by
    unfold loadWord at hload
    cases hslot : M.slotOf (s.stack (s.top + 2)) with
    | none =>
      rw [hslot] at hload
      exact hobj hload
    | some i =>
      rw [hslot] at hload
      dsimp only at hload
      split at hload
      · rename_i hr
        cases hload
        exact ⟨rfl, hs.slot hr.2 fun hlow => hstale _ (.rawSlot ht hi hslot hr.1 hlow)⟩
      · exact hobj hload
  obtain ⟨rfl, hw⟩ := hload
  exact ((holds_storeWord List.mem_cons_self).bind fun _ => holds_push (by simp)).ok (hs₂.cons hw) hrest

theorem stackSta_held (hs : Held M [] s) (hstale : NoStale M s .sta)
    (h : stackSta M s = .ok () s') : Held M [] s' := by
  obtain ⟨pc, t, hM, h⟩ := popTwo_ok h
  split at h
  · rename_i hi
    have hs₁ := hs.popTwo hM pc t
    exact (holds_peekOp.bind fun x => holds_popOp.bind fun _ => (holds_Bsta hi (by simp)).bind fun _ =>
      holds_push (by simp)).ok hs₁ h
  · rename_i hi
    exact raw_held hs (.inl rfl) hstale (by simpa [integerIndex] using hi) hM h

theorem stackSti_held (hs : Held M [] s) (hstale : NoStale M s .sti)
    (h : stackSti M s = .ok () s') : Held M [] s' := by
  obtain ⟨pc, t, hM, h⟩ := popTwo_ok h
  split at h
  · cases h
  · rename_i hi
    exact raw_held hs (.inr rfl) hstale (by simpa [integerIndex] using hi) hM h

/-! ### Variables -/

/-- Between the loads of a handler only words were pushed. -/
structure Pushing (M : Machine) (s u : State) : Prop where
  held : Held M [] u
  heap : u.heap = s.heap
  fp : u.fp = s.fp
  argSizes : u.argSizes = s.argSizes
  stringCounter : u.stringCounter = s.stringCounter
  top : u.top ≤ s.top
  stack : ∀ i, i ≤ u.top ∨ s.top < i → u.stack i = s.stack i

theorem Pushing.push {u u' : State} (hp : Pushing M s u) {w : Word} (hw : Valid M u.heap w)
    (h : pushOp M w u = .ok () u') : Pushing M s u' := by
  have hheld := hp.held.push hw h
  obtain ⟨rfl, -⟩ := pushOp_ok h
  have htop := hp.top
  refine ⟨hheld, hp.heap, hp.fp, hp.argSizes, hp.stringCounter, by dsimp only; omega, fun i hi => ?_⟩
  dsimp only at hi ⊢
  rw [Function.update_of_ne (by omega)]
  exact hp.stack i (by omega)

/-- A variable in a slot is scanned or covered by the guard. -/
theorem Pushing.slot {u : State} (hp : Pushing M s u) {type : InstructionType} {d : Designation}
    {i : ℤ} (ht : type = .ld ∨ type = .closure) (hd : Designated M s type d)
    (hstale : NoStale M s type) (hslot : variableSlot M s d = some i) (h0 : 0 ≤ i)
    (hM : i < M.maxStack) : Valid M u.heap (u.stack i) := by
  refine hp.held.slot hM fun hlow => ?_
  rw [hp.stack i (.inl hlow), hp.heap]
  have htop := hp.top
  exact hstale _ (.loaded ht hd hslot h0 (by omega))

/-- The variable `get_closure` reads is a pointer of the closure, unless its index wraps. -/
theorem Pushing.captured {u u' : State} (hp : Pushing M s u) {type : InstructionType}
    {d : Designation} (hne : type ≠ .st) (hd : Designated M s type d) (hvar : d.memVar = .closure)
    (hstale : NoStale M s type)
    (habove : ∀ n ns, s.argSizes = n :: ns → s.top < s.fp + 4 + n) {w : Word}
    (h : getClosure M d.value u = .ok w u') : u' = u ∧ Valid M u.heap w := by
  obtain ⟨p, u₁, hptr, helem⟩ := exec_bind_ok.mp h
  obtain ⟨rfl, n, ns, hsizes, rfl, -⟩ := closurePtr_ok hptr
  refine hp.held.Belem helem fun captured hi ho => ?_
  rw [hp.argSizes] at hsizes
  rw [hp.fp, hp.stack _ (.inr (habove n ns hsizes)), hp.heap] at ho
  rw [hp.heap]
  have hwrap : toU32 (d.value + 1) = 0 := by
    rw [unbox_boxInt (Int.natCast_nonneg _) (by have := toU32_lt (d.value + 1); omega)] at hi
    omega
  exact hstale w (.entry hne hd hvar hsizes hwrap ho)

theorem getGlobal_ok {index : ℕ} {w : Word} (h : getGlobal M index s = .ok w s') :
    s' = s ∧ w = s.stack (globalSlot M s index) ∧ 0 ≤ globalSlot M s index ∧
      globalSlot M s index < M.maxStack := by
  obtain ⟨t, s₁, hget, h⟩ := exec_bind_ok.mp h
  cases hget
  exact readSlot_ok h

theorem getLocal_ok {index : ℕ} {w : Word} (h : getLocal M index s = .ok w s') :
    s' = s ∧ w = s.stack (s.fp - index) ∧ 0 ≤ s.fp - index ∧ s.fp - index < M.maxStack := by
  obtain ⟨t, s₁, hget, h⟩ := exec_bind_ok.mp h
  cases hget
  exact readSlot_ok h

theorem getArg_ok {index : ℕ} {w : Word} (h : getArg M index s = .ok w s') :
    s' = s ∧ w = s.stack (s.fp + 4 + index) ∧ 0 ≤ s.fp + 4 + index ∧
      s.fp + 4 + index < M.maxStack := by
  obtain ⟨t, s₁, hget, h⟩ := exec_bind_ok.mp h
  cases hget
  exact readSlot_ok h

/-- The read of a variable that LD and CLOSURE make. -/
inductive VariableRead (M : Machine) (d : Designation) : Exec Word → Prop
  | global : d.memVar = .global → VariableRead M d (getGlobal M d.value)
  | «local» : d.memVar = .local → VariableRead M d (getLocal M d.value)
  | argument : d.memVar = .argument → VariableRead M d (getArg M d.value)
  | closure : d.memVar = .closure → VariableRead M d (getClosure M d.value)

/-- A load of a designated variable, followed by a push. -/
theorem Pushing.load {u u' : State} (hp : Pushing M s u) {type : InstructionType} {d : Designation}
    (ht : type = .ld ∨ type = .closure) (hd : Designated M s type d) (hstale : NoStale M s type)
    (habove : ∀ n ns, s.argSizes = n :: ns → s.top < s.fp + 4 + n) {f : Exec Word}
    (hf : VariableRead M d f) (h : (do let w ← f; pushOp M w : Exec Unit) u = .ok () u') : Pushing M s u' := by
  obtain ⟨w, u₁, hload, hpush⟩ := exec_bind_ok.mp h
  have hw : u₁ = u ∧ Valid M u.heap w := by
    cases hf with
    | global hvar =>
      obtain ⟨rfl, rfl, h0, hM⟩ := getGlobal_ok hload
      have hslot : globalSlot M u₁ d.value = globalSlot M s d.value := by
        unfold globalSlot
        rw [hp.stringCounter]
      rw [hslot] at h0 hM ⊢
      exact ⟨rfl, hp.slot ht hd hstale (by rw [variableSlot, hvar]) h0 hM⟩
    | «local» hvar =>
      obtain ⟨rfl, rfl, h0, hM⟩ := getLocal_ok hload
      rw [hp.fp] at h0 hM ⊢
      exact ⟨rfl, hp.slot ht hd hstale (by rw [variableSlot, hvar]) h0 hM⟩
    | argument hvar =>
      obtain ⟨rfl, rfl, h0, hM⟩ := getArg_ok hload
      rw [hp.fp] at h0 hM ⊢
      exact ⟨rfl, hp.slot ht hd hstale (by rw [variableSlot, hvar]) h0 hM⟩
    | closure hvar =>
      have hne : type ≠ .st := by rcases ht with rfl | rfl <;> decide
      exact hp.captured hne hd hvar hstale habove hload
  obtain ⟨rfl, hw⟩ := hw
  exact hp.push hw hpush

theorem memLoad_held (hs : Held M [] s) (hstale : NoStale M s .ld)
    (habove : ∀ n ns, s.argSizes = n :: ns → s.top < s.fp + 4 + n)
    (h : memLoad M s = .ok () s') : Held M [] s' := by
  obtain ⟨⟨low, index⟩, s₁, hargs, h⟩ := exec_bind_ok.mp h
  obtain ⟨hlow, hindex, rfl⟩ := consumeLowerBits1_ok hargs
  have hd : Designated M s .ld ⟨MemVar.ofByte low, index⟩ := .operand (.inl rfl) hlow hindex
  have hp : Pushing M s { s with codePtr := s.codePtr + 5 } :=
    ⟨hs.same ⟨rfl, rfl, rfl⟩, rfl, rfl, rfl, rfl, Int.le_refl _, fun _ _ => rfl⟩
  have load : ∀ {f}, VariableRead M ⟨MemVar.ofByte low, index⟩ f →
      (do let w ← f; pushOp M w : Exec Unit) { s with codePtr := s.codePtr + 5 } = .ok () s' →
      Held M [] s' := fun hf h => (hp.load (.inl rfl) hd hstale habove hf h).held
  dsimp only at h
  cases hvar : MemVar.ofByte low
  all_goals rw [hvar] at h
  case global => exact load (.global hvar) h
  case «local» => exact load (.local hvar) h
  case argument => exact load (.argument hvar) h
  case closure => exact load (.closure hvar) h
  case other => cases h

theorem stackLda_held (hs : Held M [] s) (hstale : NoStale M s .lda)
    (habove : ∀ n ns, s.argSizes = n :: ns → s.top < s.fp + 4 + n)
    (h : stackLda M s = .ok () s') : Held M [] s' := by
  obtain ⟨⟨low, index⟩, s₁, hargs, h⟩ := exec_bind_ok.mp h
  obtain ⟨hlow, hindex, rfl⟩ := consumeLowerBits1_ok hargs
  have hd : Designated M s .lda ⟨MemVar.ofByte low, index⟩ := .operand (.inr (.inr rfl)) hlow hindex
  have hp : Pushing M s { s with codePtr := s.codePtr + 5 } :=
    ⟨hs.same ⟨rfl, rfl, rfl⟩, rfl, rfl, rfl, rfl, Int.le_refl _, fun _ _ => rfl⟩
  have link : ∀ i : ℤ, variableSlot M s ⟨MemVar.ofByte low, index⟩ = some i →
      Valid M s.heap (M.slotAddr i) := by
    intro i hi
    by_cases hr : 0 ≤ i ∧ i ≤ M.maxStack
    · exact valid_of_zone (Machine.heapZone_slotAddr hr.1 hr.2)
    · exact hstale _ (.link hd hi (by omega))
  dsimp only at h
  cases hvar : MemVar.ofByte low
  all_goals rw [hvar] at h link
  case global => exact (hp.held.push (link _ rfl) h).ignore
  case «local» => exact (hp.held.push (link _ rfl) h).ignore
  case argument => exact (hp.held.push (link _ rfl) h).ignore
  case closure =>
    obtain ⟨w, s₂, hload, hpush⟩ := exec_bind_ok.mp h
    obtain ⟨rfl, hw⟩ := hp.captured (by decide) hd hvar hstale habove hload
    exact (hp.held.push hw hpush).ignore
  case other => cases h

/-- The captured variables are those the instruction designates. -/
theorem consumeDesignations_ok : ∀ {n : ℕ} {s s' : State} {ds : List Designation},
    consumeDesignations M n s = .ok ds s' →
      (∀ d ∈ ds, ∃ k < n, M.bf.designation (s.codePtr + 5 * (k : ℕ)) = .ok d) ∧
      s' = { s with codePtr := s.codePtr + 5 * n }
  | 0, s, s', ds, h => by
    cases h
    exact ⟨fun d hd => (nomatch hd), by simp⟩
  | n + 1, s, s', ds, h => by
    obtain ⟨t, s₁, hget, h⟩ := exec_bind_ok.mp h
    cases hget
    obtain ⟨d, s₂, hread, htail⟩ := exec_bind_ok.mp h
    obtain ⟨hread, rfl⟩ := readFileByte_ok hread
    obtain ⟨_, s₃, hadv, htail⟩ := exec_bind_ok.mp htail
    cases hadv
    obtain ⟨ds', s₄, hrest, hret⟩ := exec_bind_ok.mp htail
    cases hret
    obtain ⟨hmem, rfl⟩ := consumeDesignations_ok hrest
    refine ⟨fun e he => ?_, ?_⟩
    · rcases List.mem_cons.mp he with rfl | he
      · exact ⟨0, Nat.succ_pos n, by simpa using hread⟩
      · obtain ⟨k, hk, hd⟩ := hmem e he
        refine ⟨k + 1, by omega, ?_⟩
        rw [← hd]
        congr 1
        push_cast
        omega
    · congr 1
      push_cast
      omega

theorem pushDesignations_pushing (hstale : NoStale M s .closure)
    (habove : ∀ n ns, s.argSizes = n :: ns → s.top < s.fp + 4 + n) :
    ∀ {ds : List Designation} {u u' : State}, (∀ d ∈ ds, Designated M s .closure d) →
      Pushing M s u → pushDesignations M ds u = .ok () u' → Pushing M s u'
  | [], _, _, _, hp, h => by
    cases h
    exact hp
  | d :: ds, u, u', hds, hp, h => by
    have hd := hds d List.mem_cons_self
    have next : ∀ {f}, VariableRead M d f →
        (do let w ← f; pushOp M w; pushDesignations M ds : Exec Unit) u = .ok () u' →
        Pushing M s u' := by
      intro f hf h
      obtain ⟨w, u₁, hload, h⟩ := exec_bind_ok.mp h
      obtain ⟨_, u₂, hpush, h⟩ := exec_bind_ok.mp h
      have hp₂ := hp.load (.inr rfl) hd hstale habove hf (exec_bind_ok.mpr ⟨w, u₁, hload, hpush⟩)
      exact pushDesignations_pushing hstale habove
        (fun e he => hds e (List.mem_cons_of_mem d he)) hp₂ h
    unfold pushDesignations at h
    cases hvar : d.memVar
    all_goals rw [hvar] at h
    case «local» => exact next (.local hvar) h
    case argument => exact next (.argument hvar) h
    case closure => exact next (.closure hvar) h
    all_goals
      obtain ⟨_, _, hthrow, -⟩ := exec_bind_ok.mp h
      cases hthrow

theorem closuresCreate_held (hs : Held M [] s) (hstale : NoStale M s .closure)
    (habove : ∀ n ns, s.argSizes = n :: ns → s.top < s.fp + 4 + n)
    (h : closuresCreate E s = .ok () s') : Held M [] s' := by
  obtain ⟨⟨ip, nArgs⟩, s₁, hargs, h⟩ := exec_bind_ok.mp h
  obtain ⟨-, hn, rfl⟩ := consumeArgs2_ok hargs
  obtain ⟨ds, s₂, hds, h⟩ := exec_bind_ok.mp h
  obtain ⟨hmem, rfl⟩ := consumeDesignations_ok hds
  obtain ⟨_, s₃, hpushes, h⟩ := exec_bind_ok.mp h
  have hdesignated : ∀ d ∈ ds.reverse, Designated M s .closure d := by
    intro d hd
    obtain ⟨k, hk, hread⟩ := hmem d (List.mem_reverse.mp hd)
    exact .captured hn hk hread
  have hp₀ : Pushing M s { s with codePtr := s.codePtr + 9 + 5 * nArgs } :=
    ⟨hs.same ⟨rfl, rfl, rfl⟩, rfl, rfl, rfl, rfl, Int.le_refl _, fun _ _ => rfl⟩
  have hp := pushDesignations_pushing hstale habove hdesignated hp₀ hpushes
  obtain ⟨_, s₄, hpush, h⟩ := exec_bind_ok.mp h
  have hs₄ := hp.held.push (valid_of_odd (isBoxedInt_boxInt _)) hpush
  obtain ⟨t, s₅, hget, h⟩ := exec_bind_ok.mp h
  cases hget
  obtain ⟨res, s₆, hclosure, h⟩ := exec_bind_ok.mp h
  exact (hs₄.Bclosure (Int.lt_succ _) hclosure).replace h

/-! ### All instructions that stay in their activation -/

/-- A plain instruction that takes no stale word keeps every scanned word valid. -/
theorem dispatch_held (hs : Held M [] s) {type : InstructionType} (hplain : type.isPlain = true)
    (hstale : NoStale M s type) (habove : ∀ n ns, s.argSizes = n :: ns → s.top < s.fp + 4 + n)
    {ended : Bool} (h : dispatch E type s = .ok ended s') : Held M [] s' := by
  cases type
  case «begin» | cbegin | call | callc | «end» => cases hplain
  case ret | other => cases h
  case binop => exact holds_binopInterpreter.ok hs (go_ok h).2
  case const => exact holds_stackConst.ok hs (go_ok h).2
  case string => exact boxingString_held hs hstale (go_ok h).2
  case sexp => exact holds_boxingSexp.ok hs (go_ok h).2
  case sti => exact stackSti_held hs hstale (go_ok h).2
  case sta => exact stackSta_held hs hstale (go_ok h).2
  case jmp => exact holds_jump.ok hs (go_ok h).2
  case drop => exact holds_stackDrop.ok hs (go_ok h).2
  case dup => exact holds_stackDup.ok hs (go_ok h).2
  case swap => exact holds_stackSwap.ok hs (go_ok h).2
  case elem => exact callElem_held hs hstale (go_ok h).2
  case ld => exact memLoad_held hs hstale habove (go_ok h).2
  case lda => exact stackLda_held hs hstale habove (go_ok h).2
  case st => exact holds_memStore.ok hs (go_ok h).2
  case cjmpz => exact (holds_jumpIf (· = boxInt 0)).ok hs (go_ok h).2
  case cjmpnz => exact (holds_jumpIf (· ≠ boxInt 0)).ok hs (go_ok h).2
  case callRead => exact holds_callRead.ok hs (go_ok h).2
  case callWrite => exact holds_callWrite.ok hs (go_ok h).2
  case callLength => exact holds_callLength.ok hs (go_ok h).2
  case callString => exact holds_callString.ok hs (go_ok h).2
  case callArray => exact holds_callArray.ok hs (go_ok h).2
  case closure => exact closuresCreate_held hs hstale habove (go_ok h).2
  case tag => exact holds_unboxingTag.ok hs (go_ok h).2
  case array => exact holds_unboxingArray.ok hs (go_ok h).2
  case fail =>
    obtain ⟨_, _, -, hthrow⟩ := exec_bind_ok.mp (go_ok h).2
    cases hthrow
  case line => exact (holds_advance 5).ok hs (go_ok h).2
  case patt => exact holds_patt.ok hs (go_ok h).2

end Handlers

end LamaSM
