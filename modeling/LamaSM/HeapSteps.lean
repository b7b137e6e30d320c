import LamaSM.Aside
import LamaSM.Allocation
import LamaSM.References
import LamaSM.RootHandlers

/-! What one instruction does to the heap.

    Most instructions leave it alone. A store replaces one object by another at the same address
    (`Overwrites`); an instruction that makes an object may collect first, which moves the objects that
    are reachable, and then fills a free address. -/

namespace LamaSM
open Lib

/-- The instruction at `code_ptr` makes `o'` of the object `o` at the address. -/
inductive Overwrites (M : Machine) (s : State) : InstructionType → Word → Obj → Obj → Prop
  | captured {low index : ℕ} {n : ℤ} {ns : List ℤ} {v : Word} {o o' : Obj} :
      M.bf.lowBitsAt s.codePtr = .ok low → MemVar.ofByte low = .closure →
      M.bf.code32 (s.codePtr + 1) = .ok index → s.argSizes = n :: ns →
      o.put (unbox (boxInt (toU32 (index + 1)))) v = some o' →
      Overwrites M s .st (s.stack (s.fp + 4 + n)) o o'
  | element {o o' : Obj} : integerIndex s = true →
      o.put (unbox (s.stack (s.top + 2))) (s.stack (s.top + 1)) = some o' →
      Overwrites M s .sta (s.stack (s.top + 3)) o o'
  | first {type : InstructionType} {o : Obj} (w : Word) : type = .sta ∨ type = .sti →
      integerIndex s = false → NoSlot M (s.stack (s.top + 1)) →
      Overwrites M s type (s.stack (s.top + 1)) o (o.setFirst w)

/-- `a` was free in the heap the collections of `log` left, and `o` has been put there. -/
structure Grown (M : Machine) (s : State) (log : List (Word → Word)) (heap : Heap) (a : Word) (o : Obj)
    (s' : State) : Prop where
  collected : Collected M s (relocated log) heap
  kept : log = [] → heap = s.heap
  zone : M.heapZone a = true
  free : heap a = none
  heap : s'.heap = Function.update heap a (some o)
  collections : s'.collections = log ++ s.collections

/-- What one instruction does to the heap. Only CLOSURE makes a closure, with its own target as the
    entry. -/
inductive HeapStep (M : Machine) (type : InstructionType) (s s' : State) : Prop
  | same (heap : s'.heap = s.heap) (collections : s'.collections = s.collections) :
      HeapStep M type s s'
  | store {a : Word} {o o' : Obj} (writes : Overwrites M s type a o o') (present : s.heap a = some o)
      (heap : s'.heap = Function.update s.heap a (some o'))
      (collections : s'.collections = s.collections) : HeapStep M type s s'
  | create {log : List (Word → Word)} {heap : Heap} {a : Word} {o : Obj}
      (filled : Grown M s log heap a o s')
      (entry : ∀ entry captured, o = .closure entry captured → type = .closure ∧
        ∃ ip, M.bf.code32 (s.codePtr + 1) = .ok ip ∧ entry = boxInt ip) : HeapStep M type s s'

section Making

variable {M : Machine} {E : Env M} {s t t' u : State} {a : Word} {log : List (Word → Word)} {heap : Heap}

theorem Beside.heapStep {type : InstructionType} (h : Beside s u) : HeapStep M type s u :=
  .same h.heap h.collections

/-! ### Before the allocation -/

/-- `t` has the heap of `s`, and all words scanned in `s` are scanned in `t`. -/
structure Scans (M : Machine) (s t : State) : Prop where
  heap : t.heap = s.heap
  collections : t.collections = s.collections
  words : ∀ i, s.top < i → i < M.maxStack → ∃ j, t.top < j ∧ j < M.maxStack ∧ t.stack j = s.stack i

theorem Scans.refl (s : State) : Scans M s s := ⟨rfl, rfl, fun i hi hM => ⟨i, hi, hM, rfl⟩⟩

theorem Scans.same (h : Scans M s t) (hr : SameRoots t t') (hc : t'.collections = t.collections) :
    Scans M s t' := by
  refine ⟨hr.heap.trans h.heap, hc.trans h.collections, fun i hi hM => ?_⟩
  rw [hr.top, hr.stack]
  exact h.words i hi hM

theorem Scans.push (h : Scans M s t) {w : Word} {r : Unit} (hp : pushOp M w t = .ok r t') :
    Scans M s t' := by
  obtain ⟨rfl, -⟩ := pushOp_ok hp
  refine ⟨h.heap, h.collections, fun i hi hM => ?_⟩
  obtain ⟨j, hj, hjM, hword⟩ := h.words i hi hM
  refine ⟨j, ?_, hjM, ?_⟩
  · show t.top - 1 < j
    omega
  · exact (Function.update_of_ne (ne_of_gt hj) ..).trans hword

/-- `std::reverse` of the uppermost words. -/
theorem Scans.reverse (h : Scans M s t) {n : ℕ} {r : Unit}
    (hr : reverseSlots M (t.top + 1) n t = .ok r t') : Scans M s t' := by
  unfold reverseSlots at hr
  split_ifs at hr with hone hlow hhigh
  · cases hr
    exact h
  · cases hr
    refine ⟨h.heap, h.collections, fun i hi hiM => ?_⟩
    obtain ⟨j, hj, hjM, hword⟩ := h.words i hi hiM
    dsimp only
    by_cases hrange : j < t.top + 1 + n
    · refine ⟨2 * (t.top + 1) + n - 1 - j, by omega, by omega, ?_⟩
      rw [if_pos (by omega), ← hword]
      congr 1
      omega
    · exact ⟨j, hj, hjM, (if_neg (by omega)).trans hword⟩

/-! ### The allocation -/

/-- An address has been allocated in `s` for the object still to be made. -/
structure Taken (M : Machine) (s : State) (log : List (Word → Word)) (heap : Heap) (a : Word)
    (s' : State) : Prop where
  collected : Collected M s (relocated log) heap
  kept : log = [] → heap = s.heap
  zone : M.heapZone a = true
  free : heap a = none
  heap : s'.heap = heap
  collections : s'.collections = log ++ s.collections

theorem Scans.collect (h : Scans M s t) {r : Unit} (hc : collectGarbage E t = .ok r t') :
    ∃ log, Collected M s (relocated log) t'.heap ∧ (log = [] → t'.heap = s.heap) ∧
      t'.collections = log ++ s.collections ∧ t'.stack = rewritten M t (relocated log) := by
  rcases collectGarbage_ok hc with rfl | ⟨heap, forward, hr, rfl⟩
  · refine ⟨[], .kept (fun _ => rfl) h.heap, fun _ => h.heap, h.collections, ?_⟩
    funext i
    exact (ite_self _).symm
  · have hcollected : Collected M t (relocated [relocateWord M.heapZone t.heap forward]) heap :=
      .moved (fun i hi hM => mem_rootWords.mpr (.inl ⟨i, hi, hM, rfl⟩)) hr rfl
    refine ⟨[relocateWord M.heapZone t.heap forward], hcollected.of_words h.heap h.words,
      fun hnil => (nomatch hnil), ?_, rfl⟩
    show _ :: t.collections = _
    rw [h.collections]
    rfl

theorem Scans.alloc (h : Scans M s t) (ha : alloc E t = .ok a t') :
    ∃ log heap, Taken M s log heap a t' ∧ t'.stack = rewritten M t (relocated log) := by
  obtain ⟨t₁, hc, hzone, hfree, rfl⟩ := alloc_ok ha
  obtain ⟨log, hcollected, hkept, hlog, hstack⟩ := h.collect hc
  exact ⟨log, t₁.heap, ⟨hcollected, hkept, hzone, hfree, rfl, hlog⟩, hstack⟩

theorem Taken.same (h : Taken M s log heap a t) (hheap : t'.heap = t.heap)
    (hc : t'.collections = t.collections) : Taken M s log heap a t' :=
  ⟨h.collected, h.kept, h.zone, h.free, hheap.trans h.heap, hc.trans h.collections⟩

theorem Taken.beside (h : Taken M s log heap a t) (hb : Beside t t') : Taken M s log heap a t' :=
  h.same hb.heap hb.collections

theorem Taken.setObj (h : Taken M s log heap a t) {o : Obj} {r : Unit} (hs : setObj a o t = .ok r t') :
    Grown M s log heap a o t' := by
  cases hs
  refine ⟨h.collected, h.kept, h.zone, h.free, ?_, h.collections⟩
  dsimp only
  rw [h.heap]

theorem Grown.beside {o : Obj} (h : Grown M s log heap a o t) (hb : Beside t t') :
    Grown M s log heap a o t' :=
  ⟨h.collected, h.kept, h.zone, h.free, hb.heap.trans h.heap, hb.collections.trans h.collections⟩

theorem Quiet.collections {α : Type} {x : Exec α} (hx : Quiet x) {v : α} (h : x t = .ok v t') :
    t'.collections = t.collections := ((hx t).of_ok (Still.refl t) h).collections

theorem Scans.pushRoots (h : Scans M s t) {ps : List RootRef} {r : Unit}
    (hp : pushExtraRoots ps t = .ok r t') : Scans M s t' :=
  h.same (pushExtraRoots_same hp) ((quiet_pushExtraRoots ps).collections hp)

theorem Taken.popRoots (h : Taken M s log heap a t) {ps : List RootRef} {r : Unit}
    (hp : popExtraRoots ps t = .ok r t') : Taken M s log heap a t' :=
  h.same (popExtraRoots_same hp).heap ((quiet_popExtraRoots ps).collections hp)

/-! ### The constructors of the runtime -/

theorem Scans.Barray (h : Scans M s t) {args : ℤ} {n : ℕ} (hb : Barray E args n t = .ok a t') :
    ∃ log heap elems, Grown M s log heap a (.array elems) t' := by
  simp only [LamaSM.Barray, exec_bind_ok, exec_pure_ok] at hb
  obtain ⟨_, t₁, hpush, a', t₂, halloc, elems, t₃, hread, _, t₄, hpop, _, t₅, hset, rfl, rfl⟩ := hb
  obtain ⟨log, heap, htaken, -⟩ := (h.pushRoots hpush).alloc halloc
  exact ⟨log, heap, elems,
    ((htaken.beside (aside_readArgs _ _ _ _ hread)).popRoots hpop).setObj hset⟩

/-- What a collection has left lies beside the array. -/
theorem Barray_collected {args : ℤ} {n : ℕ} (h : Barray E args n s = .ok a t) :
    ∃ relocate heap, Collected M s relocate heap ∧ t.stack = rewritten M s relocate ∧
      ∀ b o, heap b = some o → t.heap b = some o := by
  simp only [Barray, exec_bind_ok, exec_pure_ok] at h
  obtain ⟨_, s₁, hpush, a', s₂, halloc, elems, s₃, hread, _, s₄, hpop, _, s₅, hset, rfl, rfl⟩ := h
  have hpushed := pushExtraRoots_same hpush
  have hargs := readArgs_same hread
  have hpopped := popExtraRoots_same hpop
  obtain ⟨log, heap, htaken, hstack⟩ := ((Scans.refl s).pushRoots hpush).alloc halloc
  cases hset
  refine ⟨relocated log, heap, htaken.collected, ?_, fun b o hb => ?_⟩
  · rw [hpopped.stack, hargs.stack, hstack]
    funext i
    rw [rewritten, rewritten, hpushed.top, hpushed.stack]
  · have hne : b ≠ a' := fun hba => by
      rw [hba, htaken.free] at hb
      cases hb
    dsimp only
    rw [Function.update_of_ne hne, hpopped.heap, hargs.heap, htaken.heap, hb]

theorem Scans.Bsexp (h : Scans M s t) {args : ℤ} {n : ℕ} (hb : Bsexp E args n t = .ok a t') :
    ∃ log heap tag fields, Grown M s log heap a (.sexp tag fields) t' := by
  simp only [LamaSM.Bsexp, exec_bind_ok] at hb
  obtain ⟨_, t₁, hpush, a', t₂, halloc, hb⟩ := hb
  obtain ⟨log, heap, htaken, -⟩ := (h.pushRoots hpush).alloc halloc
  split at hb
  · cases hb
  simp only [exec_bind_ok, exec_pure_ok] at hb
  obtain ⟨fields, t₃, hread, tag, t₄, htag, _, t₅, hpop, _, t₆, hset, rfl, rfl⟩ := hb
  have hbeside := (aside_readArgs _ _ _ _ hread).trans (aside_readOperand _ _ _ _ htag)
  exact ⟨log, heap, _, _, ((htaken.beside hbeside).popRoots hpop).setObj hset⟩

theorem readArgs_ok : ∀ {slots : List ℤ} {t t' : State} {ws : List Word},
    readArgs M slots t = .ok ws t' → ws = slots.map t.stack
  | [], _, _, _, h => (exec_pure_ok.mp h).1.symm
  | i :: slots, t, t', ws, h => by
    simp only [readArgs, exec_bind_ok, exec_pure_ok] at h
    obtain ⟨w, t₁, hread, rest, t₂, hrest, rfl, rfl⟩ := h
    obtain ⟨rfl, rfl, -⟩ := readOperand_ok hread
    rw [readArgs_ok hrest, List.map_cons]

/-- An entry that is no heap address is not rewritten by the collection, the captured words are. -/
theorem Scans.Bclosure (h : Scans M s t) {args : ℤ} {n : ℕ} (hentry : M.heapZone (t.stack args) = false)
    (hb : Bclosure E args n t = .ok a t') : ∃ log heap, Grown M s log heap a
      (.closure (t.stack args) ((argSlots args 1 n).map (rewritten M t (relocated log)))) t' := by
  simp only [LamaSM.Bclosure, exec_bind_ok, exec_pure_ok] at hb
  obtain ⟨_, t₁, hpush, a', t₂, halloc, entry, t₃, hread, captured, t₄, hargs, _, t₅, hpop, _, t₆, hset,
    rfl, rfl⟩ := hb
  have hroots := pushExtraRoots_same hpush
  obtain ⟨log, heap, htaken, hstack⟩ := (h.pushRoots hpush).alloc halloc
  have hstack : t₂.stack = rewritten M t (relocated log) := by
    rw [hstack]
    funext i
    rw [rewritten, rewritten, hroots.top, hroots.stack]
  obtain ⟨rfl, rfl, -⟩ := readOperand_ok hread
  obtain rfl := readArgs_ok hargs
  refine ⟨log, heap, ?_⟩
  have hbeside := (aside_readOperand _ _ _ _ hread).trans (aside_readArgs _ _ _ _ hargs)
  have hword : t₂.stack args = t.stack args := by
    rw [hstack, rewritten, htaken.collected.word hentry, ite_self]
  have hgrown := ((htaken.beside hbeside).popRoots hpop).setObj hset
  dsimp only at hgrown
  rwa [hword, hstack] at hgrown

theorem Scans.Lstring (h : Scans M s t) {ref : RootRef} {arg : Word}
    (hb : Lstring E ref arg t = .ok a t') :
    ∃ log heap contents, Grown M s log heap a (.string contents) t' := by
  simp only [LamaSM.Lstring, exec_bind_ok, exec_get_ok] at hb
  obtain ⟨t₀, t₁, ⟨hget, ht₁⟩, hb⟩ := hb
  rw [hget, ht₁] at hb
  cases hprint : E.printValue t.heap t.slack arg with
  | error e =>
    rw [hprint] at hb
    cases hb
  | ok content =>
    rw [hprint] at hb
    simp only [exec_bind_ok, exec_pure_ok] at hb
    obtain ⟨_, t₁, hpush, a', t₂, hstring, _, t₃, hpop, rfl, rfl⟩ := hb
    have hscans := h.same (pushExtraRoot_same hpush) ((quiet_pushExtraRoot ref).collections hpush)
    obtain ⟨t₄, hc, hzone, hfree, rfl⟩ := Bstring_ok hstring
    have hcell : SameRoots t₁ { t₁ with extraRoots := .cell 1 1 :: t₁.extraRoots } := ⟨rfl, rfl, rfl⟩
    obtain ⟨log, hcollected, hkept, hlog, -⟩ := (hscans.same hcell rfl).collect hc
    refine ⟨log, t₄.heap, content ++ [0], hcollected, hkept, hzone, hfree, ?_, ?_⟩
    · exact (popExtraRoot_same hpop).heap
    · exact ((quiet_popExtraRoot ref).collections hpop).trans hlog

/-! ### Closures -/

/-- What a store makes a closure of was one. -/
theorem Obj.put_closure {o : Obj} {i : ℤ} {v entry : Word} {captured : List Word}
    (h : o.put i v = some (.closure entry captured)) : ∃ entry' captured', o = .closure entry' captured' := by
  unfold Obj.put at h
  split at h
  · cases h
  cases o with
  | closure entry' captured' => exact ⟨entry', captured', rfl⟩
  | string | array | sexp =>
    dsimp only at h
    split at h <;> cases h

theorem Overwrites.closure {type : InstructionType} {o : Obj} {entry : Word} {captured : List Word}
    (h : Overwrites M s type a o (.closure entry captured)) :
    ∃ entry' captured', o = .closure entry' captured' := by
  generalize ho' : Obj.closure entry captured = o' at h
  cases h with
  | captured _ _ _ _ hput => exact Obj.put_closure (ho' ▸ hput)
  | element _ hput => exact Obj.put_closure (ho' ▸ hput)
  | first w =>
    cases o with
    | closure entry' captured' => exact ⟨entry', captured', rfl⟩
    | string | array | sexp => cases ho'

/-- An object in the heap a collection left was there before. -/
theorem Collected.origin {relocate : Word → Word} (h : Collected M s relocate heap) {b : Word} {o' : Obj}
    (hb : heap b = some o') : ∃ c o, s.heap c = some o ∧ o' = o.map relocate := by
  cases h with
  | kept words same => exact ⟨b, o', same ▸ hb, (Obj.map_id words o').symm⟩
  | moved stack guarantee words =>
    obtain ⟨c, o, -, ho, -, ho'⟩ := guarantee.origin hb
    exact ⟨c, o, ho, by rw [words, ho']⟩

/-- An instruction that replaces the entry of no closure: a closure there is afterwards has the entry
    of one there was, unless CLOSURE has just made it. -/
theorem HeapStep.entry {type : InstructionType} (h : HeapStep M type s u)
    (hkeep : ∀ a entry captured o', s.heap a = some (.closure entry captured) →
      Overwrites M s type a (.closure entry captured) o' → ∃ captured', o' = .closure entry captured')
    {b entry : Word} {captured : List Word} (hb : u.heap b = some (.closure entry captured)) :
    (∃ c captured', s.heap c = some (.closure entry captured')) ∨
      type = .closure ∧ ∃ ip, M.bf.code32 (s.codePtr + 1) = .ok ip ∧ entry = boxInt ip := by
  cases h with
  | same heap => exact .inl ⟨b, captured, heap ▸ hb⟩
  | @store a o o' writes present heap =>
    rw [heap] at hb
    by_cases hba : b = a
    · rw [hba, Function.update_self] at hb
      obtain rfl := Option.some.inj hb
      obtain ⟨entry', captured', rfl⟩ := writes.closure
      obtain ⟨captured'', heq⟩ := hkeep a entry' captured' _ present writes
      cases heq
      exact .inl ⟨a, captured', present⟩
    · rw [Function.update_of_ne hba] at hb
      exact .inl ⟨b, captured, hb⟩
  | @create log heap a o grown hentry =>
    rw [grown.heap] at hb
    by_cases hba : b = a
    · rw [hba, Function.update_self] at hb
      exact .inr (hentry entry captured (Option.some.inj hb))
    · rw [Function.update_of_ne hba] at hb
      obtain ⟨c, o, ho, hmap⟩ := grown.collected.origin hb
      cases o with
      | closure entry' captured' =>
        cases hmap
        exact .inl ⟨c, captured', ho⟩
      | string | array | sexp => cases hmap

/-! ### Reads and stores -/

theorem VariableRead.same {d : Designation} {f : Exec Word} (hf : VariableRead M d f) {w : Word}
    (h : f t = .ok w t') : t' = t := by
  cases hf with
  | global => exact (getGlobal_ok h).1
  | «local» => exact (getLocal_ok h).1
  | argument => exact (getArg_ok h).1
  | closure =>
    obtain ⟨p, t₁, hptr, helem⟩ := exec_bind_ok.mp h
    obtain ⟨rfl, -⟩ := closurePtr_ok hptr
    exact (Belem_ok helem).1

theorem Bsta_ok {x i v w : Word} (hi : isBoxedInt i = true) (h : Bsta M x i v t = .ok w t') :
    ∃ o o', t.heap x = some o ∧ o.put (unbox i) v = some o' ∧
      t' = { t with heap := Function.update t.heap x (some o') } := by
  unfold Bsta at h
  rw [if_pos hi] at h
  obtain ⟨o, t₁, hget, hrest⟩ := exec_bind_ok.mp h
  obtain ⟨rfl, ho⟩ := getObj_ok hget
  cases hput : o.put (unbox i) v with
  | none =>
    rw [hput] at hrest
    cases hrest
  | some o' =>
    rw [hput] at hrest
    cases hrest
    exact ⟨o, o', ho, hput, rfl⟩

/-! ### The instructions that make an object -/

theorem Grown.finish {o : Obj} (h : Grown M s log heap a o t) {n : ℕ}
    (hend : (do popOps n; pushOp M a : Exec Unit) t = .ok () t') : Grown M s log heap a o t' :=
  h.beside (((aside_popOps n).bind fun _ => aside_pushOp a) _ _ _ hend)

theorem boxingSexp_heap (h : boxingSexp E s = .ok () u) : HeapStep M .sexp s u := by
  obtain ⟨⟨tag, n⟩, s₁, hargs, h⟩ := exec_bind_ok.mp h
  obtain ⟨-, -, rfl⟩ := consumeArgs2_ok hargs
  obtain ⟨p, s₂, hptr, h⟩ := exec_bind_ok.mp h
  obtain ⟨w, s₃, hhash, hrest⟩ := exec_bind_ok.mp h
  obtain ⟨rfl, -⟩ := boxes_LtagHash _ _ _ _ hhash
  obtain ⟨_, s₄, hpush, hrest⟩ := exec_bind_ok.mp hrest
  have hrest : (do
      let s ← get
      touch (s.top + (toU32 (n + 1) : ℕ))
      let res ← Bsexp E (s.top + 1) (toU32 (n + 1))
      popOps (toU32 (n + 1))
      pushOp M res : Exec Unit) s₄ = .ok () u := hrest
  obtain ⟨_, _, hget, hrest⟩ := exec_bind_ok.mp hrest
  cases hget
  obtain ⟨_, _, htouch, hrest⟩ := exec_bind_ok.mp hrest
  cases htouch
  obtain ⟨res, s₅, hsexp, hrest⟩ := exec_bind_ok.mp hrest
  have hs₁ : Scans M s { s with codePtr := s.codePtr + 9 } := (Scans.refl s).same ⟨rfl, rfl, rfl⟩ rfl
  have hs₃ := hs₁.same (getStringPtr_ok hptr).1 (aside_getStringPtr tag _ _ _ hptr).collections
  have htouched : SameRoots s₄ { s₄ with
      touched := max s₄.touched (s₄.top + (toU32 (n + 1) : ℕ)) } := ⟨rfl, rfl, rfl⟩
  obtain ⟨log, heap, _, _, hgrown⟩ := ((hs₃.push hpush).same htouched rfl).Bsexp hsexp
  exact .create (hgrown.finish hrest) fun _ _ h => nomatch h

theorem callArray_heap (h : callArray E s = .ok () u) : HeapStep M .callArray s u := by
  obtain ⟨n, s₁, hargs, h⟩ := exec_bind_ok.mp h
  obtain ⟨-, rfl⟩ := consumeArgs1_ok hargs
  obtain ⟨_, _, hget, h⟩ := exec_bind_ok.mp h
  cases hget
  obtain ⟨_, _, htouch, h⟩ := exec_bind_ok.mp h
  cases htouch
  obtain ⟨_, s₂, hrev, h⟩ := exec_bind_ok.mp h
  obtain ⟨res, s₃, harray, h⟩ := exec_bind_ok.mp h
  have hs₁ : Scans M s { s with codePtr := s.codePtr + 5, touched := max s.touched (s.top + n) } :=
    (Scans.refl s).same ⟨rfl, rfl, rfl⟩ rfl
  obtain ⟨log, heap, _, hgrown⟩ := (hs₁.reverse hrev).Barray harray
  exact .create (hgrown.finish h) fun _ _ h => nomatch h

theorem callString_heap (h : callString E s = .ok () u) : HeapStep M .callString s u := by
  obtain ⟨_, _, hadvance, h⟩ := exec_bind_ok.mp h
  cases hadvance
  obtain ⟨a, s₁, hpeek, h⟩ := exec_bind_ok.mp h
  obtain ⟨rfl, -⟩ := peekOp_ok hpeek
  obtain ⟨_, _, hget, h⟩ := exec_bind_ok.mp h
  cases hget
  obtain ⟨res, s₂, hstring, h⟩ := exec_bind_ok.mp h
  have hs₁ : Scans M s { s with
      codePtr := s.codePtr + (1 : ℕ), touched := max s.touched (s.top + 1) } :=
    (Scans.refl s).same ⟨rfl, rfl, rfl⟩ rfl
  obtain ⟨log, heap, _, hgrown⟩ := hs₁.Lstring hstring
  exact .create (hgrown.finish h) fun _ _ h => nomatch h

/-- The designated variables are pushed one by one. -/
theorem Scans.designations : ∀ {ds : List Designation} {t t' : State} {r : Unit}, Scans M s t →
    pushDesignations M ds t = .ok r t' → Scans M s t'
  | [], _, _, _, hs, h => by
    cases h
    exact hs
  | d :: ds, t, t', r, hs, h => by
    have next : ∀ {f}, VariableRead M d f →
        (do let w ← f; pushOp M w; pushDesignations M ds : Exec Unit) t = .ok r t' → Scans M s t' := by
      intro f hf h
      obtain ⟨w, t₁, hread, hrest⟩ := exec_bind_ok.mp h
      obtain ⟨_, t₂, hpush, hrest⟩ := exec_bind_ok.mp hrest
      obtain rfl := hf.same hread
      exact (hs.push hpush).designations hrest
    unfold pushDesignations at h
    cases hvar : d.memVar
    all_goals rw [hvar] at h
    case «local» => exact next (.local hvar) h
    case argument => exact next (.argument hvar) h
    case closure => exact next (.closure hvar) h
    all_goals
      obtain ⟨_, _, hthrow, -⟩ := exec_bind_ok.mp h
      cases hthrow

/-- CLOSURE makes a closure of its target and the words its designations pushed, and leaves its
    address on the stack. -/
theorem closuresCreate_grown (h : closuresCreate E s = .ok () u) : ∃ ip n ds t log heap a,
    M.bf.code32 (s.codePtr + 1) = .ok ip ∧ M.bf.code32 (s.codePtr + 1 + 4) = .ok n ∧
      consumeDesignations M n { s with codePtr := s.codePtr + 9 } =
        .ok ds { s with codePtr := s.codePtr + 9 + 5 * n } ∧
      pushDesignations M ds.reverse { s with codePtr := s.codePtr + 9 + 5 * n } = .ok () t ∧
      Grown M s log heap a
        (.closure (boxInt ip) ((argSlots t.top 1 n).map (rewritten M t (relocated log)))) u ∧
      u.stack (u.top + 1) = a := by
  obtain ⟨⟨ip, n⟩, s₁, hargs, h⟩ := exec_bind_ok.mp h
  obtain ⟨hip, hn, rfl⟩ := consumeArgs2_ok hargs
  obtain ⟨ds, s₂, hds, h⟩ := exec_bind_ok.mp h
  obtain ⟨-, rfl⟩ := consumeDesignations_ok hds
  obtain ⟨_, t, hpushes, h⟩ := exec_bind_ok.mp h
  obtain ⟨_, t₁, hpush, h⟩ := exec_bind_ok.mp h
  obtain ⟨_, _, hget, h⟩ := exec_bind_ok.mp h
  cases hget
  obtain ⟨a, t₂, hclosure, hend⟩ := exec_bind_ok.mp h
  have hs₂ : Scans M s { s with codePtr := s.codePtr + 9 + 5 * n } :=
    (Scans.refl s).same ⟨rfl, rfl, rfl⟩ rfl
  have ht₁ := (hs₂.designations hpushes).push hpush
  obtain ⟨rfl, -⟩ := pushOp_ok hpush
  dsimp only at hclosure
  rw [show t.top - 1 + 1 = t.top by omega] at hclosure
  have hentry : Function.update t.stack t.top (boxInt ip) t.top = boxInt ip := Function.update_self ..
  have hzone : M.heapZone (Function.update t.stack t.top (boxInt ip) t.top) = false := by
    rw [hentry]
    exact heapZone_of_boxed (isBoxedInt_boxInt _)
  obtain ⟨log, heap, hgrown⟩ := ht₁.Bclosure hzone hclosure
  have hcaptured : (argSlots t.top 1 n).map (rewritten M { t with
      stack := Function.update t.stack t.top (boxInt ip), top := t.top - 1 } (relocated log)) =
      (argSlots t.top 1 n).map (rewritten M t (relocated log)) := by
    refine List.map_congr_left fun i hi => ?_
    rw [mem_argSlots] at hi
    rw [rewritten, rewritten]
    dsimp only
    rw [Function.update_of_ne (by omega)]
    simp only [show t.top < i by omega, show t.top - 1 < i by omega]
  dsimp only at hgrown
  rw [hentry, hcaptured] at hgrown
  refine ⟨ip, n, ds, t, log, heap, a, hip, hn, hds, hpushes, hgrown.finish hend, ?_⟩
  obtain ⟨_, t₃, -, hlast⟩ := exec_bind_ok.mp hend
  obtain ⟨rfl, -⟩ := pushOp_ok hlast
  dsimp only
  rw [show t₃.top - 1 + 1 = t₃.top by omega, Function.update_self]

theorem closuresCreate_heap (h : closuresCreate E s = .ok () u) : HeapStep M .closure s u := by
  obtain ⟨ip, n, ds, t, log, heap, a, hip, -, -, -, hgrown, -⟩ := closuresCreate_grown h
  refine .create hgrown fun entry captured heq => ⟨rfl, ip, hip, ?_⟩
  cases heq
  rfl

/-! ### The instructions that store -/

theorem memStore_heap (h : memStore M s = .ok () u) : HeapStep M .st s u := by
  obtain ⟨⟨low, index⟩, s₁, hargs, h⟩ := exec_bind_ok.mp h
  obtain ⟨hlow, hindex, rfl⟩ := consumeLowerBits1_ok hargs
  have slot : ∀ slot : State → ℤ, (do
      let w ← peekOp M
      let s ← get
      writeSlot M (slot s) w : Exec Unit) { s with codePtr := s.codePtr + 5 } = .ok () u →
      HeapStep M .st s u := by
    intro slot h
    have hb := (aside_peekOp.bind fun w => aside_setSlot slot w) _ _ _ h
    exact .same hb.heap hb.collections
  dsimp only at h
  cases hvar : MemVar.ofByte low
  all_goals rw [hvar] at h
  case global => exact slot (fun s => globalSlot M s index) h
  case «local» => exact slot (fun s => s.fp - index) h
  case argument => exact slot (fun s => s.fp + 4 + index) h
  case other => cases h
  case closure =>
    obtain ⟨w, s₂, hpeek, h⟩ := exec_bind_ok.mp h
    obtain ⟨rfl, -⟩ := peekOp_ok hpeek
    obtain ⟨p, s₃, hptr, h⟩ := exec_bind_ok.mp h
    obtain ⟨rfl, n, ns, hsizes, rfl, -⟩ := closurePtr_ok hptr
    obtain ⟨_, s₄, hbsta, h⟩ := exec_bind_ok.mp h
    cases h
    obtain ⟨o, o', ho, hput, rfl⟩ := Bsta_ok (isBoxedInt_boxInt _) hbsta
    exact .store (.captured hlow hvar hindex hsizes hput) ho rfl rfl

/-- STA and STI with a reference write the first word of the object it leads to, or a slot. -/
theorem indirect_heap {type : InstructionType} (htype : type = .sta ∨ type = .sti)
    (hindex : integerIndex s = false) {pc t : ℤ} (h : (do
      let w ← loadWord M (s.stack (s.top + 2))
      storeWord M (s.stack (s.top + 1)) w
      pushOp M (s.stack (s.top + 1)) : Exec Unit)
        { s with codePtr := pc, top := s.top + 2, touched := t } = .ok () u) : HeapStep M type s u := by
  obtain ⟨w, s₁, hload, h⟩ := exec_bind_ok.mp h
  obtain ⟨_, s₂, hstore, hpush⟩ := exec_bind_ok.mp h
  have hbefore := aside_loadWord _ _ _ _ hload
  have hafter := aside_pushOp _ _ _ _ hpush
  rcases target M s₁ (s.stack (s.top + 1)) with ⟨hj, hr⟩ | ⟨hno, ho, hx⟩ | ⟨hno, hnone⟩
  · rw [storeWord_slot hj hr] at hstore
    cases hstore
    exact .same (hafter.heap.trans hbefore.heap) (hafter.collections.trans hbefore.collections)
  · rw [storeWord_object hno ho hx] at hstore
    cases hstore
    have hheap : s₁.heap = s.heap := hbefore.heap
    refine .store (.first w htype hindex hno) (hheap ▸ ho) ?_ ?_
    · rw [hafter.heap, ← hheap]
    · exact hafter.collections.trans hbefore.collections
  · rw [storeWord_nothing hno hnone] at hstore
    cases hstore

theorem stackSta_heap (h : stackSta M s = .ok () u) : HeapStep M .sta s u := by
  obtain ⟨pc, t, -, h⟩ := popTwo_ok h
  split at h
  · rename_i hi
    obtain ⟨x, s₁, hpeek, h⟩ := exec_bind_ok.mp h
    obtain ⟨rfl, rfl, -⟩ := peekOp_ok hpeek
    obtain ⟨_, _, hpop, h⟩ := exec_bind_ok.mp h
    cases hpop
    obtain ⟨_, s₂, hbsta, hpush⟩ := exec_bind_ok.mp h
    obtain ⟨o, o', ho, hput, rfl⟩ := Bsta_ok hi hbsta
    have hafter := aside_pushOp _ _ _ _ hpush
    dsimp only at ho hafter
    rw [show s.top + 2 + 1 = s.top + 3 by omega] at ho hafter
    exact .store (.element hi hput) ho hafter.heap hafter.collections
  · rename_i hi
    exact indirect_heap (.inl rfl) (by simpa [integerIndex] using hi) h

theorem stackSti_heap (h : stackSti M s = .ok () u) : HeapStep M .sti s u := by
  obtain ⟨pc, t, -, h⟩ := popTwo_ok h
  split at h
  · cases h
  · rename_i hi
    exact indirect_heap (.inr rfl) (by simpa [integerIndex] using hi) h

/-- What an instruction that returns did to the heap. -/
theorem dispatch_heap {type : InstructionType} {ended : Bool} (h : dispatch E type s = .ok ended u) :
    HeapStep M type s u := by
  cases type
  case sexp => exact boxingSexp_heap (go_ok h).2
  case closure => exact closuresCreate_heap (go_ok h).2
  case callString => exact callString_heap (go_ok h).2
  case callArray => exact callArray_heap (go_ok h).2
  case sta => exact stackSta_heap (go_ok h).2
  case sti => exact stackSti_heap (go_ok h).2
  case st => exact memStore_heap (go_ok h).2
  all_goals exact (aside_dispatch E _ rfl _ _ _ h).heapStep

end Making

end LamaSM
