import LamaSM.Collector
import LamaSM.Forward

/-! Making an object of words of the stack: `Barray`, `Bsexp` and `Bclosure` root the words, allocate
    and copy them.

    A collection may come in between. It rewrites every word of the stack it scans once, so the object
    is made of the rewritten words, and the instruction leaves the stack rewritten too. -/

namespace LamaSM
open Lib

section Roots

variable {M : Machine} {s : State}

theorem pushExtraRoots_eq : ∀ {ps : List RootRef} {s : State},
    s.extraRoots.length + ps.length ≤ maxExtraRootsNumber → pushExtraRoots ps s =
      .ok () { s with extraRoots := ps.reverse ++ s.extraRoots }
  | [], _, _ => rfl
  | p :: ps, s, h => by
    rw [List.length_cons] at h
    have hpush : pushExtraRoot p s = .ok () { s with extraRoots := p :: s.extraRoots } :=
      if_neg (by omega)
    have hlen : (p :: s.extraRoots).length + ps.length ≤ maxExtraRootsNumber := by
      rw [List.length_cons]
      omega
    have hrest := pushExtraRoots_eq (s := { s with extraRoots := p :: s.extraRoots }) hlen
    rw [pushExtraRoots, exec_bind_of_ok hpush, hrest, List.reverse_cons, List.append_assoc]
    rfl

theorem RootRef.same_self (p : RootRef) : p.same p = true := by
  cases p <;> simp [RootRef.same]

theorem popExtraRoots_eq {rest : List RootRef} : ∀ {ps : List RootRef} {s : State},
    s.extraRoots = ps ++ rest → popExtraRoots ps s = .ok () { s with extraRoots := rest }
  | [], s, h => by
    rw [List.nil_append] at h
    rw [← h]
    rfl
  | p :: ps, s, h => by
    have hpop : popExtraRoot p s = .ok () { s with extraRoots := ps ++ rest } := by
      rw [popExtraRoot, h]
      exact if_pos p.same_self
    rw [popExtraRoots, exec_bind_of_ok hpop]
    exact popExtraRoots_eq (s := { s with extraRoots := ps ++ rest }) rfl

theorem readOperand_eq {i : ℤ} (h : 0 ≤ i ∧ i < M.maxStack) :
    readOperand M i s = .ok (s.stack i) { s with touched := max s.touched i } := by
  show readSlot M i { s with touched := max s.touched i } = _
  rw [readSlot_eq h]

theorem readArgs_eq : ∀ (is : List ℤ) {s : State}, (∀ i ∈ is, 0 ≤ i ∧ i < M.maxStack) →
    ∃ touched, readArgs M is s = .ok (is.map s.stack) { s with touched := touched }
  | [], s, _ => ⟨s.touched, rfl⟩
  | i :: is, s, h => by
    obtain ⟨touched, hrest⟩ := readArgs_eq is (s := { s with touched := max s.touched i })
      fun j hj => h j (List.mem_cons_of_mem _ hj)
    refine ⟨touched, ?_⟩
    rw [readArgs, exec_bind_of_ok (readOperand_eq (h i List.mem_cons_self)), exec_bind_of_ok hrest]
    rfl

theorem mem_argSlots {args : ℤ} {i n : ℕ} {j : ℤ} :
    j ∈ argSlots args i n ↔ args + i ≤ j ∧ j < args + i + n := by
  simp only [argSlots, List.mem_map, List.mem_range]
  constructor
  · rintro ⟨k, hk, rfl⟩
    omega
  · rintro ⟨hlow, hhigh⟩
    exact ⟨(j - args - i).toNat, by omega, by omega⟩

theorem length_argSlots (args : ℤ) (i n : ℕ) : (argSlots args i n).length = n := by
  simp [argSlots]

end Roots

/-! ### Collections -/

/-- The heap an allocation finds: as it is, or left by a collection that rewrites each word on the
    stack once by `relocate`. -/
inductive Collected (M : Machine) (s : State) (relocate : Word → Word) (heap : Heap) : Prop
  | kept (words : ∀ w, relocate w = w) (same : heap = s.heap) : Collected M s relocate heap
  | moved {roots : List Word} {forward : Word → Word}
      (stack : ∀ i, s.top < i → i < M.maxStack → s.stack i ∈ roots)
      (guarantee : Relocates M.heapZone s.heap roots heap forward)
      (words : relocate = relocateWord M.heapZone s.heap forward) : Collected M s relocate heap

section Collected

variable {M : Machine} {E : Env M} {s s' : State} {relocate : Word → Word} {heap : Heap}

theorem Obj.map_id {f : Word → Word} (hf : ∀ w, f w = w) (o : Obj) : o.map f = o := by
  have hlist (l : List Word) : l.map f = l := List.map_id'' hf l
  cases o <;> simp [Obj.map, hlist]

/-- An operand leads to the same object as before. -/
theorem Collected.object (h : Collected M s relocate heap) {i : ℤ} (hi : s.top < i)
    (hM : i < M.maxStack) (hzone : M.heapZone (s.stack i) = true) {o : Obj}
    (ho : s.heap (s.stack i) = some o) : heap (relocate (s.stack i)) = some (o.map relocate) := by
  cases h with
  | kept words same => rw [words, same, ho, Obj.map_id words]
  | moved stack guarantee words =>
    have hlive : Live s.heap _ (s.stack i) := .root (stack i hi hM) (by rw [ho]; rfl)
    have hmoved := guarantee.moved _ _ hlive ho
    rw [← words] at hmoved
    rw [show relocate (s.stack i) = _ from by rw [words, relocateWord, hzone, ho]]
    exact hmoved

/-- So does a pointer of that object. -/
theorem Collected.pointed (h : Collected M s relocate heap) {i : ℤ} (hi : s.top < i) (hM : i < M.maxStack)
    {o o' : Obj} {w : Word} (ho : s.heap (s.stack i) = some o) (hw : w ∈ o.pointers) (hzone : M.heapZone w = true)
    (ho' : s.heap w = some o') : heap (relocate w) = some (o'.map relocate) := by
  cases h with
  | kept words same => rw [words, same, ho', Obj.map_id words]
  | @moved roots forward stack guarantee words =>
    have hroot : Live s.heap roots (s.stack i) := .root (stack i hi hM) (by rw [ho]; rfl)
    have hmoved := guarantee.moved w o' (hroot.pointer ho hw (by rw [ho']; rfl)) ho'
    rw [← words] at hmoved
    rwa [show relocate w = forward w by rw [words, relocateWord, hzone, ho']; rfl]

/-- A word outside the heap stays. -/
theorem Collected.word (h : Collected M s relocate heap) {w : Word} (hw : M.heapZone w = false) :
    relocate w = w := by
  cases h with
  | kept words same => exact words w
  | moved stack guarantee words => rw [words, relocateWord, hw]; rfl

theorem heapZone_of_boxed {w : Word} (hw : isBoxedInt w = true) : M.heapZone w = false := by
  cases hzone : M.heapZone w with
  | false => rfl
  | true =>
    have heven := M.zone_even w hzone
    rw [isBoxedInt, beq_iff_eq] at hw
    omega

/-- The stack after a collection. -/
def rewritten (M : Machine) (s : State) (relocate : Word → Word) (i : ℤ) : Word :=
  if s.top < i ∧ i < M.maxStack then relocate (s.stack i) else s.stack i

/-- What an allocation leaves: a free address, in the heap left by the collection, if there was one. -/
structure Allocated (M : Machine) (s : State) (a : Word) (relocate : Word → Word) (heap : Heap)
    (s' : State) : Prop where
  collected : Collected M s relocate heap
  zone : M.heapZone a = true
  free : heap a = none
  state : ∃ slack allocs collections collectedAt, s' = { s with
    heap := heap, slack := slack, stack := rewritten M s relocate
    allocs := allocs, collections := collections, collectedAt := collectedAt }

theorem alloc_allocated (hslots : ∀ r ∈ s.extraRoots, ∃ i, r = .slot i) {a : Word}
    (h : alloc E s = .ok a s') : ∃ relocate heap, Allocated M s a relocate heap s' := by
  obtain ⟨s₁, hc, hzone, hfree, rfl⟩ := alloc_ok h
  rcases collectGarbage_ok hc with rfl | ⟨heap, forward, hr, rfl⟩
  · refine ⟨fun w => w, s₁.heap, .kept (fun _ => rfl) rfl, hzone, hfree,
      Function.update s₁.slack a fun _ => 0, s₁.allocs + 1, s₁.collections, s₁.collectedAt, ?_⟩
    have hstack : rewritten M s₁ (fun w => w) = s₁.stack := by
      funext i
      exact ite_self _
    rw [hstack]
  · have hroots : (s.collected M heap forward (E.slack s.allocs)).extraRoots = s.extraRoots := by
      conv_rhs => rw [← List.map_id s.extraRoots]
      refine List.map_congr_left fun r hr => ?_
      obtain ⟨i, rfl⟩ := hslots r hr
      rfl
    have hstack : ∀ i, s.top < i → i < M.maxStack → s.stack i ∈ rootWords M s :=
      fun i hi hM => mem_rootWords.mpr (.inl ⟨i, hi, hM, rfl⟩)
    refine ⟨_, heap, .moved hstack hr rfl, hzone, hfree,
      Function.update (E.slack s.allocs) a fun _ => 0, s.allocs + 1,
      relocateWord M.heapZone s.heap forward :: s.collections, s.allocs :: s.collectedAt, ?_⟩
    exact congrArg (fun roots => { s.collected M heap forward (E.slack s.allocs) with
      slack := Function.update (E.slack s.allocs) a fun _ => 0
      extraRoots := roots, allocs := s.allocs + 1 }) hroots

/-- An allocation succeeds unless `mmap` fails or the first one finds a null word to mark. -/
theorem alloc_total (hmemory : ∀ k h, (E.place k h).isSome = true) (htop : -1 ≤ s.top)
    (hnull : s.allocs = 0 → 0 ∉ rootWords M s) : ∃ a s', alloc E s = .ok a s' := by
  have hc : ∃ s₁, collectGarbage E s = .ok () s₁ := by
    unfold collectGarbage
    rw [if_neg fun h => hnull h.1 h.2]
    cases E.collect s.allocs s.heap (rootWords M s) with
    | none => exact ⟨s, rfl⟩
    | some c => exact ⟨_, if_neg (by omega)⟩
  obtain ⟨s₁, hc⟩ := hc
  obtain ⟨a, ha⟩ := Option.isSome_iff_exists.mp (hmemory s₁.allocs s₁.heap)
  refine ⟨a, { s₁ with allocs := s₁.allocs + 1, slack := Function.update s₁.slack a fun _ => 0 }, ?_⟩
  refine (exec_bind_of_ok hc).trans ?_
  rw [ha]

/-- The first collection takes a null word for an object. -/
theorem alloc_null (hnull : s.allocs = 0 ∧ 0 ∈ rootWords M s) :
    alloc E s = .error (.undefined (.object 0)) s :=
  exec_bind_of_error (if_pos hnull)

/-- The operands of another state with the same words go through the collection as well. -/
theorem Collected.of_words {t : State} (h : Collected M t relocate heap) (hheap : t.heap = s.heap)
    (hwords : ∀ i, s.top < i → i < M.maxStack → ∃ j, t.top < j ∧ j < M.maxStack ∧ t.stack j = s.stack i) :
    Collected M s relocate heap := by
  cases h with
  | kept words same => exact .kept words (same.trans hheap)
  | moved stack guarantee words =>
    rw [hheap] at guarantee words
    refine .moved (fun i hi hM => ?_) guarantee words
    obtain ⟨j, hj, hjM, hword⟩ := hwords i hi hM
    exact hword ▸ stack j hj hjM

end Collected

/-! ### The constructors of the runtime -/

section Constructors

variable {M : Machine} {E : Env M} {s s₁ : State} {args : ℤ} {n : ℕ} {a : Word}

/-- The state in which the words of the slots are rooted. -/
def State.rooted (s : State) (slots : List ℤ) : State := { s with extraRoots := slots.reverse.map .slot }

theorem push_slots (hroots : s.extraRoots = []) {slots : List ℤ}
    (hslots : slots.length ≤ maxExtraRootsNumber) :
    pushExtraRoots (slots.map .slot) s = .ok () (s.rooted slots) := by
  rw [pushExtraRoots_eq (by rw [hroots, List.length_map]; simpa using hslots), hroots,
    List.append_nil, ← List.map_reverse, State.rooted]

theorem pop_slots {slots : List ℤ} (h : s.extraRoots = slots.reverse.map .slot) :
    popExtraRoots (slots.reverse.map .slot) s = .ok () { s with extraRoots := [] } :=
  popExtraRoots_eq (by rw [List.append_nil]; exact h)

theorem State.rooted_slots {slots : List ℤ} :
    ∀ r ∈ (s.rooted slots).extraRoots, ∃ i, r = .slot i := by
  intro r hr
  obtain ⟨i, -, rfl⟩ := List.mem_map.mp hr
  exact ⟨i, rfl⟩

/-- The object is in place, the roots are gone. -/
def State.filled (s : State) (a : Word) (o : Obj) (touched : ℤ) : State := { s with
  extraRoots := [], heap := Function.update s.heap a (some o), touched := touched }

theorem Barray_eq (hroots : s.extraRoots = []) (hn : n ≤ maxExtraRootsNumber)
    (hrange : 0 ≤ args ∧ args + n ≤ M.maxStack)
    (h : alloc E (s.rooted (argSlots args 0 n)) = .ok a s₁)
    (hs₁ : s₁.extraRoots = (argSlots args 0 n).reverse.map .slot) : ∃ touched,
      Barray E args n s = .ok a (s₁.filled a (.array ((argSlots args 0 n).map s₁.stack)) touched) := by
  obtain ⟨touched, hread⟩ := readArgs_eq (M := M) (argSlots args 0 n) (s := s₁) fun i hi => by
    rw [mem_argSlots] at hi
    omega
  refine ⟨touched, ?_⟩
  rw [Barray, exec_bind_of_ok (push_slots hroots (by rw [length_argSlots]; exact hn)), exec_bind_of_ok h,
    exec_bind_of_ok hread]
  refine (exec_bind_of_ok (pop_slots ?_)).trans ?_
  · exact hs₁
  · rfl

theorem Barray_error (hroots : s.extraRoots = []) (hn : n ≤ maxExtraRootsNumber) {e : Fault}
    (h : alloc E (s.rooted (argSlots args 0 n)) = .error e s₁) : Barray E args n s = .error e s₁ := by
  rw [Barray, exec_bind_of_ok (push_slots hroots (by rw [length_argSlots]; exact hn)), exec_bind_of_error h]

/-- The fields lie in memory in the order in which they were pushed. -/
theorem Bsexp_eq (hroots : s.extraRoots = []) (hn : n ≤ maxExtraRootsNumber)
    (hrange : 0 ≤ args ∧ args + 1 + n ≤ M.maxStack)
    (h : alloc E (s.rooted (argSlots args 1 n)) = .ok a s₁)
    (hs₁ : s₁.extraRoots = (argSlots args 1 n).reverse.map .slot) : ∃ touched,
      Bsexp E args (n + 1) s = .ok a (s₁.filled a (.sexp (BitVec.ofInt 64 (unbox (s₁.stack args)))
        ((argSlots args 1 n).map s₁.stack).reverse) touched) := by
  obtain ⟨touched, hread⟩ := readArgs_eq (M := M) (argSlots args 1 n) (s := s₁) fun i hi => by
    rw [mem_argSlots] at hi
    omega
  have htag := readOperand_eq (M := M) (s := { s₁ with touched := touched }) (i := args) (by omega)
  refine ⟨max touched args, ?_⟩
  rw [Bsexp, Nat.add_sub_cancel, exec_bind_of_ok (push_slots hroots (by rw [length_argSlots]; exact hn)),
    exec_bind_of_ok h, if_neg (Nat.succ_ne_zero n), exec_bind_of_ok hread, exec_bind_of_ok htag]
  refine (exec_bind_of_ok (pop_slots ?_)).trans ?_
  · exact hs₁
  · rfl

theorem Bsexp_error (hroots : s.extraRoots = []) (hn : n ≤ maxExtraRootsNumber) {e : Fault}
    (h : alloc E (s.rooted (argSlots args 1 n)) = .error e s₁) :
    Bsexp E args (n + 1) s = .error e s₁ := by
  rw [Bsexp, Nat.add_sub_cancel, exec_bind_of_ok (push_slots hroots (by rw [length_argSlots]; exact hn)),
    exec_bind_of_error h]

theorem Bclosure_eq (hroots : s.extraRoots = []) (hn : n ≤ maxExtraRootsNumber)
    (hrange : 0 ≤ args ∧ args + 1 + n ≤ M.maxStack)
    (h : alloc E (s.rooted (argSlots args 1 n)) = .ok a s₁)
    (hs₁ : s₁.extraRoots = (argSlots args 1 n).reverse.map .slot) : ∃ touched,
      Bclosure E args n s = .ok a (s₁.filled a
        (.closure (s₁.stack args) ((argSlots args 1 n).map s₁.stack)) touched) := by
  have hentry := readOperand_eq (M := M) (s := s₁) (i := args) (by omega)
  obtain ⟨touched, hread⟩ := readArgs_eq (M := M) (argSlots args 1 n)
    (s := { s₁ with touched := max s₁.touched args }) fun i hi => by
      rw [mem_argSlots] at hi
      omega
  refine ⟨touched, ?_⟩
  rw [Bclosure, exec_bind_of_ok (push_slots hroots (by rw [length_argSlots]; exact hn)), exec_bind_of_ok h,
    exec_bind_of_ok hentry, exec_bind_of_ok hread]
  refine (exec_bind_of_ok (pop_slots ?_)).trans ?_
  · exact hs₁
  · rfl

theorem Bclosure_error (hroots : s.extraRoots = []) (hn : n ≤ maxExtraRootsNumber) {e : Fault}
    (h : alloc E (s.rooted (argSlots args 1 n)) = .error e s₁) :
    Bclosure E args n s = .error e s₁ := by
  rw [Bclosure, exec_bind_of_ok (push_slots hroots (by rw [length_argSlots]; exact hn)), exec_bind_of_error h]

end Constructors

/-! ### Instructions that make an object -/

/-- What is left of `s` when its uppermost `n` words have been replaced by the address `a` of the new
    object `o`: the words below were rewritten by the collection, if there was one, and `heap` is the
    heap it left. -/
structure Created (M : Machine) (s : State) (n length : ℕ) (relocate : Word → Word) (heap : Heap)
    (a : Word) (o : Obj) (s' : State) : Prop where
  collected : Collected M s relocate heap
  zone : M.heapZone a = true
  free : heap a = none
  state : ∃ stack slack touched allocs collections collectedAt, s' = { s with
    codePtr := s.codePtr + length, top := s.top + n - 1, stack := stack
    heap := Function.update heap a (some o), slack := slack, touched := touched
    allocs := allocs, collections := collections, collectedAt := collectedAt }
  value : s'.stack (s.top + n) = a
  below : ∀ i, s.top + n < i → i < M.maxStack → s'.stack i = relocate (s.stack i)

/-- The first collection of an instruction that makes an object of `ws` finds a null word: on the stack,
    down to the frame of `main`, or among `ws`. -/
def NullRoot (M : Machine) (s : State) (ws : List Word) : Prop :=
  (∃ i, s.top < i ∧ i < M.maxStack ∧ s.stack i = 0) ∨ 0 ∈ ws

/-- An instruction that makes the object `o` of the words `ws`, as the collection rewrote them, in place
    of the uppermost `n` words; it fails only when no memory is left or the first collection of the run
    finds a null word. -/
structure Makes {M : Machine} (E : Env M) (s : State) (handler : Exec Unit) (n length : ℕ)
    (ws : List Word) (o : (Word → Word) → Obj) : Prop where
  created : ∀ s', handler s = .ok () s' →
    ∃ relocate heap a, Created M s n length relocate heap a (o relocate) s'
  total : (∀ k h, (E.place k h).isSome = true) → (s.allocs = 0 → ¬ NullRoot M s ws) →
    ∃ s', handler s = .ok () s'

/-- The state in which an instruction calls the constructor with `m` words on the stack, in place of
    the `n` operands: beside `ws` these are odd. -/
structure Arranged (M : Machine) (s : State) (n m length : ℕ) (ws : List Word) (s₁ : State) : Prop where
  state : ∃ stack touched, s₁ = { s with
    codePtr := s.codePtr + length, top := s.top + n - m, stack := stack, touched := touched }
  words : ∀ i, s.top < i → i < M.maxStack → ∃ j, s₁.top < j ∧ j < M.maxStack ∧ s₁.stack j = s.stack i
  built : ∀ w ∈ ws, ∃ j, s₁.top < j ∧ j < M.maxStack ∧ s₁.stack j = w
  scanned : ∀ j, s₁.top < j → j < M.maxStack →
    (∃ i, s.top < i ∧ i < M.maxStack ∧ s₁.stack j = s.stack i) ∨ s₁.stack j ∈ ws ∨ s₁.stack j ≠ 0
  below : ∀ i, s.top + n < i → s₁.stack i = s.stack i

section Makes

variable {M : Machine} {E : Env M} {s s₁ u : State} {n m length : ℕ} {relocate : Word → Word}
  {heap : Heap} {a : Word} {slots : List ℤ} {ws : List Word}

theorem Makes.congr {handler : Exec Unit} {o o' : (Word → Word) → Obj}
    (h : Makes E s handler n length ws o)
    (ho : ∀ relocate heap, Collected M s relocate heap → o relocate = o' relocate) :
    Makes E s handler n length ws o' := by
  refine ⟨fun s' hs' => ?_, h.total⟩
  obtain ⟨relocate, heap, a, hc⟩ := h.created s' hs'
  exact ⟨relocate, heap, a, ho relocate heap hc.collected ▸ hc⟩

/-- The words the constructor used are popped, and the address of the object is pushed. -/
theorem Arranged.created (h : Arranged M s n m length ws s₁) (hroots : s.extraRoots = [])
    (hroom : 0 ≤ s.top + n ∧ s.top + n < M.maxStack)
    (hu : Allocated M (s₁.rooted slots) a relocate heap u) (o : Obj) (touched : ℤ) :
    ∃ s', (do
      popOps m
      pushOp M a) (u.filled a o touched) = .ok () s' ∧ Created M s n length relocate heap a o s' := by
  obtain ⟨slack, allocs, collections, collectedAt, rfl⟩ := hu.state
  obtain ⟨stack, touched₁, rfl⟩ := h.state
  have htop : s.top + n - m + m = s.top + n := by omega
  let words := rewritten M { s with top := s.top + n - m, stack := stack } relocate
  let popped : State := { s with
    codePtr := s.codePtr + length, top := s.top + n, stack := words
    heap := Function.update heap a (some o), slack := slack, touched := max touched (s.top + n)
    allocs := allocs, collections := collections, collectedAt := collectedAt }
  have hpop : popOps m (State.filled { s with
      codePtr := s.codePtr + length, top := s.top + n - m, stack := words, heap := heap, slack := slack
      extraRoots := slots.reverse.map .slot, allocs := allocs, collections := collections
      collectedAt := collectedAt, touched := touched₁ } a o touched) = .ok () popped := by
    rw [popOps]
    dsimp only [State.filled]
    rw [htop, ← hroots]
  refine ⟨{ popped with top := s.top + n - 1, stack := Function.update words (s.top + n) a },
    (exec_bind_of_ok hpop).trans (pushOp_eq (s := popped) a hroom), ?_⟩
  refine ⟨hu.collected.of_words rfl h.words, hu.zone, hu.free, ?_, ?_, fun i hi hM => ?_⟩
  · exact ⟨_, slack, _, allocs, collections, collectedAt, rfl⟩
  · exact Function.update_self ..
  · have hword : words i = relocate (stack i) := if_pos ⟨by dsimp only; omega, hM⟩
    exact ((Function.update_of_ne (ne_of_gt hi) ..).trans hword).trans (congrArg relocate (h.below i hi))

/-- An instruction that hands `m` words to the constructor `X`, which roots `slots` and makes `o` of
    the words it finds after the allocation. -/
structure Constructs {M : Machine} (E : Env M) (s : State) (handler : Exec Unit) (n m length : ℕ)
    (ws : List Word) (slots : List ℤ) (X : Exec Word) (o : (ℤ → Word) → Obj) (s₁ : State) : Prop where
  arranged : Arranged M s n m length ws s₁
  rooted : ∀ i ∈ slots, s₁.top < i ∧ i < M.maxStack
  roots : s.extraRoots = []
  room : 0 ≤ s.top + n ∧ s.top + n < M.maxStack
  low : -1 ≤ s₁.top
  handler_eq : handler s = (do
    let res ← X
    popOps m
    pushOp M res) s₁
  made : ∀ a u, alloc E (s₁.rooted slots) = .ok a u → u.extraRoots = slots.reverse.map .slot →
    ∃ touched, X s₁ = .ok a (u.filled a (o u.stack) touched)
  failed : ∀ e u, alloc E (s₁.rooted slots) = .error e u → X s₁ = .error e u

/-- The collector finds a null word when the instruction does. -/
theorem Constructs.null {handler : Exec Unit} {X : Exec Word} {o : (ℤ → Word) → Obj}
    (h : Constructs E s handler n m length ws slots X o s₁) :
    (s₁.rooted slots).allocs = 0 ∧ 0 ∈ rootWords M (s₁.rooted slots) ↔
      s.allocs = 0 ∧ NullRoot M s ws := by
  have hallocs : (s₁.rooted slots).allocs = s.allocs := by
    obtain ⟨stack, touched, rfl⟩ := h.arranged.state
    rfl
  have hfound : 0 ∈ rootWords M (s₁.rooted slots) ↔
      ∃ j, s₁.top < j ∧ j < M.maxStack ∧ s₁.stack j = 0 := by
    rw [mem_rootWords]
    constructor
    · rintro (hstack | ⟨i, hi, hword⟩ | ⟨id, hid⟩)
      · exact hstack
      · obtain ⟨j, hj, hji⟩ := List.mem_map.mp hi
        obtain rfl := RootRef.slot.inj hji
        obtain ⟨hlow, hhigh⟩ := h.rooted j (List.mem_reverse.mp hj)
        exact ⟨j, hlow, hhigh, hword⟩
      · obtain ⟨i, hi⟩ := State.rooted_slots _ hid
        cases hi
    · exact .inl
  rw [hallocs, hfound]
  refine and_congr_right fun _ => ⟨?_, ?_⟩
  · rintro ⟨j, hj, hM, hzero⟩
    rcases h.arranged.scanned j hj hM with ⟨i, hi, hiM, hsame⟩ | hbuilt | hodd
    · exact .inl ⟨i, hi, hiM, hsame.symm.trans hzero⟩
    · exact .inr (hzero ▸ hbuilt)
    · exact absurd hzero hodd
  · rintro (⟨i, hi, hM, hzero⟩ | hzero)
    · obtain ⟨j, hj, hjM, hsame⟩ := h.arranged.words i hi hM
      exact ⟨j, hj, hjM, hsame.trans hzero⟩
    · exact h.arranged.built 0 hzero

/-- The instruction goes through when the allocation does. -/
theorem Constructs.outcome {handler : Exec Unit} {X : Exec Word} {o : (ℤ → Word) → Obj}
    (h : Constructs E s handler n m length ws slots X o s₁) :
    (∃ relocate heap a s', handler s = .ok () s' ∧
      Created M s n length relocate heap a (o (rewritten M s₁ relocate)) s') ∨
    ∃ e u, alloc E (s₁.rooted slots) = .error e u ∧ handler s = .error e u := by
  cases halloc : alloc E (s₁.rooted slots) with
  | error e u => exact .inr ⟨e, u, rfl, by rw [h.handler_eq, exec_bind_of_error (h.failed e u halloc)]⟩
  | ok a u =>
    obtain ⟨relocate, heap, hu⟩ := alloc_allocated State.rooted_slots halloc
    have hwords : u.extraRoots = slots.reverse.map .slot ∧ u.stack = rewritten M s₁ relocate := by
      obtain ⟨slack, allocs, collections, collectedAt, rfl⟩ := hu.state
      exact ⟨rfl, rfl⟩
    obtain ⟨touched, hX⟩ := h.made a u halloc hwords.1
    obtain ⟨s', hs', hcreated⟩ := h.arranged.created h.roots h.room hu (o u.stack) touched
    rw [hwords.2] at hcreated
    refine .inl ⟨relocate, heap, a, s', ?_, hcreated⟩
    rw [h.handler_eq, exec_bind_of_ok hX]
    exact hs'

theorem Constructs.makes {handler : Exec Unit} {X : Exec Word} {o : (ℤ → Word) → Obj}
    (h : Constructs E s handler n m length ws slots X o s₁) :
    Makes E s handler n length ws fun relocate => o (rewritten M s₁ relocate) := by
  rcases h.outcome with ⟨relocate, heap, a, s', hrun, hcreated⟩ | ⟨e, u, halloc, hrun⟩
  · refine ⟨fun s'' hs'' => ?_, fun _ _ => ⟨s', hrun⟩⟩
    rw [hrun] at hs''
    cases hs''
    exact ⟨relocate, heap, a, hcreated⟩
  · refine ⟨fun s'' hs'' => ?_, fun hmemory hnull => ?_⟩
    · rw [hrun] at hs''
      cases hs''
    · obtain ⟨a, s', ha⟩ := alloc_total (s := s₁.rooted slots) hmemory h.low fun hfirst hzero => by
        obtain ⟨hstart, hroot⟩ := h.null.mp ⟨hfirst, hzero⟩
        exact hnull hstart hroot
      rw [halloc] at ha
      cases ha

end Makes

end LamaSM
