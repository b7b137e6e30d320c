import LamaSM.Collector

/-! Words that may lie in the scanned part of the stack.

    A word is `Valid` when it is no heap address or the address of an object that is there. A state
    with the values `ws` in flight (read by the handler, not yet pushed) is `Held` when every scanned
    word, every pointer inside an object and every value in flight is valid. The rules below say
    which operations of the runtime keep this; a collection keeps it for everything but the values
    in flight. -/

namespace LamaSM
open Lib

/-- The word is a boxed integer, the address of an object of the heap, or an address the heap never
    comes to use. -/
def Valid (M : Machine) (h : Heap) (w : Word) : Prop := M.heapZone w = true → (h w).isSome = true

/-- Objects lie in the heap and their pointers are valid. -/
structure HeapValid (M : Machine) (h : Heap) : Prop where
  zone : ∀ a, (h a).isSome = true → M.heapZone a = true
  pointers : ∀ a o, h a = some o → ∀ w ∈ o.pointers, Valid M h w

/-- Every word strictly above `__gc_stack_top` is valid. -/
def RootsValid (M : Machine) (s : State) : Prop :=
  ∀ i, s.top < i → i < M.maxStack → Valid M s.heap (s.stack i)

/-- The scanned words, the heap and the values in flight are valid. -/
structure Held (M : Machine) (ws : List Word) (s : State) : Prop where
  roots : RootsValid M s
  heap : HeapValid M s.heap
  flight : ∀ w ∈ ws, Valid M s.heap w

section Words

variable {M : Machine} {h : Heap} {w : Word}

theorem valid_of_zone (hz : M.heapZone w = false) : Valid M h w := fun h => by
  rw [hz] at h
  cases h

theorem valid_of_odd (hw : isBoxedInt w = true) : Valid M h w := by
  refine valid_of_zone ?_
  by_contra hz
  have heven := M.zone_even w (by simpa using hz)
  simp [isBoxedInt, heven] at hw

theorem valid_of_object {o : Obj} (ho : h w = some o) : Valid M h w := fun _ => by
  rw [ho]
  rfl

/-- Storing an object keeps words valid. -/
theorem Valid.update (hw : Valid M h w) (a : Word) (o : Obj) :
    Valid M (Function.update h a (some o)) w := by
  intro hz
  by_cases ha : w = a
  · rw [ha, Function.update_self]
    rfl
  · rw [Function.update_of_ne ha]
    exact hw hz

theorem HeapValid.update (hh : HeapValid M h) {a : Word} {o : Obj} (ha : M.heapZone a = true)
    (ho : ∀ w ∈ o.pointers, Valid M h w) : HeapValid M (Function.update h a (some o)) := by
  refine ⟨fun b hb => ?_, fun b o' hb w hw => ?_⟩
  · by_cases hba : b = a
    · rwa [hba]
    · rw [Function.update_of_ne hba] at hb
      exact hh.zone b hb
  · by_cases hba : b = a
    · rw [hba, Function.update_self] at hb
      cases hb
      exact (ho w hw).update a o
    · rw [Function.update_of_ne hba] at hb
      exact (hh.pointers b o' hb w hw).update a o

/-- After a collection the old word of a root is replaced by a valid one. -/
theorem Relocates.valid {h' : Heap} {roots : List Word} {forward : Word → Word}
    (hr : Relocates M.heapZone h roots h' forward) (hlive : (h w).isSome = true → Live h roots w)
    (hw : Valid M h w) : Valid M h' (relocateWord M.heapZone h forward w) := by
  unfold relocateWord
  by_cases hz : M.heapZone w = true
  · have hsome := hw hz
    obtain ⟨o, ho⟩ := Option.isSome_iff_exists.mp hsome
    rw [if_pos (by simp [hz, hsome])]
    exact valid_of_object (hr.moved w o (hlive hsome) ho)
  · rw [if_neg (by simp [hz])]
    exact valid_of_zone (by simpa using hz)

theorem Obj.pointers_map (f : Word → Word) (o : Obj) : (o.map f).pointers = o.pointers.map f := by
  cases o <;> rfl

theorem Relocates.heapValid {h' : Heap} {roots : List Word} {forward : Word → Word}
    (hr : Relocates M.heapZone h roots h' forward) (hh : HeapValid M h) : HeapValid M h' := by
  refine ⟨hr.inZone, fun b o' hb w hw => ?_⟩
  obtain ⟨a, o, hlive, ho, -, rfl⟩ := hr.origin hb
  rw [Obj.pointers_map] at hw
  obtain ⟨p, hp, rfl⟩ := List.mem_map.mp hw
  exact hr.valid (fun hsome => .pointer hlive ho hp hsome) (hh.pointers a o ho p hp)

end Words

/-! ### Operations -/

section Operations

variable {M : Machine} {E : Env M} {α : Type} {s s' : State} {ws ws' : List Word} {w : Word}

/-- The program keeps what is scanned valid, with `give a` in flight once it returns `a`. -/
def Holds (M : Machine) (ws : List Word) (x : Exec α) (give : α → List Word) : Prop :=
  Triple (Held M ws) x (fun a => Held M (give a)) fun _ => True

theorem Held.mono (h : Held M ws s) (hws : ∀ w ∈ ws', w ∈ ws) : Held M ws' s :=
  ⟨h.roots, h.heap, fun w hw => h.flight w (hws w hw)⟩

theorem Held.cons (h : Held M ws s) (hw : Valid M s.heap w) : Held M (w :: ws) s :=
  ⟨h.roots, h.heap, fun v hv => (List.mem_cons.mp hv).elim (fun he => he ▸ hw) (h.flight v)⟩

/-- The two states agree on the top, the stack and the heap. -/
structure SameRoots (s s' : State) : Prop where
  top : s'.top = s.top
  stack : s'.stack = s.stack
  heap : s'.heap = s.heap

theorem Held.same (h : Held M ws s) (hs : SameRoots s s') : Held M ws s' := by
  obtain ⟨htop, hstack, hheap⟩ := hs
  refine ⟨fun i hi hM => ?_, ?_, fun w hw => ?_⟩
  · rw [hstack, hheap]
    exact h.roots i (htop ▸ hi) hM
  · rw [hheap]
    exact h.heap
  · rw [hheap]
    exact h.flight w hw

theorem holds_of_ok {x : Exec α} {give : α → List Word}
    (h : ∀ {s s' : State} {a : α}, Held M ws s → x s = .ok a s' → Held M (give a) s') :
    Holds M ws x give := by
  intro s hs
  cases hx : x s with
  | ok a s' => exact h hs hx
  | error e s' => trivial

theorem Holds.ok {x : Exec α} {give : α → List Word} {a : α} (h : Holds M ws x give)
    (hs : Held M ws s) (hx : x s = .ok a s') : Held M (give a) s' := by
  have hpost := h s hs
  rwa [hx] at hpost

theorem Holds.bind {β : Type} {x : Exec α} {f : α → Exec β} {give : α → List Word}
    {give' : β → List Word} (hx : Holds M ws x give) (hf : ∀ a, Holds M (give a) (f a) give') :
    Holds M ws (x >>= f) give' := Triple.bind hx hf

theorem holds_same {x : Exec α} (h : ∀ {s s' : State} {a : α}, x s = .ok a s' → SameRoots s s') :
    Holds M ws x fun _ => ws := holds_of_ok fun hs hx => hs.same (h hx)

theorem holds_throw {e : Fault} {give : α → List Word} : Holds M ws (throw e : Exec α) give :=
  triple_throw fun _ _ => trivial

theorem holds_pure {a : α} {give : α → List Word} (h : ∀ w ∈ give a, w ∈ ws) :
    Holds M ws (pure a : Exec α) give := triple_pure fun _ hs => hs.mono h

theorem Held.ignore (h : Held M ws s) : Held M [] s := h.mono fun _ hw => nomatch hw

/-! ### Slots -/

theorem holds_peekOp : Holds M ws (peekOp M) fun w => w :: ws := by
  refine holds_of_ok fun hs hx => ?_
  obtain ⟨rfl, rfl, -, hM⟩ := peekOp_ok hx
  exact (hs.cons (hs.roots _ (Int.lt_succ _) hM)).same ⟨rfl, rfl, rfl⟩

theorem holds_popOps (n : ℕ) : Holds M ws (popOps n) fun _ => ws := by
  refine holds_of_ok fun hs hx => ?_
  cases hx
  exact ⟨fun i hi hM => hs.roots i (by dsimp only at hi; omega) hM, hs.heap, hs.flight⟩

theorem holds_popOp : Holds M ws popOp fun _ => ws := holds_popOps 1

theorem Held.write (hs : Held M ws s) (hw : Valid M s.heap w) {i : ℤ} {u : Unit}
    (hx : writeSlot M i w s = .ok u s') : Held M ws s' := by
  obtain ⟨rfl, -⟩ := writeSlot_ok hx
  refine ⟨fun j hj hM => ?_, hs.heap, hs.flight⟩
  dsimp only at hj ⊢
  by_cases hji : j = i
  · rw [hji, Function.update_self]
    exact hw
  · rw [Function.update_of_ne hji]
    exact hs.roots j hj hM

theorem Held.push (hs : Held M ws s) (hw : Valid M s.heap w) {u : Unit}
    (hx : pushOp M w s = .ok u s') : Held M ws s' := by
  obtain ⟨rfl, -⟩ := pushOp_ok hx
  refine ⟨fun j hj hM => ?_, hs.heap, hs.flight⟩
  dsimp only at hj ⊢
  by_cases hji : j = s.top
  · rw [hji, Function.update_self]
    exact hw
  · rw [Function.update_of_ne hji]
    exact hs.roots j (by omega) hM

theorem holds_pushOp (hw : w ∈ ws) : Holds M ws (pushOp M w) fun _ => ws :=
  holds_of_ok fun hs hx => hs.push (hs.flight w hw) hx

/-- A word that is no heap address can be pushed at any time. -/
theorem holds_pushOp_int (hw : isBoxedInt w = true) : Holds M ws (pushOp M w) fun _ => ws :=
  holds_of_ok fun hs hx => hs.push (valid_of_odd hw) hx

theorem holds_writeSlot {i : ℤ} (hw : w ∈ ws) : Holds M ws (writeSlot M i w) fun _ => ws :=
  holds_of_ok fun hs hx => hs.write (hs.flight w hw) hx

/-- `std::reverse` of scanned slots. -/
theorem Held.reverse (hs : Held M ws s) {n : ℕ} {u : Unit}
    (hx : reverseSlots M (s.top + 1) n s = .ok u s') : Held M ws s' := by
  unfold reverseSlots at hx
  split_ifs at hx with h1 h2 h3
  · cases hx
    exact hs
  · cases hx
    refine ⟨fun i hi hM => ?_, hs.heap, hs.flight⟩
    dsimp only at hi ⊢
    split
    · exact hs.roots _ (by omega) (by omega)
    · exact hs.roots i hi hM

/-! ### Objects -/

theorem Held.setObj (hs : Held M ws s) {a : Word} {o : Obj} (ha : M.heapZone a = true)
    (ho : ∀ w ∈ o.pointers, Valid M s.heap w) {u : Unit} (hx : setObj a o s = .ok u s') :
    Held M (a :: ws) s' := by
  cases hx
  have hkeep : Held M ws { s with heap := Function.update s.heap a (some o) } :=
    ⟨fun i hi hM => (hs.roots i hi hM).update a o, hs.heap.update ha ho,
      fun w hw => (hs.flight w hw).update a o⟩
  exact hkeep.cons (valid_of_object (Function.update_self ..))

/-- A replaced element is the only new pointer. -/
theorem Obj.put_pointers {o o' : Obj} {i : ℤ} {v : Word} (h : o.put i v = some o') :
    ∀ w ∈ o'.pointers, w ∈ o.pointers ∨ w = v := by
  unfold Obj.put at h
  split at h
  · cases h
  cases o with
  | string contents =>
    dsimp only at h
    split at h
    · cases h
      exact fun w hw => nomatch hw
    · cases h
  | array elems =>
    dsimp only at h
    split at h
    · cases h
      exact fun w hw => List.mem_or_eq_of_mem_set hw
    · cases h
  | sexp tag fields =>
    dsimp only at h
    split at h
    · cases h
      exact fun w hw => List.mem_or_eq_of_mem_set hw
    · cases h
  | closure entry captured =>
    dsimp only at h
    split at h
    · cases h
      exact fun w hw => .inl hw
    · split at h
      · cases h
        exact fun w hw => List.mem_or_eq_of_mem_set hw
      · cases h

/-- An element of an object is a pointer, a boxed character, or the entry of a closure. -/
theorem Obj.elem_cases {o : Obj} {i : ℤ} {w : Word} (h : o.elem i = some w) :
    w ∈ o.pointers ∨ isBoxedInt w = true ∨ ∃ captured, i = 0 ∧ o = .closure w captured := by
  unfold Obj.elem at h
  split at h
  · cases h
  · rename_i hi
    cases o with
    | string contents =>
      obtain ⟨c, -, rfl⟩ := Option.map_eq_some_iff.mp h
      exact .inr (.inl (isBoxedInt_boxInt _))
    | array elems => exact .inl (List.mem_of_getElem? h)
    | sexp tag fields => exact .inl (List.mem_of_getElem? h)
    | closure entry captured =>
      dsimp only at h
      cases hn : i.toNat with
      | zero =>
        rw [hn] at h
        cases h
        exact .inr (.inr ⟨captured, by omega, rfl⟩)
      | succ k =>
        rw [hn, List.getElem?_cons_succ] at h
        exact .inl (List.mem_of_getElem? h)

/-! ### Allocations -/

theorem pushExtraRoot_same {p : RootRef} {u : Unit} (h : pushExtraRoot p s = .ok u s') :
    SameRoots s s' := by
  unfold pushExtraRoot at h
  split at h
  · cases h
  · cases h
    exact ⟨rfl, rfl, rfl⟩

theorem popExtraRoot_same {p : RootRef} {u : Unit} (h : popExtraRoot p s = .ok u s') :
    SameRoots s s' := by
  unfold popExtraRoot at h
  split at h
  · cases h
  · split at h
    · cases h
      exact ⟨rfl, rfl, rfl⟩
    · cases h

theorem SameRoots.trans {s'' : State} (h : SameRoots s s') (h' : SameRoots s' s'') :
    SameRoots s s'' := ⟨h'.top.trans h.top, h'.stack.trans h.stack, h'.heap.trans h.heap⟩

theorem pushExtraRoots_same : ∀ {ps : List RootRef} {s s' : State} {u : Unit},
    pushExtraRoots ps s = .ok u s' → SameRoots s s'
  | [], _, _, _, h => by cases h; exact ⟨rfl, rfl, rfl⟩
  | p :: ps, _, _, _, h => by
    obtain ⟨_, s₁, hp, h⟩ := exec_bind_ok.mp h
    exact (pushExtraRoot_same hp).trans (pushExtraRoots_same h)

theorem popExtraRoots_same : ∀ {ps : List RootRef} {s s' : State} {u : Unit},
    popExtraRoots ps s = .ok u s' → SameRoots s s'
  | [], _, _, _, h => by cases h; exact ⟨rfl, rfl, rfl⟩
  | p :: ps, _, _, _, h => by
    obtain ⟨_, s₁, hp, h⟩ := exec_bind_ok.mp h
    exact (popExtraRoot_same hp).trans (popExtraRoots_same h)

/-- A collection keeps the scanned words and the heap valid, not the words in flight. -/
theorem Held.collect (hs : Held M ws s) {u : Unit} (h : collectGarbage E s = .ok u s') :
    Held M [] s' ∧ s'.top = s.top := by
  rcases collectGarbage_ok h with rfl | ⟨heap, forward, hr, rfl⟩
  · exact ⟨hs.ignore, rfl⟩
  · refine ⟨⟨fun i hi hM => ?_, hr.heapValid hs.heap, fun _ hw => (nomatch hw)⟩, rfl⟩
    have hi : s.top < i := hi
    show Valid M heap (if s.top < i ∧ i < M.maxStack then relocateWord M.heapZone s.heap forward
      (s.stack i) else s.stack i)
    rw [if_pos ⟨hi, hM⟩]
    exact hr.valid (.root (mem_rootWords.mpr (.inl ⟨i, hi, hM, rfl⟩))) (hs.roots i hi hM)

/-- The new object has no contents yet. -/
theorem Held.alloc (hs : Held M ws s) {a : Word} (h : alloc E s = .ok a s') :
    Held M [] s' ∧ s'.top = s.top ∧ M.heapZone a = true := by
  obtain ⟨s₁, hc, hzone, -, rfl⟩ := alloc_ok h
  obtain ⟨hs₁, htop⟩ := hs.collect hc
  exact ⟨hs₁.same ⟨rfl, rfl, rfl⟩, htop, hzone⟩

theorem readArgs_same : ∀ {is : List ℤ} {s s' : State} {words : List Word},
    readArgs M is s = .ok words s' → SameRoots s s'
  | [], _, _, _, h => by cases h; exact ⟨rfl, rfl, rfl⟩
  | i :: is, s, s', words, h => by
    simp only [readArgs, exec_bind_ok, exec_pure_ok] at h
    obtain ⟨w, s₁, hread, ws', s₂, hrest, rfl, rfl⟩ := h
    obtain ⟨rfl, -, -, -⟩ := readOperand_ok hread
    have hs₁ : SameRoots s { s with touched := max s.touched i } := ⟨rfl, rfl, rfl⟩
    exact hs₁.trans (readArgs_same hrest)

/-- Words read from scanned slots are valid. -/
theorem Held.readArgs : ∀ {is : List ℤ} {s s' : State} {ws words : List Word}, Held M ws s →
    (∀ i ∈ is, s.top < i) → readArgs M is s = .ok words s' →
    SameRoots s s' ∧ ∀ w ∈ words, Valid M s.heap w
  | [], _, _, _, _, _, _, h => by
    cases h
    exact ⟨⟨rfl, rfl, rfl⟩, fun _ hw => (nomatch hw)⟩
  | i :: is, s, s', ws, words, hs, hi, h => by
    refine ⟨readArgs_same h, ?_⟩
    simp only [LamaSM.readArgs, exec_bind_ok, exec_pure_ok] at h
    obtain ⟨w, s₁, hread, ws', s₂, hrest, rfl, rfl⟩ := h
    obtain ⟨rfl, rfl, -, hM⟩ := readOperand_ok hread
    have hs₁ : SameRoots s { s with touched := max s.touched i } := ⟨rfl, rfl, rfl⟩
    obtain ⟨-, hvalid⟩ := (hs.same hs₁).readArgs
      (fun j hj => hi j (List.mem_cons_of_mem i hj)) hrest
    intro w hw
    rcases List.mem_cons.mp hw with rfl | hw
    · exact hs.roots i (hi i List.mem_cons_self) hM
    · exact hvalid w hw

theorem argSlots_gt {args t : ℤ} {i n : ℕ} (h : t < args + i) : ∀ j ∈ argSlots args i n, t < j := by
  intro j hj
  obtain ⟨k, -, rfl⟩ := List.mem_map.mp hj
  omega

theorem Held.Bstring (hs : Held M ws s) {id : ℕ} {bytes : List UInt8} {r : Word}
    (h : Bstring E id bytes s = .ok r s') : Held M [r] s' := by
  obtain ⟨s₁, hc, hzone, -, rfl⟩ := Bstring_ok h
  have hroot : SameRoots s { s with extraRoots := .cell id 1 :: s.extraRoots } := ⟨rfl, rfl, rfl⟩
  obtain ⟨hs₁, -⟩ := (hs.same hroot).collect hc
  have hset : Held M [r] { s₁ with heap := Function.update s₁.heap r (some (.string (bytes ++ [0]))) } :=
    Held.setObj (o := .string (bytes ++ [0])) hs₁ hzone (fun _ hw => (nomatch hw)) rfl
  exact hset.same ⟨rfl, rfl, rfl⟩

theorem Held.Lstring (hs : Held M ws s) {ref : RootRef} {arg r : Word}
    (h : Lstring E ref arg s = .ok r s') : Held M [r] s' := by
  simp only [LamaSM.Lstring, exec_bind_ok, exec_get_ok] at h
  obtain ⟨s₀, s₁, ⟨hget, hs₁⟩, h⟩ := h
  rw [hget, hs₁] at h
  cases hp : E.printValue s.heap s.slack arg with
  | error e =>
    rw [hp] at h
    cases h
  | ok content =>
    rw [hp] at h
    simp only [exec_bind_ok, exec_pure_ok] at h
    obtain ⟨_, s₂, hpush, r', s₃, hb, _, s₄, hpop, rfl, rfl⟩ := h
    exact ((hs.same (pushExtraRoot_same hpush)).Bstring hb).same (popExtraRoot_same hpop)

theorem Held.Barray (hs : Held M ws s) {args : ℤ} {n : ℕ} (hargs : s.top < args) {r : Word}
    (h : Barray E args n s = .ok r s') : Held M [r] s' := by
  simp only [LamaSM.Barray, exec_bind_ok, exec_pure_ok] at h
  obtain ⟨_, s₁, hpush, r', s₂, halloc, elems, s₃, hread, _, s₄, hpop, _, s₅, hset, rfl, rfl⟩ := h
  have hpush := pushExtraRoots_same hpush
  obtain ⟨hs₂, htop, hzone⟩ := (hs.same hpush).alloc halloc
  rw [hpush.top] at htop
  obtain ⟨hread, helems⟩ := hs₂.readArgs (argSlots_gt (by omega)) hread
  have hpop := popExtraRoots_same hpop
  refine ((hs₂.same hread).same hpop).setObj hzone (fun w hw => ?_) hset
  rw [hpop.heap, hread.heap]
  exact helems w hw

theorem Held.Bclosure (hs : Held M ws s) {args : ℤ} {n : ℕ} (hargs : s.top < args) {r : Word}
    (h : Bclosure E args n s = .ok r s') : Held M [r] s' := by
  simp only [LamaSM.Bclosure, exec_bind_ok, exec_pure_ok] at h
  obtain ⟨_, s₁, hpush, r', s₂, halloc, entry, s₃, hentry, captured, s₄, hread, _, s₅, hpop, _, s₆,
    hset, rfl, rfl⟩ := h
  have hpush := pushExtraRoots_same hpush
  obtain ⟨hs₂, htop, hzone⟩ := (hs.same hpush).alloc halloc
  rw [hpush.top] at htop
  obtain ⟨rfl, -, -⟩ := readOperand_ok hentry
  have htouch : SameRoots s₂ { s₂ with touched := max s₂.touched args } := ⟨rfl, rfl, rfl⟩
  have hslots : ∀ j ∈ argSlots args 1 n, s₂.top < j := argSlots_gt (by omega)
  obtain ⟨hread, hcaptured⟩ := (hs₂.same htouch).readArgs hslots hread
  have hpop := popExtraRoots_same hpop
  refine (((hs₂.same htouch).same hread).same hpop).setObj hzone (fun w hw => ?_) hset
  rw [hpop.heap, hread.heap]
  exact hcaptured w hw

theorem Held.Bsexp (hs : Held M ws s) {args : ℤ} {n : ℕ} (hargs : s.top < args) {r : Word}
    (h : Bsexp E args n s = .ok r s') : Held M [r] s' := by
  simp only [LamaSM.Bsexp, exec_bind_ok] at h
  obtain ⟨_, s₁, hpush, r', s₂, halloc, h⟩ := h
  have hpush := pushExtraRoots_same hpush
  obtain ⟨hs₂, htop, hzone⟩ := (hs.same hpush).alloc halloc
  rw [hpush.top] at htop
  split at h
  · cases h
  simp only [exec_bind_ok, exec_pure_ok] at h
  obtain ⟨fields, s₃, hread, tag, s₄, htag, _, s₅, hpop, _, s₆, hset, rfl, rfl⟩ := h
  obtain ⟨hread, hfields⟩ := hs₂.readArgs (argSlots_gt (by omega)) hread
  obtain ⟨rfl, -, -⟩ := readOperand_ok htag
  have htouch : SameRoots s₃ { s₃ with touched := max s₃.touched args } := ⟨rfl, rfl, rfl⟩
  have hpop := popExtraRoots_same hpop
  refine (((hs₂.same hread).same htouch).same hpop).setObj hzone (fun w hw => ?_) hset
  rw [hpop.heap, hread.heap]
  exact hfields w (List.mem_reverse.mp hw)

end Operations

end LamaSM
