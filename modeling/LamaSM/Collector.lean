import LamaSM.Frames

/-! What an allocation and the collection before it leave of the heap.

    `Relocates` is a guarantee about reachable objects. The lemmas here turn it around: where an
    object of the new heap comes from, and which words of the old state lead to an object of the new
    one. -/

namespace LamaSM
open Lib

/-! ### Relocation -/

section Relocation

variable {zone : Word → Bool} {h h' : Heap} {roots : List Word} {forward : Word → Word}

/-- An object of the new heap is a reachable object of the old one, with its pointers rewritten. -/
theorem Relocates.origin (hr : Relocates zone h roots h' forward) {b : Word} {o' : Obj}
    (hb : h' b = some o') :
    ∃ a o, Live h roots a ∧ h a = some o ∧ forward a = b ∧ o' = o.map (relocateWord zone h forward) := by
  obtain ⟨a, hlive, rfl⟩ := hr.only b (by rw [hb]; rfl)
  have hobj : ∃ o, h a = some o := by
    cases hlive with
    | root _ hsome => exact Option.isSome_iff_exists.mp hsome
    | pointer _ _ _ hsome => exact Option.isSome_iff_exists.mp hsome
  obtain ⟨o, ho⟩ := hobj
  have hmoved := hr.moved a o hlive ho
  rw [hb] at hmoved
  exact ⟨a, o, hlive, ho, rfl, Option.some.inj hmoved⟩

/-- Where no object holds a pointer only the roots are reachable. -/
theorem Live.mem_roots (hflat : ∀ a o, h a = some o → o.pointers = []) {a : Word}
    (hlive : Live h roots a) : a ∈ roots := by
  cases hlive with
  | root hmem _ => exact hmem
  | pointer _ ho hmem _ =>
    rw [hflat _ _ ho] at hmem
    cases hmem

end Relocation

/-! ### Allocation -/

section Allocation

variable {M : Machine} {E : Env M} {s s' : State}

/-- The words the root scan visits. -/
theorem mem_rootWords {w : Word} : w ∈ rootWords M s ↔
    (∃ i, s.top < i ∧ i < M.maxStack ∧ s.stack i = w) ∨
      (∃ i, RootRef.slot i ∈ s.extraRoots ∧ s.stack i = w) ∨
      ∃ id, RootRef.cell id w ∈ s.extraRoots := by
  unfold rootWords
  rw [List.mem_append, List.mem_map, List.mem_map]
  refine or_congr ⟨?_, ?_⟩ ⟨?_, ?_⟩
  · rintro ⟨k, hk, rfl⟩
    have := List.mem_range.mp hk
    exact ⟨s.top + 1 + k, by omega, by omega, rfl⟩
  · rintro ⟨i, hlow, hhigh, rfl⟩
    refine ⟨(i - s.top - 1).toNat, List.mem_range.mpr (by omega), ?_⟩
    congr 1
    omega
  · rintro ⟨r, hr, rfl⟩
    cases r with
    | slot i => exact .inl ⟨i, hr, rfl⟩
    | cell id content => exact .inr ⟨id, hr⟩
  · rintro (⟨i, hi, rfl⟩ | ⟨id, hid⟩)
    · exact ⟨_, hi, rfl⟩
    · exact ⟨_, hid, rfl⟩

/-- The state after a collection that leaves `heap` and `slack` and moves objects by `forward`. -/
def State.collected (M : Machine) (s : State) (heap : Heap) (forward : Word → Word)
    (slack : Word → ℕ → UInt8) : State :=
  let relocate := relocateWord M.heapZone s.heap forward
  { s with
    heap := heap
    slack := slack
    stack := fun i => if s.top < i ∧ i < M.maxStack then relocate (s.stack i) else s.stack i
    extraRoots := s.extraRoots.map fun
      | .slot i => .slot i
      | .cell id content => .cell id (relocate content)
    collections := relocate :: s.collections
    collectedAt := s.allocs :: s.collectedAt }

theorem collectGarbage_ok {u : Unit} (h : collectGarbage E s = .ok u s') :
    s' = s ∨ ∃ heap forward, Relocates M.heapZone s.heap (rootWords M s) heap forward ∧
      s' = s.collected M heap forward (E.slack s.allocs) := by
  unfold collectGarbage at h
  split at h
  · cases h
  cases hc : E.collect s.allocs s.heap (rootWords M s) with
  | none =>
    rw [hc] at h
    cases h
    exact .inl rfl
  | some c =>
    rw [hc] at h
    dsimp only at h
    split at h
    · cases h
    · cases h
      exact .inr ⟨c.1, c.2, E.collect_relocates _ _ _ _ _ hc, rfl⟩

theorem alloc_ok {a : Word} (h : alloc E s = .ok a s') :
    ∃ s₁, collectGarbage E s = .ok () s₁ ∧ M.heapZone a = true ∧ s₁.heap a = none ∧
      s' = { s₁ with allocs := s₁.allocs + 1, slack := Function.update s₁.slack a fun _ => 0 } := by
  obtain ⟨_, s₁, hc, h⟩ := exec_bind_ok.mp h
  cases hp : E.place s₁.allocs s₁.heap with
  | none =>
    rw [hp] at h
    cases h
  | some a' =>
    rw [hp] at h
    cases h
    obtain ⟨hzone, hfree⟩ := E.place_free _ _ _ hp
    exact ⟨s₁, hc, hzone, hfree, rfl⟩

/-- `Bstring` roots the pointer to the characters, which no collection moves, around the
    allocation. -/
theorem Bstring_ok {id : ℕ} {bytes : List UInt8} {a : Word}
    (h : Bstring E id bytes s = .ok a s') :
    ∃ s₁, collectGarbage E { s with extraRoots := .cell id 1 :: s.extraRoots } = .ok () s₁ ∧
      M.heapZone a = true ∧ s₁.heap a = none ∧
      s' = { s₁ with
        allocs := s₁.allocs + 1
        slack := Function.update s₁.slack a fun _ => 0
        extraRoots := s₁.extraRoots.tail
        heap := Function.update s₁.heap a (some (.string (bytes ++ [0]))) } := by
  simp only [Bstring, exec_bind_ok, exec_pure_ok] at h
  obtain ⟨_, s₁, hpush, a', s₂, halloc, _, s₃, hpop, _, s₄, hset, rfl, rfl⟩ := h
  unfold pushExtraRoot at hpush
  split at hpush
  · cases hpush
  cases hpush
  obtain ⟨s₅, hc, hzone, hfree, rfl⟩ := alloc_ok halloc
  cases hset
  refine ⟨s₅, hc, hzone, hfree, ?_⟩
  unfold popExtraRoot at hpop
  dsimp only at hpop
  cases hroots : s₅.extraRoots with
  | nil =>
    rw [hroots] at hpop
    cases hpop
  | cons r rest =>
    rw [hroots] at hpop
    dsimp only at hpop
    split at hpop
    · cases hpop
      rw [List.tail_cons]
    · cases hpop

end Allocation

/-! ### An environment that collects -/

/-- The object has no pointers to follow. -/
def Obj.isString : Obj → Bool
  | .string _ => true
  | _ => false

theorem Obj.map_of_isString {o : Obj} (h : o.isString = true) (f : Word → Word) :
    o.pointers = [] ∧ o.map f = o := by
  cases o with
  | string contents => exact ⟨rfl, rfl⟩
  | _ => cases h

/-- What `Env.moving` makes of the heap. -/
def movedHeap (h : Heap) (live : List Word) (shift : Word) : Heap := fun b =>
  if live.contains (b - shift) then h (b - shift) else none

/-- The rooted objects can be moved by `shift`: they are strings and the new addresses are free. -/
def movable (zone : Word → Bool) (h : Heap) (live : List Word) (shift : Word) : Bool :=
  live.all fun r => (h r).all Obj.isString && zone (r + shift) && (h (r + shift)).isNone

theorem movable_mem {zone : Word → Bool} {h : Heap} {live : List Word} {shift r : Word}
    (hm : movable zone h live shift = true) (hr : r ∈ live) :
    (∀ o, h r = some o → o.isString = true) ∧ zone (r + shift) = true ∧ h (r + shift) = none := by
  have hall := List.all_eq_true.mp hm r hr
  rw [Bool.and_eq_true, Bool.and_eq_true, Option.isNone_iff_eq_none] at hall
  exact ⟨fun o ho => by simpa [ho] using hall.1.1, hall.1.2, hall.2⟩

theorem relocates_movedHeap {zone : Word → Bool} {h : Heap} {roots : List Word} {shift : Word}
    (hm : movable zone h (roots.filter fun r => (h r).isSome) shift = true) :
    Relocates zone h roots (movedHeap h (roots.filter fun r => (h r).isSome) shift)
      (fun a => a + shift) := by
  have hstring : ∀ r ∈ roots.filter fun r => (h r).isSome, ∀ o, h r = some o → o.isString = true :=
    fun r hr => (movable_mem hm hr).1
  have hlive : ∀ a, Live h roots a → a ∈ roots.filter fun r => (h r).isSome := by
    intro a ha
    induction ha with
    | root hmem hsome => exact List.mem_filter.mpr ⟨hmem, hsome⟩
    | pointer _ ho hmem _ ih =>
      rw [(Obj.map_of_isString (hstring _ ih _ ho) id).1] at hmem
      cases hmem
  refine ⟨fun a o ha ho => ?_, fun b hb => ?_, fun a b _ _ hab => ?_, fun b hb => ?_, fun a ha => ?_⟩
  · have hmem := hlive a ha
    rw [(Obj.map_of_isString (hstring a hmem o ho) _).2]
    simp only [movedHeap, BitVec.add_sub_cancel]
    rw [if_pos (List.contains_iff_mem.mpr hmem), ho]
  · unfold movedHeap at hb
    split at hb
    · rename_i hmem
      obtain ⟨hroot, hsome⟩ := List.mem_filter.mp (List.contains_iff_mem.mp hmem)
      exact ⟨b - shift, .root hroot hsome, BitVec.sub_add_cancel ..⟩
    · cases hb
  · have hsub := congrArg (· - shift) hab
    simpa only [BitVec.add_sub_cancel] using hsub
  · unfold movedHeap at hb
    split at hb
    · rename_i hmem
      have hzone := (movable_mem hm (List.contains_iff_mem.mp hmem)).2.1
      rwa [BitVec.sub_add_cancel] at hzone
    · cases hb
  · unfold movedHeap
    split
    · rename_i hmem
      have hfree := (movable_mem hm (List.contains_iff_mem.mp hmem)).2.2
      rw [BitVec.sub_add_cancel] at hfree
      rw [hfree] at ha
      cases ha
    · rfl

/-- As `E`, with a collection at allocation `n` that moves the rooted objects by `shift`, when it
    can. -/
def Env.moving {M : Machine} (E : Env M) (n : ℕ) (shift : Word) : Env M where
  input := E.input
  initStack := E.initStack
  printValue := E.printValue
  place := E.place
  collect := fun k h roots =>
    if k = n ∧ movable M.heapZone h (roots.filter fun r => (h r).isSome) shift then
      some (movedHeap h (roots.filter fun r => (h r).isSome) shift, fun a => a + shift)
    else none
  slack := E.slack
  place_free := E.place_free
  collect_relocates := fun k h roots h' forward hc => by
    split at hc
    · rename_i hcond
      cases hc
      exact relocates_movedHeap hcond.2
    · cases hc

end LamaSM
