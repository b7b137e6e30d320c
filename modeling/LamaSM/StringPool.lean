import LamaSM.Collector
import Mathlib.Data.List.Nodup

/-! The string pool the constructor of `FrameStack` builds at the bottom of the stack.

    A turn of the loop stores the new string at `__gc_stack_top` itself, after the decrement, and the
    root scan begins one word above. So while the next string is allocated the last one is not
    rooted: a collection there drops it. `PoolState` is the invariant of the loop; what is rooted is
    kept apart in `Filled`, because it holds only as long as no such collection came. -/

namespace LamaSM
open Lib

/-- From offset `i` on the string table is a row of NUL-terminated strings, with these start offsets
    and characters. -/
inductive StringTable (bf : Bytefile) : ℕ → List (ℕ × List UInt8) → Prop
  | nil {i : ℕ} : (i : ℤ) = bf.stringtabSize → StringTable bf i []
  | cons {i : ℕ} {string : List UInt8} {rest : List (ℕ × List UInt8)} :
      (i : ℤ) < bf.stringtabSize → bf.cString (bf.stringPtr + i) = .ok string →
      StringTable bf (i + string.length + 1) rest → StringTable bf i ((i, string) :: rest)

theorem StringTable.le {bf : Bytefile} {i : ℕ} {l : List (ℕ × List UInt8)} (h : StringTable bf i l) :
    (i : ℤ) ≤ bf.stringtabSize := by
  cases h with
  | nil hi => exact Int.le_of_eq hi
  | cons hi _ _ => exact Int.le_of_lt hi

/-- The object `Bstring` makes of these characters. -/
def cStringObj (string : List UInt8) : Obj := .string (string ++ [0])

theorem cStringObj_inj {a b : List UInt8} (h : cStringObj a = cStringObj b) : a = b := by
  simpa [cStringObj] using h

section Pool

variable (M : Machine)

/-- The slot of the j-th string. -/
def poolSlot (j : ℕ) : ℤ := M.maxStack - 1 - j

/-- The j-th word below `__gc_stack_bottom` is the address of a live string with the characters of
    the j-th entry, and `get_string_ptr` finds it under the entry's start offset. -/
def PoolRight (l : List (ℕ × List UInt8)) (s : State) : Prop :=
  ∀ j start string, l[j]? = some (start, string) →
    s.heap (s.stack (poolSlot M j)) = some (cStringObj string) ∧
      getStringPtr M start s = .ok (s.stack (poolSlot M j)) s

/-- The loop has dealt with the entries `done`. -/
structure PoolState (done : List (ℕ × List UInt8)) (s : State) : Prop where
  top : s.top = M.maxStack - done.length
  room : done.length ≤ M.maxStack
  counter : s.stringCounter = done.length
  allocs : s.allocs = done.length
  noRoots : s.extraRoots = []
  keys : ∀ j e, done[j]? = some e → s.stringsMap.lookup e.1 = some j
  objects : ∀ a o, s.heap a = some o → M.heapZone a ∧ ∃ e ∈ done, o = cStringObj e.2

/-- Every string is where the pool has it. -/
def Filled (done : List (ℕ × List UInt8)) (s : State) : Prop :=
  ∀ j e, done[j]? = some e → s.heap (s.stack (poolSlot M j)) = some (cStringObj e.2)

/-- The characters of some entry are not on the heap. -/
def Lost (done : List (ℕ × List UInt8)) (s : State) : Prop :=
  ∃ e ∈ done, ∀ a, s.heap a ≠ some (cStringObj e.2)

/-- No allocation but the first began with a collection. -/
def Undisturbed (s : State) : Prop := ∀ k ∈ s.collectedAt, k = 0

end Pool

/-! ### Collections while the pool is built -/

section Collection

variable {M : Machine} {E : Env M} {done : List (ℕ × List UInt8)} {s s' : State}

theorem Filled.not_lost (hfilled : Filled M done s) : ¬ Lost done s := by
  rintro ⟨e, he, hnone⟩
  obtain ⟨j, hj⟩ := List.mem_iff_getElem?.mp he
  exact hnone _ (hfilled j e hj)

/-- The objects a collection keeps are the strings in the scanned part of the pool. -/
theorem PoolState.kept (hp : PoolState M done s) {id : ℕ} {heap : Heap} {forward : Word → Word}
    (hr : Relocates M.heapZone s.heap
      (rootWords M { s with extraRoots := .cell id 1 :: s.extraRoots }) heap forward)
    {b : Word} {o : Obj} (hb : heap b = some o) :
    M.heapZone b ∧ ∃ i, s.top < i ∧ i < M.maxStack ∧ s.heap (s.stack i) = some o := by
  refine ⟨hr.inZone b (by rw [hb]; rfl), ?_⟩
  obtain ⟨a, o₀, hlive, ho₀, rfl, rfl⟩ := hr.origin hb
  have hstring : ∀ a o, s.heap a = some o → ∃ e ∈ done, o = cStringObj e.2 :=
    fun a o ho => (hp.objects a o ho).2
  obtain ⟨e, he, rfl⟩ := hstring a o₀ ho₀
  have hroot := hlive.mem_roots fun a o ho => by
    obtain ⟨e, -, rfl⟩ := hstring a o ho
    rfl
  rcases mem_rootWords.mp hroot with ⟨i, hlow, hhigh, rfl⟩ | ⟨i, hi, -⟩ | ⟨id', hid⟩
  · exact ⟨i, hlow, hhigh, ho₀⟩
  · rw [hp.noRoots] at hi
    simp at hi
  · rw [hp.noRoots] at hid
    obtain ⟨rfl, rfl⟩ : id' = id ∧ a = 1 := by simpa using hid
    have hzone := (hp.objects 1 _ ho₀).1
    rw [M.zone_one] at hzone
    cases hzone

/-- A collection before the second string or a later one drops the string stored last. -/
theorem Filled.drops (hp : PoolState M done s) (hfilled : Filled M done s)
    (hnodup : (done.map Prod.snd).Nodup) (hne : done ≠ []) {id : ℕ} {heap : Heap}
    {forward : Word → Word} (hr : Relocates M.heapZone s.heap
      (rootWords M { s with extraRoots := .cell id 1 :: s.extraRoots }) heap forward) :
    ∃ e ∈ done, ∀ a, heap a ≠ some (cStringObj e.2) := by
  refine ⟨done.getLast hne, List.getLast_mem hne, fun b hb => ?_⟩
  obtain ⟨-, i, hlow, hhigh, hi⟩ := hp.kept hr hb
  have htop := hp.top
  have hpos : 0 < done.length := List.length_pos_iff.mpr hne
  obtain ⟨j, hj, hslot⟩ : ∃ j : ℕ, j < done.length - 1 ∧ i = poolSlot M j :=
    ⟨(M.maxStack - 1 - i).toNat, by omega, by unfold poolSlot; omega⟩
  have hheap := hfilled j _ (List.getElem?_eq_getElem (by omega))
  rw [← hslot, hi] at hheap
  have hsame : (done.getLast hne).2 = done[j].2 := cStringObj_inj (Option.some.inj hheap)
  -- so the entries `j` and `done.length - 1` have the same characters
  have hlast : done.length - 1 < (done.map Prod.snd).length := by
    rw [List.length_map]
    omega
  have hj' : j < (done.map Prod.snd).length := by
    rw [List.length_map]
    omega
  have hidx : (done.map Prod.snd)[done.length - 1] = (done.map Prod.snd)[j] := by
    simpa [List.getLast_eq_getElem] using hsame
  have hjj := (List.Nodup.getElem_inj_iff hnodup).mp hidx
  omega

end Collection

/-! ### A turn of the loop -/

section Turn

variable {M : Machine} {E : Env M} {done : List (ℕ × List UInt8)} {i : ℕ} {string : List UInt8}
  {s s' : State}

/-- What a turn for the string at offset `i` leaves: the new object in a heap that is the old one or
    what a collection made of it. -/
structure PoolTurn (M : Machine) (i : ℕ) (string : List UInt8) (s s' : State) (kept : Heap) : Prop where
  top : s'.top = s.top - 1
  room : 0 ≤ s.top - 1
  counter : s'.stringCounter = s.stringCounter + 1
  allocs : s'.allocs = s.allocs + 1
  noRoots : s.extraRoots = [] → s'.extraRoots = []
  stringsMap : s'.stringsMap = (i, s.stringCounter) :: s.stringsMap
  zone : M.heapZone (s'.stack (s.top - 1)) = true
  free : kept (s'.stack (s.top - 1)) = none
  heap : s'.heap = Function.update kept (s'.stack (s.top - 1)) (some (cStringObj string))
  origin :
    (s'.collectedAt = s.collectedAt ∧ kept = s.heap ∧ ∀ j, j ≠ s.top - 1 → s'.stack j = s.stack j) ∨
    (s'.collectedAt = s.allocs :: s.collectedAt ∧ ∃ id forward, Relocates M.heapZone s.heap
      (rootWords M { s with extraRoots := .cell id 1 :: s.extraRoots }) kept forward ∧
      ∀ j, j ≠ s.top - 1 → s'.stack j = s.stack j ∨
        s'.stack j = relocateWord M.heapZone s.heap forward (s.stack j))

theorem poolLoop_turn {fuel : ℕ} {u : Unit} (h : poolLoop E (fuel + 1) i s = .ok u s')
    (hi : i < toU32 M.bf.stringtabSize)
    (hstr : M.bf.cString (M.bf.stringPtr + i) = .ok string) :
    ∃ s₁ heap, PoolTurn M i string s s₁ heap ∧
      poolLoop E fuel (toU32 (i + string.length + 1)) s₁ = .ok u s' := by
  unfold poolLoop at h
  rw [if_neg (by omega)] at h
  obtain ⟨_, s₁, hmap, h⟩ := exec_bind_ok.mp h
  cases hmap
  rw [hstr] at h
  simp only [exec_bind_ok, exec_get_ok, exec_modify_ok] at h
  obtain ⟨a, s₂, hstring, _, _, rfl, _, _, ⟨rfl, rfl⟩, _, s₃, hwrite, h⟩ := h
  obtain ⟨s₄, hc, hzone, hfree, rfl⟩ := Bstring_ok hstring
  obtain ⟨rfl, hroom, -⟩ := writeSlot_ok hwrite
  dsimp only at hroom h
  refine ⟨_, s₄.heap, ?_, h⟩
  rcases collectGarbage_ok hc with rfl | ⟨heap, forward, hr, rfl⟩
  · refine ⟨rfl, hroom, rfl, rfl, fun hroots => hroots, rfl, ?_, ?_, ?_, .inl ⟨rfl, rfl, fun j hj => ?_⟩⟩
    · simpa using hzone
    · simpa using hfree
    · simp [cStringObj]
    · exact Function.update_of_ne hj ..
  · refine ⟨rfl, hroom, rfl, rfl, fun hroots => ?_, rfl, ?_, ?_, ?_,
      .inr ⟨rfl, 0, forward, hr, fun j hj => ?_⟩⟩
    · simp [State.collected, hroots]
    · simpa [State.collected] using hzone
    · simpa [State.collected] using hfree
    · simp [State.collected, cStringObj]
    · dsimp only [State.collected]
      rw [Function.update_of_ne hj]
      split
      · exact .inr rfl
      · exact .inl rfl

theorem PoolTurn.undisturbed {kept : Heap} (ht : PoolTurn M i string s s' kept)
    (h : Undisturbed s') : Undisturbed s := by
  intro k hk
  rcases ht.origin with ⟨hat, -, -⟩ | ⟨hat, -⟩
  · exact h k (hat ▸ hk)
  · exact h k (hat ▸ List.mem_cons_of_mem _ hk)

/-- What every turn keeps holds when the loop returns. -/
theorem poolLoop_invariant {I : State → Prop}
    (hturn : ∀ {s s' : State} {i : ℕ} {string : List UInt8} {kept : Heap},
      I s → PoolTurn M i string s s' kept → I s') {fuel i : ℕ} {s s' : State} {u : Unit}
    (h : poolLoop E fuel i s = .ok u s') (hs : I s) : I s' := by
  induction fuel generalizing i s with
  | zero => cases h
  | succ fuel ih =>
    rcases Nat.lt_or_ge i (toU32 M.bf.stringtabSize) with hi | hi
    · cases hstr : M.bf.cString (M.bf.stringPtr + i) with
      | error e =>
        unfold poolLoop at h
        rw [if_neg (by omega)] at h
        obtain ⟨_, s₁, hmap, hrest⟩ := exec_bind_ok.mp h
        rw [hstr] at hrest
        cases hrest
      | ok string =>
        obtain ⟨s₁, kept, ht, hrest⟩ := poolLoop_turn h hi hstr
        exact ih hrest (hturn hs ht)
    · unfold poolLoop at h
      rw [if_pos hi] at h
      cases h
      exact hs

theorem getElem?_append_one {α : Type} {l : List α} {x y : α} {j : ℕ}
    (h : (l ++ [x])[j]? = some y) : l[j]? = some y ∨ j = l.length ∧ y = x := by
  rcases Nat.lt_or_ge j l.length with hj | hj
  · rw [List.getElem?_append_left hj] at h
    exact .inl h
  · rw [List.getElem?_append_right hj, List.getElem?_singleton] at h
    split at h
    · cases h
      exact .inr ⟨by omega, rfl⟩
    · cases h

theorem PoolState.turn (hp : PoolState M done s) {heap : Heap} (ht : PoolTurn M i string s s' heap)
    (hfresh : ∀ e ∈ done, e.1 < i) : PoolState M (done ++ [(i, string)]) s' := by
  have htop := ht.top
  have hroom := ht.room
  rw [hp.top] at htop hroom
  refine ⟨?_, ?_, ?_, ?_, ht.noRoots hp.noRoots, fun j e hj => ?_, fun a o ha => ?_⟩
  · rw [htop, List.length_append, List.length_singleton]
    omega
  · rw [List.length_append, List.length_singleton]
    omega
  · rw [ht.counter, hp.counter, List.length_append, List.length_singleton]
  · rw [ht.allocs, hp.allocs, List.length_append, List.length_singleton]
  · rw [ht.stringsMap, List.lookup_cons]
    rcases getElem?_append_one hj with hold | ⟨rfl, rfl⟩
    · have hlt := hfresh e (List.mem_of_getElem? hold)
      have hne : (e.1 == i) = false := by
        rw [beq_eq_false_iff_ne]
        omega
      rw [hne]
      exact hp.keys j e hold
    · rw [beq_self_eq_true, hp.counter]
  · rw [ht.heap] at ha
    have hold : ∀ o, heap a = some o → M.heapZone a ∧ ∃ e ∈ done, o = cStringObj e.2 := by
      intro o ho
      rcases ht.origin with ⟨-, rfl, -⟩ | ⟨-, id, forward, hr, -⟩
      · exact hp.objects a o ho
      · obtain ⟨hzone, j, -, -, hj⟩ := hp.kept hr ho
        exact ⟨hzone, (hp.objects _ o hj).2⟩
    by_cases hanew : a = s'.stack (s.top - 1)
    · subst hanew
      rw [Function.update_self] at ha
      exact ⟨ht.zone, (i, string), by simp, (Option.some.inj ha).symm⟩
    · rw [Function.update_of_ne hanew] at ha
      obtain ⟨hzone, e, he, rfl⟩ := hold o ha
      exact ⟨hzone, e, List.mem_append_left _ he, rfl⟩

/-- While nothing is dropped the new string joins the others. -/
theorem Filled.turn (hp : PoolState M done s) (hfilled : Filled M done s) {heap : Heap}
    (ht : PoolTurn M i string s s' heap) (hquiet : Undisturbed s') :
    Filled M (done ++ [(i, string)]) s' := by
  intro j e hj
  have htop := hp.top
  rw [ht.heap]
  rcases getElem?_append_one hj with hold | ⟨rfl, rfl⟩
  · have hlt : j < done.length := (List.getElem?_eq_some_iff.mp hold).1
    rcases ht.origin with ⟨-, rfl, hstack⟩ | ⟨hat, -⟩
    · have hslot : poolSlot M j ≠ s.top - 1 := by
        unfold poolSlot
        omega
      have hheap := hfilled j e hold
      rw [hstack _ hslot, Function.update_of_ne, hheap]
      intro heq
      have hfree := ht.free
      rw [← heq, hheap] at hfree
      cases hfree
    · -- a collection at the first allocation finds an empty pool
      have hzero := hquiet s.allocs (by rw [hat]; exact List.mem_cons_self)
      rw [hp.allocs] at hzero
      omega
  · have hslot : poolSlot M done.length = s.top - 1 := by
      unfold poolSlot
      omega
    rw [hslot, Function.update_self]

/-- A string that is gone stays away. -/
theorem Lost.turn (hp : PoolState M done s) (hlost : Lost done s) {heap : Heap}
    (ht : PoolTurn M i string s s' heap) (hnodup : ((done ++ [(i, string)]).map Prod.snd).Nodup) :
    Lost (done ++ [(i, string)]) s' := by
  obtain ⟨e, he, hnone⟩ := hlost
  refine ⟨e, List.mem_append_left _ he, fun a ha => ?_⟩
  rw [ht.heap] at ha
  by_cases hanew : a = s'.stack (s.top - 1)
  · rw [hanew, Function.update_self] at ha
    have hsame : string = e.2 := cStringObj_inj (Option.some.inj ha)
    rw [List.map_append, List.nodup_append] at hnodup
    exact hnodup.2.2 e.2 (List.mem_map_of_mem he) string (by simp) hsame.symm
  · rw [Function.update_of_ne hanew] at ha
    rcases ht.origin with ⟨-, rfl, -⟩ | ⟨-, id, forward, hr, -⟩
    · exact hnone a ha
    · obtain ⟨-, j, -, -, hj⟩ := hp.kept hr ha
      exact hnone _ hj

/-- The first collection after the first allocation loses a string. -/
theorem Filled.lost (hp : PoolState M done s) (hfilled : Filled M done s) {heap : Heap}
    (ht : PoolTurn M i string s s' heap) (hbefore : Undisturbed s) (hafter : ¬ Undisturbed s')
    (hnodup : ((done ++ [(i, string)]).map Prod.snd).Nodup) : Lost (done ++ [(i, string)]) s' := by
  rcases ht.origin with ⟨hat, -, -⟩ | ⟨hat, id, forward, hr, -⟩
  · exact absurd (fun k hk => hbefore k (hat ▸ hk)) hafter
  · have hne : done ≠ [] := by
      rintro rfl
      refine hafter fun k hk => ?_
      rw [hat] at hk
      rcases List.mem_cons.mp hk with rfl | hk
      · exact hp.allocs
      · exact hbefore k hk
    have hdone : (done.map Prod.snd).Nodup := by
      rw [List.map_append, List.nodup_append] at hnodup
      exact hnodup.1
    obtain ⟨e, he, hnone⟩ := hfilled.drops hp hdone hne hr
    refine ⟨e, List.mem_append_left _ he, fun a ha => ?_⟩
    rw [ht.heap] at ha
    by_cases hanew : a = s'.stack (s.top - 1)
    · rw [hanew, Function.update_self] at ha
      have hsame : string = e.2 := cStringObj_inj (Option.some.inj ha)
      rw [List.map_append, List.nodup_append] at hnodup
      exact hnodup.2.2 e.2 (List.mem_map_of_mem he) string (by simp) hsame.symm
    · rw [Function.update_of_ne hanew] at ha
      exact hnone a ha

end Turn

/-! ### The whole loop -/

section Loop

variable {M : Machine} {E : Env M}

/-- The pool so far is whole, or a string of it is gone for good. -/
structure Building (M : Machine) (done : List (ℕ × List UInt8)) (s : State) : Prop where
  pool : PoolState M done s
  whole : Undisturbed s → Filled M done s
  torn : (done.map Prod.snd).Nodup → ¬ Undisturbed s → Lost done s

theorem Building.turn {done : List (ℕ × List UInt8)} {i : ℕ} {string : List UInt8} {s s' : State}
    {heap : Heap} (hb : Building M done s) (ht : PoolTurn M i string s s' heap)
    (hfresh : ∀ e ∈ done, e.1 < i) : Building M (done ++ [(i, string)]) s' := by
  refine ⟨hb.pool.turn ht hfresh, fun h => (hb.whole (ht.undisturbed h)).turn hb.pool ht h,
    fun hnodup h => ?_⟩
  by_cases hs : Undisturbed s
  · exact (hb.whole hs).lost hb.pool ht hs h hnodup
  · refine (hb.torn ?_ hs).turn hb.pool ht hnodup
    rw [List.map_append, List.nodup_append] at hnodup
    exact hnodup.1

theorem poolLoop_building {i : ℕ} {rest : List (ℕ × List UInt8)} (htable : StringTable M.bf i rest) :
    ∀ {fuel : ℕ} {done : List (ℕ × List UInt8)} {s s' : State} {u : Unit},
      poolLoop E fuel i s = .ok u s' → Building M done s → (∀ e ∈ done, e.1 < i) →
      Building M (done ++ rest) s' := by
  have hsize := M.bf.stringtabSize_lt
  induction htable with
  | nil hi =>
    intro fuel done s s' u h hb _
    cases fuel with
    | zero => cases h
    | succ fuel =>
      unfold poolLoop at h
      rw [if_pos (by unfold toU32; omega)] at h
      cases h
      rwa [List.append_nil]
  | @cons i string rest hi hstr htail ih =>
    intro fuel done s s' u h hb hfresh
    have hle := htail.le
    cases fuel with
    | zero => cases h
    | succ fuel =>
      obtain ⟨s₁, heap, ht, h⟩ := poolLoop_turn h (by unfold toU32; omega) hstr
      have hwrap : toU32 (i + string.length + 1) = i + string.length + 1 :=
        toU32_of_lt (show i + string.length + 1 < 2 ^ 32 by omega)
      rw [hwrap] at h
      have hnext := ih h (hb.turn ht hfresh) fun e he => by
        rcases List.mem_append.mp he with he | he
        · have := hfresh e he
          omega
        · rw [List.mem_singleton.mp he]
          dsimp only
          omega
      rwa [List.append_assoc] at hnext

theorem building_emptyState : Building M [] (emptyState E) :=
  ⟨⟨by simp [emptyState], Nat.zero_le _, rfl, rfl, rfl, fun _ _ h => (nomatch h),
    fun _ _ h => (nomatch h)⟩, fun _ _ _ h => (nomatch h),
    fun _ h => absurd (fun _ hk => (nomatch hk)) h⟩

/-- `get_string_ptr` reads the slot the map names. -/
theorem getStringPtr_eq {s : State} {start j : ℕ} (hkey : s.stringsMap.lookup start = some j)
    (hj : j < M.maxStack) : getStringPtr M start s = .ok (s.stack (poolSlot M j)) s := by
  have hslot : (M.maxStack : ℤ) - j - 1 = poolSlot M j := by
    unfold poolSlot
    omega
  have hread : readSlot M (M.maxStack - j - 1) s = .ok (s.stack (poolSlot M j)) s := by
    rw [hslot, readSlot, if_pos (by unfold poolSlot; omega)]
  rw [getStringPtr, exec_get_bind, hkey]
  exact hread

theorem frameStack_building {l : List (ℕ × List UInt8)} (htable : StringTable M.bf 0 l) {s : State}
    {u : Unit} (h : frameStack E (emptyState E) = .ok u s) :
    ∃ s₁ top, Building M l s₁ ∧ s = { s₁ with top := top } := by
  obtain ⟨_, s₁, hloop, htop⟩ := exec_bind_ok.mp h
  have hb := poolLoop_building htable hloop building_emptyState fun _ he => (nomatch he)
  cases htop
  exact ⟨s₁, _, hb, rfl⟩

/-! ### The bound on the turns -/

theorem alloc_ne_timeout {s s' : State} : alloc E s ≠ .error .timeout s' := by
  intro h
  rcases exec_bind_error.mp h with hc | ⟨_, s₁, -, hp⟩
  · unfold collectGarbage at hc
    split at hc
    · cases hc
    · split at hc
      · cases hc
      · split at hc <;> cases hc
  · split at hp <;> cases hp

theorem Bstring_ne_timeout {id : ℕ} {bytes : List UInt8} {s s' : State} :
    Bstring E id bytes s ≠ .error .timeout s' := by
  intro h
  rcases exec_bind_error.mp h with hpush | ⟨_, s₁, -, h⟩
  · unfold pushExtraRoot at hpush
    split at hpush <;> cases hpush
  · rcases exec_bind_error.mp h with halloc | ⟨a, s₂, -, h⟩
    · exact alloc_ne_timeout halloc
    · rcases exec_bind_error.mp h with hpop | ⟨_, s₃, -, h⟩
      · unfold popExtraRoot at hpop
        split at hpop
        · cases hpop
        · split at hpop <;> cases hpop
      · cases h

/-- A table of strings is walked through within the turns the loop is given. -/
theorem poolLoop_ends {i : ℕ} {rest : List (ℕ × List UInt8)} (htable : StringTable M.bf i rest) :
    ∀ {fuel : ℕ} {s s' : State}, M.bf.stringtabSize < fuel + i →
      poolLoop E fuel i s ≠ .error .timeout s' := by
  have hsize := M.bf.stringtabSize_lt
  induction htable with
  | nil hi =>
    intro fuel s s' hfuel h
    cases fuel with
    | zero => omega
    | succ fuel =>
      unfold poolLoop at h
      rw [if_pos (by unfold toU32; omega)] at h
      cases h
  | @cons i string rest hi hstr htail ih =>
    intro fuel s s' hfuel h
    have hle := htail.le
    have hwrap : toU32 (i + string.length + 1) = i + string.length + 1 :=
      toU32_of_lt (show i + string.length + 1 < 2 ^ 32 by omega)
    cases fuel with
    | zero => omega
    | succ fuel =>
      unfold poolLoop at h
      rw [if_neg (by unfold toU32; omega)] at h
      rcases exec_bind_error.mp h with hmap | ⟨_, s₁, hmap, h⟩
      · cases hmap
      · rw [hstr] at h
        rcases exec_bind_error.mp h with hb | ⟨a, s₂, -, h⟩
        · exact Bstring_ne_timeout hb
        · rcases exec_bind_error.mp h with htop | ⟨_, s₃, -, h⟩
          · cases htop
          · rcases exec_bind_error.mp h with hget | ⟨s₄, _, -, h⟩
            · cases hget
            · rcases exec_bind_error.mp h with hw | ⟨_, s₅, -, h⟩
              · unfold writeSlot at hw
                split at hw <;> cases hw
              · rw [hwrap] at h
                exact ih (by omega) h

theorem frameStack_ends {l : List (ℕ × List UInt8)} (htable : StringTable M.bf 0 l) {s' : State} :
    frameStack E (emptyState E) ≠ .error .timeout s' := by
  intro h
  have hsize := M.bf.stringtabSize_lt
  have hle := htable.le
  rcases exec_bind_error.mp h with hloop | ⟨_, s₁, -, htop⟩
  · exact poolLoop_ends htable (by unfold toU32; omega) hloop
  · cases htop

end Loop

/-- The pool comes out right when no allocation of the constructor but the first begins with a
    collection. In a table without repeated strings it comes out right in no other case; with a
    repeated one the freed address may happen to be given to the equal string. -/
theorem stringPool_right_iff (M : Machine) (E : Env M) (l : List (ℕ × List UInt8))
    (htable : StringTable M.bf 0 l) (s : State) (h : frameStack E (emptyState E) = .ok () s) :
    (Undisturbed s → PoolRight M l s) ∧
      ((l.map Prod.snd).Nodup → (PoolRight M l s ↔ Undisturbed s)) := by
  obtain ⟨s₁, top, hb, rfl⟩ := frameStack_building htable h
  have hright : Undisturbed { s₁ with top := top } → PoolRight M l { s₁ with top := top } := by
    intro hquiet j start string hj
    have hlt : j < l.length := (List.getElem?_eq_some_iff.mp hj).1
    have hroom := hb.pool.room
    exact ⟨hb.whole hquiet j _ hj, getStringPtr_eq (hb.pool.keys j _ hj) (by omega)⟩
  refine ⟨hright, fun hnodup => ⟨fun hpool => ?_, hright⟩⟩
  by_contra hdisturbed
  exact Filled.not_lost (fun j e hj => (hpool j e.1 e.2 hj).1) (hb.torn hnodup hdisturbed)

/-! ### Two strings that fill the first heap -/

/-- The string table is two names of 400 characters and `main`. -/
def longFile : Bytefile :=
  .ofBytes ([39, 3, 0, 0, 0, 0, 0, 0, 1, 0, 0, 0] ++ [34, 3, 0, 0, 0, 0, 0, 0] ++
    List.replicate 400 97 ++ [0] ++ List.replicate 400 98 ++ [0, 109, 97, 105, 110, 0] ++
    [0x52, 0, 0, 0, 0, 0, 0, 0, 0, 0x16, 0xFF])

def longTable : List (ℕ × List UInt8) :=
  [(0, List.replicate 400 97), (401, List.replicate 400 98), (802, [109, 97, 105, 110])]

theorem stringTable_longFile : StringTable longFile 0 longTable := by
  refine .cons (by decide) (by decide +kernel) ?_
  rw [List.length_replicate]
  refine .cons (by decide +kernel) (by decide +kernel) ?_
  rw [List.length_replicate]
  exact .cons (by decide +kernel) (by decide +kernel) (.nil (by decide +kernel))

def longMachine : Machine :=
  Machine.layout longFile stackSize (by decide +kernel) stackSize_le

def quietEnv : Env longMachine := Env.bump longMachine fun k => BitVec.ofNat 64 (2 ^ 50 + 1024 * k)

/-- As `quietEnv`, but the second allocation finds the first heap full. -/
def fullEnv : Env longMachine :=
  quietEnv.moving 1 (BitVec.ofNat 64 (2 ^ 40))

theorem stringPool_right_longFile : PoolRight longMachine longTable
    (finalState (frameStack quietEnv (emptyState quietEnv))) :=
  (stringPool_right_iff longMachine quietEnv longTable stringTable_longFile _
    (ok_of_returned (by decide +kernel))).1 (by
      show ∀ k ∈ (finalState (frameStack quietEnv (emptyState quietEnv))).collectedAt, k = 0
      decide +kernel)

theorem fullHeap_drops_string :
    StringTable longFile 0 longTable ∧
      frameStack fullEnv (emptyState fullEnv) =
        .ok () (finalState (frameStack fullEnv (emptyState fullEnv))) ∧
      (finalState (frameStack fullEnv (emptyState fullEnv))).collectedAt = [1] ∧
      ¬ PoolRight longMachine longTable (finalState (frameStack fullEnv (emptyState fullEnv))) := by
  refine ⟨stringTable_longFile, ok_of_returned (by decide +kernel), by decide +kernel, fun h => ?_⟩
  have hheap := (h 0 0 (List.replicate 400 97) rfl).1
  revert hheap
  decide +kernel

end LamaSM
