import LamaSM.Gc.Refinement
import LamaSM.Roots

/-! How the memory of the process holds a state of the interpreter.

    `Represents` ties the globals of `gc.c` to a `State`: the stack is an array of words, the heap is the
    chunk, an extra root is the address of a slot or of a word elsewhere. `Placed` is what the system sees
    to: the regions lie apart from each other. Where the scanned words of the state are valid, the memory
    is ready for a collection. -/

namespace LamaSM
namespace Gc
open Lib

/-- The address of a slot. -/
def slotAddress (M : Machine) (i : ℕ) : ℕ := 8 * (M.stackWord + i)

/-- The end of the last word of the global area that is scanned. -/
def customEnd (g : Globals) : ℕ :=
  g.startCustomData + wordSize * ((g.stopCustomData - g.startCustomData + 7) / wordSize)

/-- The stack, the global area and the heap lie apart from each other. The word behind the stack and those
    of the global area are no heap addresses. -/
structure Placed (M : Machine) (g : Globals) : Prop where
  chunk : ChunkOk g.heap
  lt : g.heap.end < 2 ^ 63
  zone : ∀ w : Word, w.toNat % 2 = 0 → w ≠ 0 → g.heap.begin ≤ w.toNat → w.toNat ≤ g.heap.end →
    M.heapZone w = true
  bottom : g.stackBottom = slotAddress M M.maxStack
  stack : slotAddress M M.maxStack + 8 ≤ g.heap.begin ∨ g.heap.end ≤ slotAddress M 0
  custom : customEnd g ≤ g.heap.begin ∨ g.heap.end ≤ g.startCustomData
  apart : customEnd g ≤ slotAddress M 0 ∨ slotAddress M M.maxStack + 8 ≤ g.startCustomData
  foreign : ∀ p ∈ g.stackBottom :: wordsBetween g.startCustomData g.stopCustomData,
    M.heapZone (load64 g.mem p) = false

/-- The word at `p` lies outside the stack, the global area and the heap. -/
structure Elsewhere (M : Machine) (g : Globals) (p : ℕ) : Prop where
  stack : p + 8 < slotAddress M 0 ∨ slotAddress M M.maxStack + 8 ≤ p
  custom : p + 8 ≤ g.startCustomData ∨ customEnd g ≤ p ∧ g.stopCustomData < p
  heap : p + 8 ≤ g.heap.begin ∨ g.heap.end ≤ p

/-- The words are the same or no heap addresses, both of them. -/
def Alike (M : Machine) (w w' : Word) : Prop := w = w' ∨ M.heapZone w = false ∧ M.heapZone w' = false

/-- Where an extra root points to. -/
inductive RootAt (M : Machine) (s : State) (g : Globals) : RootRef → ℕ → Prop
  | slot {i : ℕ} : s.top < i → i < M.maxStack → RootAt M s g (.slot i) (slotAddress M i)
  | cell {id p : ℕ} {content : Word} : Elsewhere M g p → Alike M (load64 g.mem p) content →
      RootAt M s g (.cell id content) p

/-- What lies behind the contents of a string, up to the end of its last word. -/
def SlackAt (m : ByteMemory) (start : ℕ) (os : List Obj) (slack : Word → ℕ → UInt8) : Prop :=
  ∀ j contents, (j, .string contents) ∈ laid room start os → ∀ a : Word, a.toNat = j + dataHeaderSz →
    ∀ k, contents.length ≤ k → dataHeaderSz + k < room (.string contents) → slack a k = m (j + dataHeaderSz + k)

/-- The slack memory has. -/
def slackOf (m : ByteMemory) (a : Word) (k : ℕ) : UInt8 := m (a.toNat + k)

/-- The memory holds the state, with the objects `os` in the heap. -/
structure Represents (M : Machine) (s : State) (g : Globals) (os : List Obj) : Prop where
  heap : s.heap = heapOf g.heap.begin os
  layout : HeapAt g.mem g.heap os
  clean : ∀ j o, (j, o) ∈ laid room g.heap.begin os → ¬ Marked g.mem j ∧ ¬ Enqueued g.mem j
  stack : ∀ i < M.maxStack, load64 g.mem (slotAddress M i) = s.stack i
  top : (g.stackTop : ℤ) = 8 * (M.stackWord + s.top)
  roots : List.Forall₂ (RootAt M s g) s.extraRoots g.extraRoots.reverse
  cells : g.extraRoots.Pairwise fun p q => p + 8 ≤ q ∨ q + 8 ≤ p ∨ ∃ i < M.maxStack, p = slotAddress M i ∨ q = slotAddress M i
  placed : Placed M g
  slack : SlackAt g.mem g.heap.begin os s.slack

section Words

variable {M : Machine} {s : State} {g : Globals} {os : List Obj} {p lo hi i : ℕ} {w : Word} {r : RootRef}

theorem mem_wordsBetween : p ∈ wordsBetween lo hi ↔ ∃ k < (hi - lo + 7) / 8, p = lo + 8 * k := by
  unfold wordsBetween wordSize
  rw [List.mem_map]
  constructor
  · rintro ⟨k, hk, rfl⟩
    exact ⟨k, List.mem_range.mp hk, rfl⟩
  · rintro ⟨k, hk, rfl⟩
    exact ⟨k, List.mem_range.mpr hk, rfl⟩

theorem slackAt_slackOf {m : ByteMemory} {start : ℕ} : SlackAt m start os (slackOf m) := by
  intro j contents _ a ha k _ _
  rw [slackOf, ha]

/-- Slack that is neither moved nor written stays. -/
theorem SlackAt.kept {m m' : ByteMemory} {start : ℕ} {slack : Word → ℕ → UInt8} (h : SlackAt m start os slack)
    (hrest : ∀ j o, (j, o) ∈ laid room start os → ∀ b, j ≤ b → b < j + room o → m' b = m b) :
    SlackAt m' start os slack := by
  intro j contents hj a ha k hk hroom
  rw [hrest j _ hj _ (by omega) (by omega)]
  exact h j contents hj a ha k hk hroom

theorem wordsBetween_apart : (wordsBetween lo hi).Pairwise fun p q => p + 8 ≤ q ∨ q + 8 ≤ p := by
  unfold wordsBetween wordSize
  rw [List.pairwise_map]
  refine List.pairwise_lt_range.imp fun {a b} h => ?_
  omega

/-- Without extra roots in the state the pool is empty. -/
theorem Represents.noRoots (h : Represents M s g os) (hnone : s.extraRoots = []) : g.extraRoots = [] := by
  have hroots := h.roots
  rw [hnone] at hroots
  exact List.reverse_eq_nil_iff.mp (List.forall₂_nil_left_iff.mp hroots)

/-- The words scanned on the stack are those of the slots above the top; the region that is rewritten has
    the word behind the stack as well. -/
theorem Represents.mem_region (h : Represents M s g os) (htop : -1 ≤ s.top) :
    p ∈ wordsBetween (g.stackTop + wordSize) (g.stackBottom + wordSize) ↔
      ∃ i : ℕ, s.top < i ∧ i ≤ M.maxStack ∧ p = slotAddress M i := by
  have ht := h.top
  rw [mem_wordsBetween, h.placed.bottom]
  unfold slotAddress wordSize
  constructor
  · rintro ⟨k, hk, rfl⟩
    exact ⟨(s.top + 1 + k).toNat, by omega, by omega, by omega⟩
  · rintro ⟨i, hlow, hhigh, rfl⟩
    exact ⟨(i - s.top - 1).toNat, by omega, by omega⟩

theorem Represents.mem_scanned (h : Represents M s g os) (htop : -1 ≤ s.top) :
    p ∈ wordsBetween (g.stackTop + wordSize) g.stackBottom ↔
      ∃ i : ℕ, s.top < i ∧ i < M.maxStack ∧ p = slotAddress M i := by
  have ht := h.top
  rw [mem_wordsBetween, h.placed.bottom]
  unfold slotAddress wordSize
  constructor
  · rintro ⟨k, hk, rfl⟩
    exact ⟨(s.top + 1 + k).toNat, by omega, by omega, by omega⟩
  · rintro ⟨i, hlow, hhigh, rfl⟩
    exact ⟨(i - s.top - 1).toNat, by omega, by omega⟩

/-- Without extra roots a collection looks at the stack and the global area only. -/
theorem Represents.scanned (h : Represents M s g os) (htop : -1 ≤ s.top) (hnone : g.extraRoots = [])
    (hp : p ∈ rootAddresses g ++ fixedAddresses g) :
    (∃ i : ℕ, s.top < i ∧ i ≤ M.maxStack ∧ p = slotAddress M i) ∨
      p ∈ wordsBetween g.startCustomData g.stopCustomData := by
  rw [rootAddresses, fixedAddresses, hnone] at hp
  simp only [List.filter_nil, List.append_nil, List.mem_append] at hp
  rcases hp with (hp | hp) | hp | hp
  · obtain ⟨i, hlow, hhigh, rfl⟩ := (h.mem_scanned htop).mp hp
    exact .inl ⟨i, hlow, Nat.le_of_lt hhigh, rfl⟩
  · exact .inr hp
  · exact .inl ((h.mem_region htop).mp hp)
  · exact .inr hp

/-- What is related has a partner. -/
theorem forall₂_mem_right {α β : Type} {R : α → β → Prop} {l : List α} {l' : List β} {b : β}
    (h : List.Forall₂ R l l') (hb : b ∈ l') : ∃ a ∈ l, R a b := by
  induction h with
  | nil => cases hb
  | cons hab _ ih =>
    rcases List.mem_cons.mp hb with rfl | hb
    · exact ⟨_, List.mem_cons_self, hab⟩
    · obtain ⟨a, ha, hr⟩ := ih hb
      exact ⟨a, List.mem_cons_of_mem _ ha, hr⟩

theorem forall₂_mem_left {α β : Type} {R : α → β → Prop} {l : List α} {l' : List β} {a : α}
    (h : List.Forall₂ R l l') (ha : a ∈ l) : ∃ b ∈ l', R a b :=
  forall₂_mem_right h.flip ha

theorem forall₂_map_of_mem {α β γ : Type} {R : α → β → Prop} {S : γ → β → Prop} {f : α → γ} {l : List α} {l' : List β}
    (h : List.Forall₂ R l l') (himp : ∀ a, ∀ b ∈ l', R a b → S (f a) b) : List.Forall₂ S (l.map f) l' := by
  induction h with
  | nil => exact .nil
  | cons hab _ ih =>
    exact .cons (himp _ _ List.mem_cons_self hab) (ih fun a b hb => himp a b (List.mem_cons_of_mem _ hb))

/-- The roots are the slots and the words elsewhere. -/
theorem Represents.root (h : Represents M s g os) (hp : p ∈ g.extraRoots) : ∃ r ∈ s.extraRoots, RootAt M s g r p :=
  forall₂_mem_right h.roots (List.mem_reverse.mpr hp)

/-- A slot is skipped among the roots, as it has been rewritten with the stack; a word elsewhere is not. -/
theorem RootAt.skips (hr : RootAt M s g r p) (ht : (g.stackTop : ℤ) = 8 * (M.stackWord + s.top))
    (hb : g.stackBottom = slotAddress M M.maxStack) (htop : -1 ≤ s.top) :
    skipsRoot g p = true ↔ ∃ i < M.maxStack, p = slotAddress M i := by
  rw [skipsRoot, Bool.or_eq_true, Bool.and_eq_true, Bool.and_eq_true, decide_eq_true_iff, decide_eq_true_iff,
    decide_eq_true_iff, decide_eq_true_iff, hb]
  cases hr with
  | @slot i hlow hhigh =>
    unfold slotAddress
    exact ⟨fun _ => ⟨i, hhigh, rfl⟩, fun _ => .inl ⟨by omega, by omega⟩⟩
  | cell helse _ =>
    have hstack := helse.stack
    have hcustom := helse.custom
    unfold slotAddress at *
    constructor
    · intro hskip
      omega
    · rintro ⟨i, hi, hp⟩
      omega

/-- Every word a collection looks at is valid, as those the state does not know of are no heap addresses. -/
theorem Represents.valid (h : Represents M s g os) (hs : Held M [] s) (htop : -1 ≤ s.top)
    (hcells : ∀ id content, RootRef.cell id content ∈ s.extraRoots → Valid M s.heap content)
    (hp : p ∈ rootAddresses g ++ fixedAddresses g) : Valid M s.heap (load64 g.mem p) := by
  have hslot : ∀ i : ℕ, s.top < i → i < M.maxStack → Valid M s.heap (load64 g.mem (slotAddress M i)) := by
    intro i hlow hhigh
    rw [h.stack i hhigh]
    exact hs.roots i hlow (by omega)
  have hroot : p ∈ g.extraRoots → Valid M s.heap (load64 g.mem p) := by
    intro hp
    obtain ⟨r, hr, hrp⟩ := h.root hp
    cases hrp with
    | slot hlow hhigh => exact hslot _ hlow hhigh
    | cell _ hcontent =>
      rcases hcontent with hsame | ⟨hzone, -⟩
      · rw [hsame]
        exact hcells _ _ hr
      · exact valid_of_zone hzone
  have hcustom : p ∈ wordsBetween g.startCustomData g.stopCustomData → Valid M s.heap (load64 g.mem p) :=
    fun hp => valid_of_zone (h.placed.foreign p (List.mem_cons_of_mem _ hp))
  rcases List.mem_append.mp hp with hp | hp
  · rcases List.mem_append.mp hp with hp | hp
    · rcases List.mem_append.mp hp with hp | hp
      · obtain ⟨i, hlow, hhigh, rfl⟩ := (h.mem_scanned htop).mp hp
        exact hslot i hlow hhigh
      · exact hroot hp
    · exact hcustom hp
  · rcases List.mem_append.mp hp with hp | hp
    · rcases List.mem_append.mp hp with hp | hp
      · obtain ⟨i, hlow, hhigh, rfl⟩ := (h.mem_region htop).mp hp
        rcases Nat.lt_or_ge i M.maxStack with hlt | hge
        · exact hslot i hlow hlt
        · obtain rfl : i = M.maxStack := Nat.le_antisymm hhigh hge
          rw [← h.placed.bottom]
          exact valid_of_zone (h.placed.foreign _ List.mem_cons_self)
      · exact hroot (List.mem_of_mem_filter hp)
    · exact hcustom hp

/-- A valid word that is not null, or in a heap that does not begin at null, leads to an object. -/
theorem Represents.sane (h : Represents M s g os) (hw : Valid M s.heap w) (hnull : 0 < g.heap.begin ∨ w ≠ 0) :
    Sane g.heap os w := by
  intro hvalid
  have hfilled := h.placed.chunk.filled
  rw [isValidHeapPointer, Bool.and_eq_true, Bool.and_eq_true, decide_eq_true_iff, decide_eq_true_iff] at hvalid
  obtain ⟨⟨heven, hlow⟩, hhigh⟩ := hvalid
  have hne : w ≠ 0 := by
    rcases hnull with hpos | hne
    · rintro rfl
      have hzero : (0 : Word).toNat = 0 := rfl
      omega
    · exact hne
  have hmod : w.toNat % 2 = 0 := by
    rw [isBoxedInt, Bool.not_eq_true', beq_eq_false_iff_ne] at heven
    omega
  have hsome := hw (h.placed.zone w hmod hne hlow (by omega))
  rw [h.heap] at hsome
  exact heapOf_isSome.mp hsome

/-- The words of the global area. -/
theorem mem_custom (hp : p ∈ wordsBetween g.startCustomData g.stopCustomData) :
    g.startCustomData ≤ p ∧ p + 8 ≤ customEnd g := by
  obtain ⟨k, hk, rfl⟩ := mem_wordsBetween.mp hp
  unfold customEnd wordSize
  omega

/-- Roots that are not skipped are words elsewhere. -/
theorem Represents.elsewhere (h : Represents M s g os) (htop : -1 ≤ s.top)
    (hp : p ∈ g.extraRoots.filter fun p => !skipsRoot g p) :
    Elsewhere M g p ∧ ∀ i < M.maxStack, p ≠ slotAddress M i := by
  obtain ⟨hmem, hskip⟩ := List.mem_filter.mp hp
  obtain ⟨r, -, hr⟩ := h.root hmem
  have hslots : ∀ i < M.maxStack, p ≠ slotAddress M i := by
    intro i hi hpi
    have hskips := (hr.skips h.top h.placed.bottom htop).mpr ⟨i, hi, hpi⟩
    rw [hskips] at hskip
    cases hskip
  refine ⟨?_, hslots⟩
  cases hr with
  | @slot i _ hhigh => exact absurd rfl (hslots i hhigh)
  | cell helse _ => exact helse

/-- No word a collection looks at lies in the heap. -/
theorem Represents.outside (h : Represents M s g os) (htop : -1 ≤ s.top)
    (hp : p ∈ rootAddresses g ++ fixedAddresses g) : p + 8 ≤ g.heap.begin ∨ g.heap.end ≤ p := by
  have hslot : ∀ i : ℕ, i ≤ M.maxStack → slotAddress M i + 8 ≤ g.heap.begin ∨ g.heap.end ≤ slotAddress M i := by
    intro i hi
    have hstack := h.placed.stack
    unfold slotAddress at *
    omega
  have hroot : p ∈ g.extraRoots → p + 8 ≤ g.heap.begin ∨ g.heap.end ≤ p := by
    intro hp
    obtain ⟨r, -, hrp⟩ := h.root hp
    cases hrp with
    | slot _ hhigh => exact hslot _ (Nat.le_of_lt hhigh)
    | cell helse _ => exact helse.heap
  have hcustom : p ∈ wordsBetween g.startCustomData g.stopCustomData → p + 8 ≤ g.heap.begin ∨ g.heap.end ≤ p := by
    intro hp
    have hbounds := mem_custom hp
    have hplace := h.placed.custom
    omega
  rcases List.mem_append.mp hp with hp | hp
  · rcases List.mem_append.mp hp with hp | hp
    · rcases List.mem_append.mp hp with hp | hp
      · obtain ⟨i, -, hhigh, rfl⟩ := (h.mem_scanned htop).mp hp
        exact hslot i (Nat.le_of_lt hhigh)
      · exact hroot hp
    · exact hcustom hp
  · rcases List.mem_append.mp hp with hp | hp
    · rcases List.mem_append.mp hp with hp | hp
      · obtain ⟨i, -, hhigh, rfl⟩ := (h.mem_region htop).mp hp
        exact hslot i hhigh
      · exact hroot (List.mem_of_mem_filter hp)
    · exact hcustom hp

/-- The words that are rewritten do not overlap. -/
theorem Represents.fixed (h : Represents M s g os) (htop : -1 ≤ s.top) :
    (fixedAddresses g).Pairwise fun p q => p + 8 ≤ q ∨ q + 8 ≤ p := by
  have happart := h.placed.apart
  refine List.pairwise_append.mpr ⟨List.pairwise_append.mpr ⟨wordsBetween_apart, ?_, ?_⟩, wordsBetween_apart, ?_⟩
  · refine (h.cells.filter _).imp_of_mem fun {p q} hp hq hpq => ?_
    rcases hpq with hlt | hlt | ⟨i, hi, rfl | rfl⟩
    · exact .inl hlt
    · exact .inr hlt
    · exact absurd rfl ((h.elsewhere htop hp).2 i hi)
    · exact absurd rfl ((h.elsewhere htop hq).2 i hi)
  · intro p hp q hq
    obtain ⟨i, -, hhigh, rfl⟩ := (h.mem_region htop).mp hp
    have hstack := (h.elsewhere htop hq).1.stack
    unfold slotAddress at *
    omega
  · intro p hp q hq
    have hq := mem_custom hq
    rcases List.mem_append.mp hp with hp | hp
    · obtain ⟨i, -, hhigh, rfl⟩ := (h.mem_region htop).mp hp
      unfold slotAddress at *
      omega
    · have hcustom := (h.elsewhere htop hp).1.custom
      omega

/-- A memory that holds a state whose scanned words are valid is ready for a collection. While the heap
    has not begun, a null word among them would be taken for a pointer into it. -/
theorem Represents.movable (h : Represents M s g os) (hs : Held M [] s) (htop : -1 ≤ s.top)
    (hcells : ∀ id content, RootRef.cell id content ∈ s.extraRoots → Valid M s.heap content)
    (hnull : 0 < g.heap.begin ∨ os = [] ∧ ∀ p ∈ rootAddresses g ++ fixedAddresses g, load64 g.mem p ≠ 0) :
    Movable g os := by
  have hfilled := h.placed.chunk.filled
  have hsane : ∀ p ∈ rootAddresses g ++ fixedAddresses g, Sane g.heap os (load64 g.mem p) := fun p hp =>
    h.sane (h.valid hs htop hcells hp) (hnull.imp_right fun hn => hn.2 p hp)
  refine ⟨⟨h.layout, h.clean, fun p hp => ?_, fun w hw => ?_, fun a o w _ ha hw => ?_⟩, h.placed.chunk, h.fixed htop,
    fun p hp => h.outside htop (List.mem_append_right _ hp), fun p hp hout => ?_⟩
  · have := h.outside htop (List.mem_append_left _ hp)
    omega
  · obtain ⟨p, hp, rfl⟩ := List.mem_map.mp hw
    exact hsane p (List.mem_append_left _ hp)
  · have haddress := h.layout.address_toNat ha
    have hobj : s.heap (BitVec.ofNat 64 (a + dataHeaderSz)) = some o := by
      rw [h.heap]
      exact heapOf_eq_some.mpr ⟨a, ha, haddress⟩
    rcases hnull with hpos | ⟨rfl, -⟩
    · exact h.sane (hs.heap.pointers _ o hobj w hw) (.inl hpos)
    · cases ha
  · -- the word behind the stack is the only one that is rewritten without being scanned
    refine Bool.eq_false_iff.mpr fun hvalid => ?_
    obtain ⟨j, o, hj, hw⟩ := hsane p (List.mem_append_right _ hp) hvalid
    have hzone : M.heapZone (load64 g.mem p) = true := hs.heap.zone _ (by
      rw [h.heap]
      exact heapOf_isSome.mpr ⟨j, o, hj, hw⟩)
    rcases List.mem_append.mp hp with hp | hp
    · rcases List.mem_append.mp hp with hp | hp
      · obtain ⟨i, hlow, hhigh, rfl⟩ := (h.mem_region htop).mp hp
        rcases Nat.lt_or_ge i M.maxStack with hlt | hge
        · exact hout (List.mem_append_left _ (List.mem_append_left _ ((h.mem_scanned htop).mpr ⟨i, hlow, hlt, rfl⟩)))
        · obtain rfl : i = M.maxStack := Nat.le_antisymm hhigh hge
          rw [← h.placed.bottom, h.placed.foreign _ List.mem_cons_self] at hzone
          cases hzone
      · exact hout (List.mem_append_left _ (List.mem_append_right _ (List.mem_of_mem_filter hp)))
    · exact hout (List.mem_append_right _ hp)

end Words

/-! ### A collection, as the state sees it -/

/-- What the system promises of a region it maps: it lies apart from all the others, and its addresses are
    the heap's. -/
structure Fresh (M : Machine) (g : Globals) (start bytes : ℕ) : Prop where
  aligned : start % 8 = 0
  lt : start + bytes < 2 ^ 63
  heap : start + bytes ≤ g.heap.begin ∨ g.heap.end ≤ start
  stack : start + bytes ≤ slotAddress M 0 ∨ slotAddress M M.maxStack + 8 ≤ start
  custom : start + bytes ≤ g.startCustomData ∨ customEnd g ≤ start
  roots : ∀ p ∈ g.extraRoots, p + 8 ≤ start ∨ start + bytes ≤ p
  zone : ∀ w : Word, w.toNat % 2 = 0 → start ≤ w.toNat → w.toNat ≤ start + bytes → M.heapZone w = true

theorem Fresh.pos {M : Machine} {g : Globals} {start bytes : ℕ} (h : Fresh M g start bytes) : 0 < start := by
  refine Nat.pos_of_ne_zero fun hzero => ?_
  have hzone := h.zone 0 rfl (by rw [hzero]; exact Nat.le_refl 0) (Nat.zero_le _)
  rw [M.zone_null] at hzone
  cases hzone

section Roots

variable {zone : Word → Bool} {h h' : Heap} {roots roots' : List Word} {forward : Word → Word} {a : Word}

theorem live_mono (hr : ∀ w ∈ roots, (h w).isSome → w ∈ roots') (ha : Live h roots a) : Live h roots' a := by
  induction ha with
  | root hmem hsome => exact .root (hr _ hmem hsome) hsome
  | pointer _ ho hmem hsome ih => exact .pointer ih ho hmem hsome

/-- Only roots that are addresses of objects matter. -/
theorem relocates_congr (hr : ∀ w, (h w).isSome → (w ∈ roots ↔ w ∈ roots'))
    (hrel : Relocates zone h roots h' forward) : Relocates zone h roots' h' forward := by
  have hto : ∀ a, Live h roots' a → Live h roots a := fun a => live_mono fun w hw hsome => (hr w hsome).mpr hw
  refine ⟨fun a o ha ho => hrel.moved a o (hto a ha) ho, fun b hb => ?_,
    fun a b ha hb hab => hrel.injective a b (hto a ha) (hto b hb) hab, hrel.inZone, hrel.region⟩
  obtain ⟨a, ha, hab⟩ := hrel.only b hb
  exact ⟨a, live_mono (fun w hw hsome => (hr w hsome).mp hw) ha, hab⟩

end Roots

section Collected

variable {M : Machine} {s : State} {g : Globals} {os os' : List Obj} {p start size live : ℕ} {w : Word}
  {forward : Word → Word} {m' : ByteMemory}

/-- The words the collector scans are those of the state, and some that are no heap addresses. -/
theorem Represents.scanned_iff (h : Represents M s g os) (hs : Held M [] s) (htop : -1 ≤ s.top)
    (hw : (s.heap w).isSome) : w ∈ scannedWords g ↔ w ∈ rootWords M s := by
  rw [mem_rootWords]
  constructor
  · intro hmem
    obtain ⟨p, hp, rfl⟩ := List.mem_map.mp hmem
    rcases List.mem_append.mp hp with hp | hp
    · rcases List.mem_append.mp hp with hp | hp
      · obtain ⟨i, hlow, hhigh, rfl⟩ := (h.mem_scanned htop).mp hp
        exact .inl ⟨i, hlow, by omega, (h.stack i hhigh).symm⟩
      · obtain ⟨r, hr, hrp⟩ := h.root hp
        cases hrp with
        | @slot i _ hhigh => exact .inr (.inl ⟨i, hr, (h.stack i hhigh).symm⟩)
        | @cell id _ content _ hcontent =>
          rcases hcontent with hsame | ⟨hzone, -⟩
          · rw [hsame]
            exact .inr (.inr ⟨id, hr⟩)
          · rw [hs.heap.zone _ hw] at hzone
            cases hzone
    · have hzone := hs.heap.zone _ hw
      rw [h.placed.foreign p (List.mem_cons_of_mem _ hp)] at hzone
      cases hzone
  · intro hmem
    rcases hmem with ⟨i, hlow, hhigh, rfl⟩ | ⟨i, hi, rfl⟩ | ⟨id, hid⟩
    · obtain ⟨k, rfl⟩ : ∃ k : ℕ, i = k := ⟨i.toNat, by omega⟩
      refine List.mem_map.mpr ⟨slotAddress M k, ?_, h.stack k (by omega)⟩
      exact List.mem_append_left _ (List.mem_append_left _ ((h.mem_scanned htop).mpr ⟨k, hlow, by omega, rfl⟩))
    · obtain ⟨p, hp, hr⟩ := forall₂_mem_left h.roots hi
      cases hr with
      | @slot k _ hhigh =>
        refine List.mem_map.mpr ⟨_, ?_, h.stack k hhigh⟩
        exact List.mem_append_left _ (List.mem_append_right _ (List.mem_reverse.mp hp))
    · obtain ⟨p, hp, hr⟩ := forall₂_mem_left h.roots hid
      cases hr with
      | cell _ hcontent =>
        rcases hcontent with hsame | ⟨-, hzone⟩
        · refine List.mem_map.mpr ⟨_, ?_, hsame⟩
          exact List.mem_append_left _ (List.mem_append_right _ (List.mem_reverse.mp hp))
        · rw [hs.heap.zone _ hw] at hzone
          cases hzone

/-- A fresh region is apart from all words a collection rewrites. -/
theorem Represents.mapped (h : Represents M s g os) (htop : -1 ≤ s.top) {bytes : ℕ} (hfresh : Fresh M g start bytes) :
    Mapped M.heapZone g start bytes := by
  refine ⟨⟨hfresh.aligned, hfresh.lt.trans (by decide), hfresh.heap, fun p hp => ?_⟩, hfresh.zone⟩
  rcases List.mem_append.mp hp with hp | hp
  · rcases List.mem_append.mp hp with hp | hp
    · obtain ⟨i, -, hhigh, rfl⟩ := (h.mem_region htop).mp hp
      have hstack := hfresh.stack
      unfold slotAddress at *
      omega
    · exact hfresh.roots p (List.mem_of_mem_filter hp)
  · have hbounds := mem_custom hp
    have hcustom := hfresh.custom
    omega

/-- A word that is no heap address stays when words are relocated. -/
theorem relocateWord_of_zone {zone : Word → Bool} {h : Heap} (hw : zone w = false) :
    relocateWord zone h forward w = w := by
  rw [relocateWord, hw, Bool.false_and, if_neg Bool.false_ne_true]

/-- What a collection does to a slot of the stack, the word behind it included. -/
theorem Represents.slot_collected (h : Represents M s g os) (htop : -1 ≤ s.top)
    (hfresh : Fresh M g start (wordsToBytes size))
    (hc : Collected M.heapZone g os start size live forward os' m') {i : ℕ} (hi : i ≤ M.maxStack) :
    load64 m' (slotAddress M i) =
      if s.top < i then relocateWord M.heapZone s.heap forward (load64 g.mem (slotAddress M i))
      else load64 g.mem (slotAddress M i) := by
  by_cases hlow : s.top < i
  · rw [if_pos hlow, h.heap]
    exact hc.words _ (List.mem_append_left _ (List.mem_append_left _ ((h.mem_region htop).mpr ⟨i, hlow, hi, rfl⟩)))
  · rw [if_neg hlow]
    have hheap := h.placed.stack
    have hnew := hfresh.stack
    have hapart := h.placed.apart
    -- the words that are rewritten lie above the slot or outside the stack
    have hfixed : ∀ q ∈ fixedAddresses g, slotAddress M i + 8 ≤ q ∨ q + 8 ≤ slotAddress M i := by
      intro q hq
      rcases List.mem_append.mp hq with hq | hq
      · rcases List.mem_append.mp hq with hq | hq
        · obtain ⟨j, hj, -, rfl⟩ := (h.mem_region htop).mp hq
          unfold slotAddress
          omega
        · have hstack := (h.elsewhere htop hq).1.stack
          unfold slotAddress at *
          omega
      · have hbounds := mem_custom hq
        unfold slotAddress at *
        omega
    refine Copied.load64 fun k hk => hc.rest _ ?_ ?_ fun q hq => ?_
    · unfold slotAddress at *
      omega
    · unfold slotAddress at *
      omega
    · have := hfixed q hq
      omega

/-- What a collection does to a root elsewhere. -/
theorem Represents.cell_collected (h : Represents M s g os) (htop : -1 ≤ s.top)
    (hc : Collected M.heapZone g os start size live forward os' m') (hp : p ∈ g.extraRoots)
    (helse : Elsewhere M g p) :
    load64 m' p = relocateWord M.heapZone s.heap forward (load64 g.mem p) := by
  rw [h.heap]
  refine hc.words p (List.mem_append_left _ (List.mem_append_right _ (List.mem_filter.mpr ⟨hp, ?_⟩)))
  obtain ⟨r, -, hr⟩ := h.root hp
  rw [Bool.not_eq_true', Bool.eq_false_iff]
  intro hskip
  obtain ⟨i, hi, rfl⟩ := (hr.skips h.top h.placed.bottom htop).mp hskip
  have hstack := helse.stack
  unfold slotAddress at *
  omega

/-- A collection of the memory is one of the state. -/
theorem Represents.collected (h : Represents M s g os) (htop : -1 ≤ s.top)
    (hfresh : Fresh M g start (wordsToBytes size)) (hlive : live ≤ size)
    (hc : Collected M.heapZone g os start size live forward os' m') :
    Represents M (s.collected M (heapOf start os') forward (slackOf m')) { g with
      mem := m'
      heap := ⟨start, start + wordsToBytes size, start + wordsToBytes live, size⟩ } os' := by
  have hforeign : ∀ p ∈ g.stackBottom :: wordsBetween g.startCustomData g.stopCustomData,
      load64 m' p = load64 g.mem p := by
    intro p hp
    have hzone := h.placed.foreign p hp
    rcases List.mem_cons.mp hp with rfl | hp
    · rw [h.placed.bottom] at hzone ⊢
      rw [h.slot_collected htop hfresh hc (Nat.le_refl _), relocateWord_of_zone hzone, ite_self]
    · rw [hc.words p (List.mem_append_right _ hp), relocateWord_of_zone hzone]
  have hplaced : Placed M { g with
      mem := m'
      heap := ⟨start, start + wordsToBytes size, start + wordsToBytes live, size⟩ } := by
    refine ⟨⟨rfl, ?_⟩, hfresh.lt, fun w heven _ hlow hhigh => hfresh.zone w heven hlow hhigh, h.placed.bottom, ?_, ?_,
      h.placed.apart, fun p hp => ?_⟩
    · exact Nat.add_le_add_left (Nat.mul_le_mul_right _ hlive) _
    · have := hfresh.stack
      dsimp only
      omega
    · have := hfresh.custom
      unfold customEnd at *
      dsimp only
      omega
    · dsimp only at hp ⊢
      rw [hforeign p hp]
      exact h.placed.foreign p hp
  refine ⟨rfl, hc.heap, hc.clean, fun i hi => ?_, h.top, ?_, h.cells, hplaced, slackAt_slackOf⟩
  · have hslot := h.slot_collected htop hfresh hc (Nat.le_of_lt hi)
    rw [h.stack i hi] at hslot
    refine hslot.trans ?_
    show _ = if s.top < i ∧ (i : ℤ) < M.maxStack then _ else _
    by_cases hlow : s.top < i
    · rw [if_pos hlow, if_pos ⟨hlow, by omega⟩]
    · rw [if_neg hlow, if_neg fun hboth => hlow hboth.1]
  · refine forall₂_map_of_mem h.roots fun r p hp hr => ?_
    have hp := List.mem_reverse.mp hp
    cases hr with
    | slot hlow hhigh => exact .slot hlow hhigh
    | cell helse hcontent =>
      refine .cell ⟨helse.stack, helse.custom, hfresh.roots p hp⟩ ?_
      have hword := h.cell_collected htop hc hp helse
      dsimp only
      rcases hcontent with hsame | ⟨hzone, hzone'⟩
      · exact .inl (hword.trans (congrArg _ hsame))
      · rw [relocateWord_of_zone hzone] at hword
        rw [hword, relocateWord_of_zone hzone']
        exact .inr ⟨hzone, hzone'⟩

end Collected

end Gc
end LamaSM
