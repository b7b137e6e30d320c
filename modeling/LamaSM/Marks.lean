import LamaSM.Reading
import LamaSM.Lib.Worklist
import Mathlib.Data.List.Count

/-! `collect_marks` computes exactly the depths its own step relation reaches.

    `DepthStep` is that relation on pairs of an offset and a depth, `DepthReach` what it reaches
    from the main symbols at depth 0. One turn of the loop marks the successors of the instruction
    it handles (`visit_ok`), or has found a reason to reject (`visit_error`); the invariant and the
    bound on the number of turns follow by induction on the loop. -/

namespace LamaSM
open Lib

/-! ### The step relation -/

/-- The offsets control goes to after the instruction at `o`, each with its depth: `d'` is the depth
    after the instruction, a called function starts at 0. -/
def successorsOf (bf : Bytefile) (o nxt : ℕ) (type : InstructionType) (d' : ℤ) :
    Result (List (ℕ × ℤ)) :=
  match type with
  | .cjmpz | .cjmpnz => do
    let label ← bf.code32 (o + 1)
    return [(label, d'), (nxt, d')]
  | .call => do
    let label ← bf.code32 (o + 1)
    return [(label, 0), (nxt, d')]
  | .jmp => do
    let label ← bf.code32 (o + 1)
    return [(label, d')]
  | .end | .fail => return []
  | _ => return [(nxt, d')]

/-- The successors of an instruction reached at depth `d`, with the depth `get_new_stack` gives, read
    back as `int32_t`. -/
def successors (bf : Bytefile) (o : ℕ) (d : ℤ) : Result (List (ℕ × ℤ)) := do
  let (nxt, type) ← generalByterun bf o
  let newStack ← getNewStack bf (toU32 d) o type
  successorsOf bf o nxt type (toI32 newStack)

def DepthStep (bf : Bytefile) (a b : ℕ × ℤ) : Prop :=
  ∃ l, successors bf a.1 a.2 = .ok l ∧ b ∈ l

/-- The public symbols named main, at depth 0. -/
def DepthStart (bf : Bytefile) (a : ℕ × ℤ) : Prop :=
  a.2 = 0 ∧ ∃ i < bf.publicSymbolsNumber.toNat,
    bf.getPublicOffset i = .ok (a.1 : ℤ) ∧ bf.isMain i = .ok true

abbrev DepthReach (bf : Bytefile) : ℕ × ℤ → Prop := Reach (DepthStart bf) (DepthStep bf)

/-- The tests `collect_marks` makes on an instruction reached at depth `d`. -/
def Passes (bf : Bytefile) (a : ℕ × ℤ) : Prop :=
  ∃ nxt type n, generalByterun bf a.1 = .ok (nxt, type) ∧ checkArgNumber bf a.1 a.2 type = .ok () ∧
    getNewStack bf (toU32 a.2) a.1 type = .ok n ∧ 0 ≤ toI32 n

/-- The offset and the fixed operands of the instruction there lie inside the code. -/
def InsideCode (bf : Bytefile) (o : ℕ) : Prop :=
  (o : ℤ) < bf.codeSize ∧ ∀ t, bf.typeAt o = .ok t → (o : ℤ) + fixedLength t ≤ bf.codeSize

instance (bf : Bytefile) (o : ℕ) : Decidable (InsideCode bf o) :=
  match h : bf.typeAt o with
  | .ok t => decidable_of_iff ((o : ℤ) < bf.codeSize ∧ (o : ℤ) + fixedLength t ≤ bf.codeSize)
    (by simp [InsideCode, h])
  | .error _ => decidable_of_iff ((o : ℤ) < bf.codeSize) (by simp [InsideCode, h])

/-! ### Marking one offset -/

/-- The offset is marked with this depth. -/
def Marked (m : Marks) (a : ℕ × ℤ) : Prop := m.visited[a.1]? = some a.2 ∧ a.2 ≠ -1

/-- The offset is marked and its instruction has still to be handled. -/
def Pending (m : Marks) (cur : Option (ℕ × ℤ)) (a : ℕ × ℤ) : Prop :=
  Marked m a ∧ (a.1 ∈ m.labels ∨ cur = some a)

/-- Depths are -1 or a non-negative `int32_t`. -/
def Bounded (m : Marks) : Prop := ∀ v ∈ m.visited, -1 ≤ v ∧ v < 2 ^ 31

/-- The number of turns the loop can still make. -/
def turns (m : Marks) (cur : Option (ℕ × ℤ)) : ℕ :=
  2 * m.visited.count (-1) + 2 * m.labels.length + cur.toList.length

/-- Marking the offsets of `l`: marks are kept, each pair of `l` is marked, and what is newly
    marked is pending. -/
structure Marking (m m' : Marks) (cur : Option (ℕ × ℤ)) (l : List (ℕ × ℤ)) : Prop where
  length : m'.visited.length = m.visited.length
  keeps : ∀ a, Marked m a → Marked m' a
  marks : ∀ a ∈ l, Marked m' a
  only : ∀ a, Marked m' a → Marked m a ∨ (a ∈ l ∧ Pending m' cur a)
  labels : ∀ x ∈ m.labels, x ∈ m'.labels
  labels_only : ∀ x ∈ m'.labels, x ∈ m.labels ∨ ∃ d, Marked m' (x, d)
  /-- what is new on the queue, or handled next, was not marked before -/
  fresh : ∃ new : List ℕ, m'.labels ++ cur.toList.map Prod.fst = m.labels ++ new ∧ new.Nodup ∧
    ∀ x ∈ new, m.visited[x]? = some (-1) ∧ ∃ d, Marked m' (x, d)
  cur_mem : ∀ a, cur = some a → a ∈ l
  bounded : Bounded m'
  turns_le : turns m' cur ≤ turns m none

theorem Bounded.get {m : Marks} (hb : Bounded m) {x : ℕ} {v : ℤ} (h : m.visited[x]? = some v) :
    -1 ≤ v ∧ v < 2 ^ 31 := hb v (List.mem_of_getElem? h)

theorem Bounded.set {m : Marks} (hb : Bounded m) {x : ℕ} {d : ℤ} (h0 : 0 ≤ d) (h1 : d < 2 ^ 31)
    (labels : List ℕ) : Bounded { visited := m.visited.set x d, labels } := by
  intro v hv
  rcases List.mem_or_eq_of_mem_set hv with hv | rfl
  · exact hb v hv
  · omega

theorem marking_refl {m : Marks} (hb : Bounded m) {l : List (ℕ × ℤ)} (h : ∀ a ∈ l, Marked m a) :
    Marking m m none l :=
  ⟨rfl, fun _ h => h, h, fun _ h => .inl h, fun _ h => h, fun _ h => .inl h,
    ⟨[], rfl, List.nodup_nil, fun _ h => (nomatch h)⟩, fun _ h => (nomatch h), hb, Nat.le_refl _⟩

/-- Marking a fresh offset `x`, which is put on the queue or handled next. -/
theorem marking_set {m : Marks} (hb : Bounded m) {x : ℕ} {d : ℤ} {labels : List ℕ}
    {cur : Option (ℕ × ℤ)} (hx : m.visited[x]? = some (-1)) (h0 : 0 ≤ d) (h1 : d < 2 ^ 31)
    (hcur : labels = m.labels ++ [x] ∧ cur = none ∨ labels = m.labels ∧ cur = some (x, d)) :
    Marking m { visited := m.visited.set x d, labels } cur [(x, d)] := by
  obtain ⟨hlt, hget⟩ := List.getElem?_eq_some_iff.mp hx
  have hnew : Marked { visited := m.visited.set x d, labels } (x, d) := by
    refine ⟨?_, show d ≠ -1 by omega⟩
    simp [List.getElem?_set_self hlt]
  have hcount : (m.visited.set x d).count (-1) + 1 = m.visited.count (-1) := by
    have hpos : 0 < m.visited.count (-1) :=
      List.count_pos_iff.mpr (List.mem_of_getElem? hx)
    have hd : (d == -1) = false := by simp; omega
    rw [List.count_set hlt, hget, hd]
    simp only [beq_self_eq_true, if_true, Bool.false_eq_true, if_false]
    omega
  refine ⟨by simp, ?_, ?_, ?_, ?_, ?_, ⟨[x], ?_, by simp, fun y hy => ?_⟩, ?_,
    hb.set h0 h1 labels, ?_⟩
  · rintro ⟨y, v⟩ ⟨hy, hv⟩
    have hxy : x ≠ y := by rintro rfl; rw [hx] at hy; exact hv (by cases hy; rfl)
    exact ⟨by simpa [List.getElem?_set_ne hxy] using hy, hv⟩
  · intro a ha
    rw [List.mem_singleton.mp ha]
    exact hnew
  · rintro ⟨y, v⟩ ⟨hy, hv⟩
    by_cases hxy : x = y
    · subst hxy
      simp only [List.getElem?_set_self hlt, Option.some.injEq] at hy
      subst hy
      refine .inr ⟨List.mem_singleton.mpr rfl, hnew, ?_⟩
      rcases hcur with ⟨rfl, -⟩ | ⟨-, rfl⟩
      · exact .inl (by simp)
      · exact .inr rfl
    · simp only [List.getElem?_set_ne hxy] at hy
      exact .inl ⟨hy, hv⟩
  · intro y hy
    rcases hcur with ⟨rfl, -⟩ | ⟨rfl, -⟩
    · exact List.mem_append_left _ hy
    · exact hy
  · intro y hy
    rcases hcur with ⟨rfl, -⟩ | ⟨rfl, -⟩
    · rcases List.mem_append.mp hy with hy | hy
      · exact .inl hy
      · exact .inr ⟨d, by rw [List.mem_singleton.mp hy]; exact hnew⟩
    · exact .inl hy
  · rcases hcur with ⟨rfl, rfl⟩ | ⟨rfl, rfl⟩
    · exact List.append_nil _
    · rfl
  · rw [List.mem_singleton.mp hy]
    exact ⟨hx, d, hnew⟩
  · intro a ha
    rcases hcur with ⟨-, rfl⟩ | ⟨-, rfl⟩
    · cases ha
    · cases ha; exact List.mem_singleton.mpr rfl
  · rcases hcur with ⟨rfl, rfl⟩ | ⟨rfl, rfl⟩ <;> simp [turns] <;> omega

theorem Marking.trans {m m₁ m₂ : Marks} {cur : Option (ℕ × ℤ)} {l₁ l₂ : List (ℕ × ℤ)}
    (h₁ : Marking m m₁ none l₁) (h₂ : Marking m₁ m₂ cur l₂) : Marking m m₂ cur (l₁ ++ l₂) := by
  refine ⟨h₂.length.trans h₁.length, fun a ha => h₂.keeps a (h₁.keeps a ha), fun a ha => ?_,
    fun a ha => ?_, fun x hx => h₂.labels x (h₁.labels x hx), fun x hx => ?_, ?_,
    fun a ha => List.mem_append_right _ (h₂.cur_mem a ha), h₂.bounded,
    Nat.le_trans h₂.turns_le h₁.turns_le⟩
  · rcases List.mem_append.mp ha with ha | ha
    · exact h₂.keeps a (h₁.marks a ha)
    · exact h₂.marks a ha
  · rcases h₂.only a ha with ha' | ⟨hl, hp⟩
    · rcases h₁.only a ha' with h | ⟨hl, hp⟩
      · exact .inl h
      · refine .inr ⟨List.mem_append_left _ hl, ha, .inl ?_⟩
        rcases hp.2 with hp | hp
        · exact h₂.labels _ hp
        · cases hp
    · exact .inr ⟨List.mem_append_right _ hl, hp⟩
  · rcases h₂.labels_only x hx with hx | hx
    · exact (h₁.labels_only x hx).imp id fun ⟨d, hd⟩ => ⟨d, h₂.keeps _ hd⟩
    · exact .inr hx
  · obtain ⟨new₁, heq₁, hnodup₁, hnew₁⟩ := h₁.fresh
    obtain ⟨new₂, heq₂, hnodup₂, hnew₂⟩ := h₂.fresh
    have hunmarked : ∀ x ∈ new₂, ∀ d, ¬ Marked m₁ (x, d) := by
      rintro x hx d ⟨hget, hne⟩
      rw [show m₁.visited[x]? = _ from (hnew₂ x hx).1] at hget
      exact hne (Option.some.inj hget).symm
    refine ⟨new₁ ++ new₂, ?_, List.nodup_append.mpr ⟨hnodup₁, hnodup₂, ?_⟩, fun x hx => ?_⟩
    · rw [heq₂, ← List.append_assoc, ← heq₁, Option.toList_none, List.map_nil, List.append_nil]
    · rintro x hx _ hx' rfl
      obtain ⟨d, hd⟩ := (hnew₁ x hx).2
      exact hunmarked x hx' d hd
    · rcases List.mem_append.mp hx with hx | hx
      · obtain ⟨hget, d, hd⟩ := hnew₁ x hx
        exact ⟨hget, d, h₂.keeps _ hd⟩
      · obtain ⟨hget₁, hmarked⟩ := hnew₂ x hx
        obtain ⟨hlt, -⟩ := List.getElem?_eq_some_iff.mp hget₁
        rw [h₁.length] at hlt
        refine ⟨?_, hmarked⟩
        rw [List.getElem?_eq_getElem hlt]
        by_contra hne
        exact hunmarked x hx _ (h₁.keeps (x, m.visited[x])
          ⟨List.getElem?_eq_getElem hlt, fun h => hne (congrArg some h)⟩)

theorem performStep_ok {m m' : Marks} {x : ℕ} {d : ℤ} (hb : Bounded m) (h0 : 0 ≤ d)
    (h1 : d < 2 ^ 31) (h : performStep x (toU32 d) m = .ok m') : Marking m m' none [(x, d)] := by
  unfold performStep at h
  split at h
  · simp at h
  · rename_i v hv
    obtain ⟨hv0, hv1⟩ := hb.get hv
    split at h
    · rename_i hv'
      rw [toI32_toU32_of_range (by omega) h1] at h
      simp only [except_pure_ok] at h
      subst h
      exact marking_set hb (by rw [hv, hv']) h0 h1 (.inl ⟨rfl, rfl⟩)
    · rename_i hne
      split at h
      · simp at h
      · rename_i heq
        simp only [except_pure_ok] at h
        subst h
        have hvd : v = d := toU32_inj (by omega) hv1 (by omega) h1 (not_not.mp heq)
        subst hvd
        exact marking_refl hb fun a ha => by rw [List.mem_singleton.mp ha]; exact ⟨hv, hne⟩

theorem performStep_error {m : Marks} {x : ℕ} {d : ℤ} {e : Fault}
    (h : performStep x (toU32 d) m = .error e) :
    e ≠ .timeout ∧ (m.visited.length ≤ x ∨ ∃ v, Marked m (x, v) ∧ v ≠ d) := by
  unfold performStep at h
  split at h
  · rename_i hv
    simp only [except_throw_error] at h
    subst h
    exact ⟨by simp, .inl (List.getElem?_eq_none_iff.mp hv)⟩
  · rename_i v hv
    split at h
    · simp at h
    · rename_i hne
      split at h
      · rename_i hd
        simp only [except_throw_error] at h
        subst h
        exact ⟨by simp, .inr ⟨v, ⟨hv, hne⟩, fun h => hd (by rw [h])⟩⟩
      · simp at h

theorem fallThrough_ok {m m' : Marks} {cur : Option (ℕ × ℤ)} {x : ℕ} {d : ℤ} (hb : Bounded m)
    (h0 : 0 ≤ d) (h1 : d < 2 ^ 31) (h : fallThrough x d m = .ok (m', cur)) :
    Marking m m' cur [(x, d)] := by
  unfold fallThrough at h
  split at h
  · simp at h
  · rename_i v hv
    split at h
    · rename_i hv'
      simp only [except_pure_ok, Prod.mk.injEq] at h
      obtain ⟨rfl, rfl⟩ := h
      exact marking_set hb (by rw [hv, hv']) h0 h1 (.inr ⟨rfl, rfl⟩)
    · rename_i hne
      split at h
      · simp at h
      · rename_i heq
        simp only [except_pure_ok, Prod.mk.injEq] at h
        obtain ⟨rfl, rfl⟩ := h
        exact marking_refl hb fun a ha => by
          rw [List.mem_singleton.mp ha]; exact ⟨by rw [hv, not_not.mp heq], by omega⟩

theorem fallThrough_error {m : Marks} {x : ℕ} {d : ℤ} {e : Fault}
    (h : fallThrough x d m = .error e) :
    e ≠ .timeout ∧ (m.visited.length ≤ x ∨ ∃ v, Marked m (x, v) ∧ v ≠ d) := by
  unfold fallThrough at h
  split at h
  · rename_i hv
    simp only [except_throw_error] at h
    subst h
    exact ⟨by simp, .inl (List.getElem?_eq_none_iff.mp hv)⟩
  · rename_i v hv
    split at h
    · simp at h
    · rename_i hne
      split at h
      · rename_i hd
        simp only [except_throw_error] at h
        subst h
        exact ⟨by simp, .inr ⟨v, ⟨hv, hne⟩, hd⟩⟩
      · simp at h

/-! ### One turn of the loop -/

section MarkSuccessors

variable {bf : Bytefile} {o nxt : ℕ} {type : InstructionType} {d : ℤ} {m : Marks}

theorem markSuccessors_ok {m' : Marks} {cur : Option (ℕ × ℤ)} (hb : Bounded m) (h0 : 0 ≤ d)
    (h1 : d < 2 ^ 31) (hr : type ≠ .ret)
    (h : markSuccessors bf o nxt type d m = .ok (m', cur)) :
    ∃ l, successorsOf bf o nxt type d = .ok l ∧ Marking m m' cur l := by
  cases type
  case cjmpz | cjmpnz =>
    simp only [markSuccessors, except_bind_ok, except_pure_ok, Prod.mk.injEq] at h
    obtain ⟨label, hl, m₁, hs₁, m₂, hs₂, rfl, rfl⟩ := h
    have hm₁ := performStep_ok hb h0 h1 hs₁
    exact ⟨[(label, d), (nxt, d)], by rw [successorsOf, hl]; rfl,
      hm₁.trans (performStep_ok hm₁.bounded h0 h1 hs₂)⟩
  case call =>
    simp only [markSuccessors, except_bind_ok, except_pure_ok, Prod.mk.injEq] at h
    obtain ⟨label, hl, m₁, hs₁, m₂, hs₂, rfl, rfl⟩ := h
    have hm₁ := performStep_ok (d := 0) hb (by omega) (by omega) hs₁
    exact ⟨[(label, 0), (nxt, d)], by rw [successorsOf, hl]; rfl,
      hm₁.trans (performStep_ok hm₁.bounded h0 h1 hs₂)⟩
  case jmp =>
    simp only [markSuccessors, except_bind_ok, except_pure_ok, Prod.mk.injEq] at h
    obtain ⟨label, hl, m₁, hs₁, rfl, rfl⟩ := h
    exact ⟨[(label, d)], by rw [successorsOf, hl]; rfl, performStep_ok hb h0 h1 hs₁⟩
  case «end» | fail =>
    simp only [markSuccessors, except_pure_ok, Prod.mk.injEq] at h
    obtain ⟨rfl, rfl⟩ := h
    exact ⟨[], rfl, marking_refl hb fun a ha => by cases ha⟩
  case ret => exact absurd rfl hr
  all_goals exact ⟨[(nxt, d)], rfl, fallThrough_ok hb h0 h1 h⟩

/-- The successor `a` cannot be marked: its offset is outside, or another depth is already there. -/
def Clash (m : Marks) (l : List (ℕ × ℤ)) (a : ℕ × ℤ) : Prop :=
  m.visited.length ≤ a.1 ∨ ∃ v, (Marked m (a.1, v) ∨ (a.1, v) ∈ l) ∧ v ≠ a.2

/-- Two successors that are marked one after the other: a failure is a clash of one of them. -/
theorem performSteps_error {x y : ℕ} {c : ℤ} {e : Fault} (hb : Bounded m) (hc0 : 0 ≤ c)
    (hc1 : c < 2 ^ 31)
    (h : (do let m ← performStep x (toU32 c) m
             let m ← performStep y (toU32 d) m
             return (m, (none : Option (ℕ × ℤ)))) = .error e) :
    e ≠ .timeout ∧ ∃ a ∈ [(x, c), (y, d)], Clash m [(x, c), (y, d)] a := by
  rcases except_bind_error.mp h with h | ⟨m₁, hs, h⟩
  · obtain ⟨he, hv⟩ := performStep_error h
    refine ⟨he, (x, c), by simp, hv.imp id ?_⟩
    rintro ⟨v, hv, hne⟩
    exact ⟨v, .inl hv, hne⟩
  · have hm₁ := performStep_ok hb hc0 hc1 hs
    rcases except_bind_error.mp h with h | ⟨m₂, -, h⟩
    · obtain ⟨he, hv⟩ := performStep_error h
      refine ⟨he, (y, d), by simp, ?_⟩
      rw [hm₁.length] at hv
      refine hv.imp id ?_
      rintro ⟨v, hv, hne⟩
      refine ⟨v, ?_, hne⟩
      rcases hm₁.only _ hv with hv | ⟨hv, -⟩
      · exact .inl hv
      · exact .inr (List.mem_append_left [(y, d)] hv)
    · simp at h

theorem markSuccessors_error {e : Fault} (hb : Bounded m) (h0 : 0 ≤ d) (h1 : d < 2 ^ 31)
    (h : markSuccessors bf o nxt type d m = .error e) :
    e ≠ .timeout ∧ ((5 ≤ fixedLength type ∧ ∃ e', bf.code32 (o + 1) = .error e') ∨
      ∃ l, successorsOf bf o nxt type d = .ok l ∧ ∃ a ∈ l, Clash m l a) := by
  cases type
  case cjmpz | cjmpnz =>
    rcases except_bind_error.mp h with h | ⟨label, hl, h⟩
    · exact ⟨fun he => noTimeout_code32 bf _ (he ▸ h), .inl ⟨by decide, e, h⟩⟩
    · obtain ⟨he, ha⟩ := performSteps_error hb h0 h1 h
      exact ⟨he, .inr ⟨_, by rw [successorsOf, hl]; rfl, ha⟩⟩
  case call =>
    rcases except_bind_error.mp h with h | ⟨label, hl, h⟩
    · exact ⟨fun he => noTimeout_code32 bf _ (he ▸ h), .inl ⟨by decide, e, h⟩⟩
    · obtain ⟨he, ha⟩ := performSteps_error (c := 0) hb (by omega) (by omega) h
      exact ⟨he, .inr ⟨_, by rw [successorsOf, hl]; rfl, ha⟩⟩
  case jmp =>
    rcases except_bind_error.mp h with h | ⟨label, hl, h⟩
    · exact ⟨fun he => noTimeout_code32 bf _ (he ▸ h), .inl ⟨by decide, e, h⟩⟩
    · rcases except_bind_error.mp h with h | ⟨m₁, -, h⟩
      · obtain ⟨he, hv⟩ := performStep_error h
        refine ⟨he, .inr ⟨[(label, d)], by rw [successorsOf, hl]; rfl, (label, d), by simp, ?_⟩⟩
        exact hv.imp id fun ⟨v, hv, hne⟩ => ⟨v, .inl hv, hne⟩
      · simp at h
  case «end» | fail | ret => simp [markSuccessors] at h
  all_goals
    obtain ⟨he, hv⟩ := fallThrough_error h
    refine ⟨he, .inr ⟨[(nxt, d)], rfl, (nxt, d), by simp, ?_⟩⟩
    exact hv.imp id fun ⟨v, hv, hne⟩ => ⟨v, .inl hv, hne⟩

end MarkSuccessors

section Visit

variable {bf : Bytefile} {o : ℕ} {d : ℤ} {m : Marks}

theorem visit_ok {m' : Marks} {cur : Option (ℕ × ℤ)} (hb : Bounded m)
    (h : visitInstruction bf o d m = .ok (m', cur)) :
    Passes bf (o, d) ∧ ∃ l, successors bf o d = .ok l ∧ Marking m m' cur l := by
  simp only [visitInstruction, except_bind_ok] at h
  obtain ⟨⟨nxt, type⟩, hg, ⟨⟩, hc, n, hn, h⟩ := h
  split at h
  · simp at h
  · rename_i hneg
    have h0 : 0 ≤ toI32 n := by omega
    have hr : type ≠ .ret := by rintro rfl; simp [getNewStack] at hn
    refine ⟨⟨nxt, type, n, hg, hc, hn, h0⟩, ?_⟩
    simp only [successors, hg, hn, except_ok_bind]
    exact markSuccessors_ok hb h0 (toI32_lt n) hr h

/-- A turn fails only for a reason to reject: a test fails, the label operand cannot be read, or a
    successor clashes. -/
theorem visit_error {e : Fault} (hb : Bounded m) (h : visitInstruction bf o d m = .error e) :
    e ≠ .timeout ∧ (Passes bf (o, d) →
      (∃ t e', bf.typeAt o = .ok t ∧ 5 ≤ fixedLength t ∧ bf.code32 (o + 1) = .error e') ∨
      ∃ l, successors bf o d = .ok l ∧ ∃ a ∈ l, Clash m l a) := by
  rcases except_bind_error.mp h with h | ⟨⟨nxt, type⟩, hg, h⟩
  · refine ⟨fun he => noTimeout_generalByterun bf o (he ▸ h), ?_⟩
    rintro ⟨nxt, t, n, hg, -⟩
    rw [hg] at h
    cases h
  rcases except_bind_error.mp h with h | ⟨⟨⟩, hc, h⟩
  · refine ⟨fun he => noTimeout_checkArgNumber bf o d type (he ▸ h), ?_⟩
    rintro ⟨_, _, n, hg', hc, -⟩
    rw [hg] at hg'
    cases hg'
    rw [hc] at h
    cases h
  rcases except_bind_error.mp h with h | ⟨n, hn, h⟩
  · refine ⟨fun he => noTimeout_getNewStack bf _ o type (he ▸ h), ?_⟩
    rintro ⟨_, _, n, hg', -, hn, -⟩
    rw [hg] at hg'
    cases hg'
    rw [hn] at h
    cases h
  dsimp only at h
  split at h
  · rename_i hneg
    refine ⟨by cases h; simp, ?_⟩
    rintro ⟨_, _, n', hg', -, hn', h0⟩
    rw [hg] at hg'
    cases hg'
    rw [hn] at hn'
    cases hn'
    omega
  · rename_i hneg
    obtain ⟨he, hw⟩ := markSuccessors_error hb (by omega) (toI32_lt n) h
    refine ⟨he, fun _ => hw.imp ?_ ?_⟩
    · rintro ⟨hf, e', hl⟩
      exact ⟨type, e', (generalByterun_typeAt hg).1, hf, hl⟩
    · rintro ⟨l, hl, ha⟩
      exact ⟨l, by simp only [successors, hg, hn, except_ok_bind]; exact hl, ha⟩

end Visit

/-! ### The loop -/

section Loop

variable {bf : Bytefile} {pick : List ℕ → List ℕ}

/-- The loop invariant. -/
structure MarksInv (bf : Bytefile) (m : Marks) (cur : Option (ℕ × ℤ)) : Prop where
  length : (m.visited.length : ℤ) = bf.codeSize
  bounded : Bounded m
  worklist : WorklistInv (DepthStart bf) (DepthStep bf) (Passes bf) (Marked m) (Pending m cur)
  labels : ∀ x ∈ m.labels, ∃ d, Marked m (x, d)
  cur_marked : ∀ a, cur = some a → Marked m a
  start : ∀ a, DepthStart bf a → Marked m a

theorem DepthStep.of_mem {o : ℕ} {d : ℤ} {l : List (ℕ × ℤ)} {a : ℕ × ℤ}
    (hl : successors bf o d = .ok l) : DepthStep bf (o, d) a ↔ a ∈ l := by
  constructor
  · rintro ⟨l', hl', ha⟩
    rw [hl] at hl'
    cases hl'
    exact ha
  · exact fun ha => ⟨l, hl, ha⟩

/-- A turn at an instruction keeps the invariant. -/
theorem MarksInv.visit {o : ℕ} {d : ℤ} {m m' : Marks} {cur : Option (ℕ × ℤ)}
    (hinv : MarksInv bf m (some (o, d))) (h : visitInstruction bf o d m = .ok (m', cur)) :
    MarksInv bf m' cur ∧ turns m' cur < turns m (some (o, d)) := by
  obtain ⟨hp, l, hl, hm⟩ := visit_ok hinv.bounded h
  have hcur : ∀ a, cur = some a → Marked m' a := fun a ha => hm.marks a (hm.cur_mem a ha)
  refine ⟨⟨by rw [hm.length]; exact hinv.length, hm.bounded,
    hinv.worklist.visit (a := (o, d)) ⟨hinv.cur_marked _ rfl, .inr rfl⟩ ?_, fun x hx => ?_, hcur,
    fun a ha => hm.keeps a (hinv.start a ha)⟩, ?_⟩
  · refine ⟨hm.keeps, fun b hb => hm.marks b ((DepthStep.of_mem hl).mp hb), fun b hb => ?_,
      fun b hb => ?_, fun b hb => hb.1, hp⟩
    · exact (hm.only b hb).imp id fun ⟨hb, hpb⟩ => ⟨(DepthStep.of_mem hl).mpr hb, hpb⟩
    · rcases hb.2 with hx | hx
      · exact .inr ⟨hm.keeps b hb.1, .inl (hm.labels _ hx)⟩
      · exact .inl (Option.some.inj hx).symm
  · rcases hm.labels_only x hx with hx | hx
    · obtain ⟨v, hv⟩ := hinv.labels x hx
      exact ⟨v, hm.keeps _ hv⟩
    · exact hx
  · have h1 : turns m (some (o, d)) = turns m none + 1 := by simp [turns]
    have h2 := hm.turns_le
    omega

/-- Taking a label from the queue keeps the invariant. -/
theorem MarksInv.pop {o : ℕ} {d : ℤ} {m : Marks} {rest : List ℕ} (hinv : MarksInv bf m none)
    (hperm : (o :: rest).Perm m.labels) (hd : m.visited[o]? = some d) :
    MarksInv bf { m with labels := rest } (some (o, d)) ∧
      turns { m with labels := rest } (some (o, d)) < turns m none := by
  have hmem : ∀ x, x ∈ m.labels ↔ x = o ∨ x ∈ rest := fun x => by
    rw [← hperm.mem_iff, List.mem_cons]
  obtain ⟨v, hv, hne⟩ := hinv.labels o ((hmem o).mpr (.inl rfl))
  have hvd : v = d := by rw [show m.visited[o]? = some v from hv] at hd; exact Option.some.inj hd
  have ho : Marked m (o, d) := ⟨hd, hvd ▸ hne⟩
  have hpend : ∀ a, Pending m none a → Pending { m with labels := rest } (some (o, d)) a := by
    rintro ⟨x, w⟩ ⟨hx, hx' | hx'⟩
    · rcases (hmem x).mp hx' with rfl | hr
      · have hw : w = d := by
          have := hx.1
          simp only [hd, Option.some.injEq] at this
          exact this.symm
        exact ⟨hx, .inr (by rw [hw])⟩
      · exact ⟨hx, .inl hr⟩
    · cases hx'
  refine ⟨⟨hinv.length, hinv.bounded, ⟨hinv.worklist.reach, fun a ha => ha.1, fun a ha => ?_⟩,
    fun x hx => hinv.labels x ((hmem x).mpr (.inr hx)),
    fun a ha => by cases ha; exact ho, hinv.start⟩, ?_⟩
  · exact (hinv.worklist.closed a ha).imp (hpend a) id
  · have hlen := hperm.length_eq
    simp only [List.length_cons] at hlen
    simp only [turns, Option.toList_some, Option.toList_none, List.length_cons, List.length_nil]
    omega

/-- A run of the loop that returns has exactly the reachable pairs marked, and all of them passed
    the tests. -/
theorem marksLoop_ok (hpick : ∀ l, (pick l).Perm l) :
    ∀ (fuel : ℕ) (m : Marks) (cur : Option (ℕ × ℤ)) {v : List ℤ}, MarksInv bf m cur →
      marksLoop pick bf fuel m cur = .ok v →
      ∃ m', v = m'.visited ∧ MarksInv bf m' none ∧ m'.labels = []
  | 0, _, _, _, _, h => by simp [marksLoop] at h
  | fuel + 1, m, some (o, d), v, hinv, h => by
    simp only [marksLoop, except_bind_ok] at h
    obtain ⟨⟨m', cur⟩, hv, h⟩ := h
    exact marksLoop_ok hpick fuel m' cur (hinv.visit hv).1 h
  | fuel + 1, m, none, v, hinv, h => by
    rw [marksLoop] at h
    split at h
    · rename_i hnil
      have hl : m.labels = [] := List.Perm.nil_eq (hnil ▸ hpick m.labels) |>.symm
      exact ⟨m, (except_pure_ok.mp h).symm, hinv, hl⟩
    · rename_i o rest hcons
      split at h
      · simp at h
      · rename_i d hd
        exact marksLoop_ok hpick fuel _ _ (hinv.pop (hcons ▸ hpick m.labels) hd).1 h

/-- The loop ends within the turns counted by `turns`. -/
theorem marksLoop_noTimeout (hpick : ∀ l, (pick l).Perm l) :
    ∀ (fuel : ℕ) (m : Marks) (cur : Option (ℕ × ℤ)), MarksInv bf m cur → turns m cur < fuel →
      NoTimeout (marksLoop pick bf fuel m cur)
  | 0, _, _, _, hlt => absurd hlt (Nat.not_lt_zero _)
  | fuel + 1, m, some (o, d), hinv, hlt => by
    intro h
    rcases except_bind_error.mp h with h | ⟨⟨m', cur⟩, hv, h⟩
    · exact (visit_error hinv.bounded h).1 rfl
    · obtain ⟨hinv', hlt'⟩ := hinv.visit hv
      exact marksLoop_noTimeout hpick fuel m' cur hinv' (by omega) h
  | fuel + 1, m, none, hinv, hlt => by
    intro h
    rw [marksLoop] at h
    split at h
    · simp at h
    · rename_i o rest hcons
      split at h
      · simp at h
      · rename_i d hd
        obtain ⟨hinv', hlt'⟩ := hinv.pop (hcons ▸ hpick m.labels) hd
        exact marksLoop_noTimeout hpick fuel _ _ hinv' (by omega) h

/-- A reason to reject: a reachable pair fails a test, or one offset is reachable at two depths. -/
def Rejectable (bf : Bytefile) : Prop :=
  (∃ a, DepthReach bf a ∧ ¬ Passes bf a) ∨
    ∃ o d d', DepthReach bf (o, d) ∧ DepthReach bf (o, d') ∧ d ≠ d'

/-- A turn that fails has found a reason to reject. -/
theorem MarksInv.rejectable {o : ℕ} {d : ℤ} {m : Marks} {e : Fault} (hmap : bf.CodeMapped)
    (hin : ∀ a, DepthReach bf a → InsideCode bf a.1) (hinv : MarksInv bf m (some (o, d)))
    (h : visitInstruction bf o d m = .error e) : Rejectable bf := by
  have hreach := hinv.worklist.reach _ (hinv.cur_marked _ rfl)
  by_cases hp : Passes bf (o, d)
  · rcases (visit_error hinv.bounded h).2 hp with ⟨t, e', ht, hf, hl⟩ | ⟨l, hl, a, ha, hc⟩
    · have hlt := (hin _ hreach).2 t ht
      obtain ⟨w, hw⟩ := Bytefile.code32_of_lt hmap (o := (o : ℤ) + 1) (by omega) (by simp at hlt; omega)
      rw [hw] at hl
      cases hl
    · have hra : DepthReach bf a := .step hreach ((DepthStep.of_mem hl).mpr ha)
      rcases hc with hlen | ⟨v, hv, hne⟩
      · have := (hin a hra).1
        have := hinv.length
        omega
      · refine .inr ⟨a.1, v, a.2, ?_, hra, hne⟩
        rcases hv with hv | hv
        · exact hinv.worklist.reach _ hv
        · exact .step hreach ((DepthStep.of_mem hl).mpr hv)
  · exact .inl ⟨_, hreach, hp⟩

theorem marksLoop_error (hmap : bf.CodeMapped) (hin : ∀ a, DepthReach bf a → InsideCode bf a.1)
    (hpick : ∀ l, (pick l).Perm l) :
    ∀ (fuel : ℕ) (m : Marks) (cur : Option (ℕ × ℤ)) {e : Fault}, MarksInv bf m cur →
      marksLoop pick bf fuel m cur = .error e → e = .timeout ∨ Rejectable bf
  | 0, _, _, _, _, h => by rw [marksLoop] at h; exact .inl (except_throw_error.mp h).symm
  | fuel + 1, m, some (o, d), e, hinv, h => by
    rcases except_bind_error.mp h with h | ⟨⟨m', cur⟩, hv, h⟩
    · exact .inr (hinv.rejectable hmap hin h)
    · exact marksLoop_error hmap hin hpick fuel m' cur (hinv.visit hv).1 h
  | fuel + 1, m, none, e, hinv, h => by
    rw [marksLoop] at h
    split at h
    · simp at h
    · rename_i o rest hcons
      split at h
      · rename_i hnone
        have ho : o ∈ m.labels := (hpick m.labels).mem_iff.mp (by rw [hcons]; exact List.mem_cons_self)
        obtain ⟨d, hd, -⟩ := hinv.labels o ho
        rw [show m.visited[o]? = some d from hd] at hnone
        cases hnone
      · rename_i d hd
        exact marksLoop_error hmap hin hpick fuel _ _ (hinv.pop (hcons ▸ hpick m.labels) hd).1 h

end Loop

/-! ### The start symbols -/

section Seed

variable {bf : Bytefile}

/-- The first loop marks exactly the main symbols it passes, at depth 0. -/
theorem seedMarks_ok : ∀ (is : List ℕ) (m : Marks) {m' : Marks}, Bounded m →
    (∀ a, Marked m a → a.2 = 0) → seedMarks bf is m = .ok m' →
    ∃ l, Marking m m' none l ∧ ∀ a, a ∈ l ↔ a.2 = 0 ∧ ∃ i ∈ is,
      bf.getPublicOffset i = .ok (a.1 : ℤ) ∧ bf.isMain i = .ok true
  | [], m, m', hb, _, h => by
    rw [seedMarks, except_pure_ok] at h
    subst h
    exact ⟨[], marking_refl hb fun a ha => (nomatch ha), fun a => by simp⟩
  | i :: is, m, m', hb, h0, h => by
    simp only [seedMarks, except_bind_ok] at h
    obtain ⟨x, hx, main, hmain, h⟩ := h
    have next : ∀ (m₁ : Marks) (l₁ : List (ℕ × ℤ)), Marking m m₁ none l₁ →
        (∀ a, a ∈ l₁ ↔ a.2 = 0 ∧ (a.1 : ℤ) = x ∧ main = true) → seedMarks bf is m₁ = .ok m' →
        ∃ l, Marking m m' none l ∧ ∀ a, a ∈ l ↔ a.2 = 0 ∧ ∃ j ∈ i :: is,
          bf.getPublicOffset j = .ok (a.1 : ℤ) ∧ bf.isMain j = .ok true := by
      intro m₁ l₁ hm₁ hl₁ hs
      obtain ⟨l, hm, hl⟩ := seedMarks_ok is m₁ hm₁.bounded (fun a ha => by
        rcases hm₁.only a ha with ha | ⟨ha, -⟩
        · exact h0 a ha
        · exact ((hl₁ a).mp ha).1) hs
      refine ⟨l₁ ++ l, hm₁.trans hm, fun a => ?_⟩
      rw [List.mem_append, hl₁, hl]
      simp only [List.mem_cons, exists_eq_or_imp, hx, hmain, Except.ok.injEq]
      tauto
    split at h
    · rename_i hn
      exact next m [] (marking_refl hb fun a ha => (nomatch ha))
        (by simp [show main = false by simpa using hn]) h
    · rename_i hn
      have hmt : main = true := by simpa using hn
      split at h
      · simp at h
      · rename_i hneg
        have hsingle : ∀ a : ℕ × ℤ, a ∈ [(x.toNat, (0 : ℤ))] ↔
            a.2 = 0 ∧ (a.1 : ℤ) = x ∧ main = true := by
          rintro ⟨y, d⟩
          simp only [List.mem_singleton, Prod.mk.injEq, hmt, and_true]
          omega
        split at h
        · simp at h
        · rename_i v hv
          split at h
          · rename_i hv'
            refine next _ _ (marking_set hb (by rw [hv, hv']) (by omega) (by omega)
              (.inl ⟨rfl, rfl⟩)) hsingle h
          · rename_i hne
            have hv0 : v = 0 := h0 (x.toNat, v) ⟨hv, hne⟩
            refine next m _ (marking_refl hb fun a ha => ?_) hsingle h
            rw [List.mem_singleton.mp ha]
            exact ⟨by rw [hv, hv0], by omega⟩

/-- The state before the first loop. -/
def noMarks (bf : Bytefile) : Marks :=
  { visited := List.replicate bf.codeSize.toNat (-1), labels := [] }

theorem not_marked_noMarks (a : ℕ × ℤ) : ¬ Marked (noMarks bf) a := by
  rintro ⟨h, hne⟩
  exact hne (List.eq_of_mem_replicate (List.mem_of_getElem? h))

theorem bounded_noMarks : Bounded (noMarks bf) := fun v hv => by
  have := List.eq_of_mem_replicate hv
  omega

/-- After the first loop the invariant holds. -/
theorem seedMarks_inv (hsize : 0 ≤ bf.codeSize) {m : Marks}
    (h : seedMarks bf (List.range bf.publicSymbolsNumber.toNat) (noMarks bf) = .ok m) :
    MarksInv bf m none ∧ turns m none ≤ 2 * bf.codeSize.toNat := by
  obtain ⟨l, hm, hl⟩ := seedMarks_ok _ _ bounded_noMarks
    (fun a ha => absurd ha (not_marked_noMarks a)) h
  have hstart : ∀ a, a ∈ l ↔ DepthStart bf a := fun a => by
    rw [hl, DepthStart]
    simp only [List.mem_range]
  have honly : ∀ a, Marked m a → a ∈ l ∧ Pending m none a := fun a ha =>
    (hm.only a ha).resolve_left (not_marked_noMarks a)
  refine ⟨⟨?_, hm.bounded, ⟨fun a ha => .start ((hstart a).mp (honly a ha).1), fun a ha => ha.1,
    fun a ha => .inl (honly a ha).2⟩, fun x hx => ?_, fun a ha => (nomatch ha),
    fun a ha => hm.marks a ((hstart a).mpr ha)⟩, ?_⟩
  · rw [hm.length, noMarks, List.length_replicate]
    omega
  · exact (hm.labels_only x hx).resolve_left (fun h => (nomatch h))
  · have := hm.turns_le
    simp only [turns, noMarks, List.count_replicate_self, List.length_nil, Option.toList_none] at this
    simpa [turns] using this

/-- Everything `collect_marks` reaches lies inside: the public table and its names can be read, and
    so can every offset of the code it gets to, with its operands. -/
structure ReachesInside (bf : Bytefile) : Prop where
  size : 0 ≤ bf.codeSize
  mapped : bf.CodeMapped
  publics : ∀ i < bf.publicSymbolsNumber.toNat,
    (∃ x, bf.getPublicOffset i = .ok x) ∧ ∃ b, bf.isMain i = .ok b
  mains : ∀ i < bf.publicSymbolsNumber.toNat, ∀ x, bf.getPublicOffset i = .ok x →
    bf.isMain i = .ok true → 0 ≤ x
  reached : ∀ a, DepthReach bf a → InsideCode bf a.1

theorem seedMarks_noTimeout : ∀ (is : List ℕ) (m : Marks), NoTimeout (seedMarks bf is m)
  | [], _ => noTimeout_pure _
  | i :: is, m => by
    refine noTimeout_bind (noTimeout_publicWord bf _) fun x =>
      noTimeout_bind (noTimeout_isMain bf i) fun main => ?_
    split
    · exact seedMarks_noTimeout is m
    · split
      · exact noTimeout_throw (by simp)
      · split
        · exact noTimeout_throw (by simp)
        · split <;> exact seedMarks_noTimeout is _

/-- With everything inside, the first loop returns. -/
theorem seedMarks_returns (hin : ReachesInside bf) : ∀ (is : List ℕ) (m : Marks),
    (∀ i ∈ is, i < bf.publicSymbolsNumber.toNat) → (m.visited.length : ℤ) = bf.codeSize →
    ∃ m', seedMarks bf is m = .ok m'
  | [], m, _, _ => ⟨m, rfl⟩
  | i :: is, m, hmem, hlen => by
    have hi := hmem i List.mem_cons_self
    obtain ⟨⟨x, hx⟩, main, hmain⟩ := hin.publics i hi
    have hmem' : ∀ j ∈ is, j < bf.publicSymbolsNumber.toNat :=
      fun j hj => hmem j (List.mem_cons_of_mem i hj)
    simp only [seedMarks, hx, hmain, except_ok_bind]
    cases main with
    | false => exact seedMarks_returns hin is m hmem' hlen
    | true =>
      have h0 := hin.mains i hi x hx hmain
      have hlt := (hin.reached (x.toNat, 0) (.start ⟨rfl, i, hi,
        by rw [hx, Int.toNat_of_nonneg h0], hmain⟩)).1
      rw [if_neg (by simp), if_neg (by omega), List.getElem?_eq_getElem (by omega)]
      dsimp only
      split
      · exact seedMarks_returns hin is _ hmem' (by simpa using hlen)
      · exact seedMarks_returns hin is m hmem' hlen

end Seed

/-! ### The result -/

section Exact

variable {bf : Bytefile} {pick : List ℕ → List ℕ}

theorem collectMarksBy_eq (hsize : 0 ≤ bf.codeSize) : collectMarksBy pick bf =
    (seedMarks bf (List.range bf.publicSymbolsNumber.toNat) (noMarks bf) >>= fun m =>
      marksLoop pick bf (2 * bf.codeSize.toNat + 1) m none) := by
  rw [collectMarksBy, if_neg (by omega)]
  rfl

theorem collectMarksBy_noTimeout (hpick : ∀ l, (pick l).Perm l) :
    NoTimeout (collectMarksBy pick bf) := by
  by_cases hsize : 0 ≤ bf.codeSize
  · rw [collectMarksBy_eq hsize]
    intro h
    rcases except_bind_error.mp h with h | ⟨m, hs, h⟩
    · exact seedMarks_noTimeout _ _ h
    · obtain ⟨hinv, hlt⟩ := seedMarks_inv hsize hs
      exact marksLoop_noTimeout hpick _ m none hinv (by omega) h
  · rw [collectMarksBy, if_pos (by omega)]
    exact noTimeout_throw (by simp)

/-- Whenever `collect_marks` returns, what it has marked is what its step relation reaches, every
    reached instruction passed the tests, and the depths are unique and not negative. -/
structure MarksExact (bf : Bytefile) (visited : List ℤ) : Prop where
  length : (visited.length : ℤ) = bf.codeSize
  marked : ∀ o d, visited[o]? = some d ∧ d ≠ -1 ↔ DepthReach bf (o, d)
  passes : ∀ a, DepthReach bf a → Passes bf a
  nonneg : ∀ a, DepthReach bf a → 0 ≤ a.2 ∧ a.2 < 2 ^ 31

theorem MarksExact.unique {v : List ℤ} (hv : MarksExact bf v) {o : ℕ} {d d' : ℤ}
    (h : DepthReach bf (o, d)) (h' : DepthReach bf (o, d')) : d = d' := by
  have h1 := ((hv.marked o d).mpr h).1
  rw [((hv.marked o d').mpr h').1] at h1
  exact (Option.some.inj h1).symm

theorem MarksExact.offset_lt {v : List ℤ} (hv : MarksExact bf v) {o : ℕ} {d : ℤ}
    (h : DepthReach bf (o, d)) : (o : ℤ) < bf.codeSize := by
  obtain ⟨hlt, -⟩ := List.getElem?_eq_some_iff.mp ((hv.marked o d).mpr h).1
  have := hv.length
  omega

theorem MarksExact.getD_nonneg {v : List ℤ} (hv : MarksExact bf v) {o : ℕ} (h : v.getD o (-1) ≠ -1) :
    0 ≤ v.getD o (-1) := by
  rw [List.getD_eq_getElem?_getD] at h ⊢
  cases hget : v[o]? with
  | none => exact absurd (by rw [hget]; rfl) h
  | some d =>
    rw [hget] at h
    exact (hv.nonneg _ ((hv.marked o d).mp ⟨hget, h⟩)).1

theorem collectMarksBy_ok (hpick : ∀ l, (pick l).Perm l) {v : List ℤ}
    (h : collectMarksBy pick bf = .ok v) : MarksExact bf v := by
  have hsize : 0 ≤ bf.codeSize := by
    by_contra hneg
    rw [collectMarksBy, if_pos (by omega)] at h
    simp at h
  rw [collectMarksBy_eq hsize] at h
  obtain ⟨m, hs, h⟩ := except_bind_ok.mp h
  obtain ⟨m', rfl, hinv, hnil⟩ := marksLoop_ok hpick _ m none (seedMarks_inv hsize hs).1 h
  have hdone : ∀ a, ¬ Pending m' none a := by
    rintro a ⟨-, ha | ha⟩
    · rw [hnil] at ha; cases ha
    · cases ha
  have hexact := hinv.worklist.exact hinv.start hdone
  refine ⟨hinv.length, fun o d => hexact (o, d),
    fun a ha => hinv.worklist.all_good hinv.start hdone ha, fun a ha => ?_⟩
  obtain ⟨hget, hne⟩ := (hexact a).mpr ha
  have := hinv.bounded.get hget
  omega

/-- With everything it reaches inside, `collect_marks` returns exactly when there is no reason to
    reject. -/
theorem collectMarksBy_returns (hin : ReachesInside bf) (hpick : ∀ l, (pick l).Perm l) :
    (∃ v, collectMarksBy pick bf = .ok v) ↔ (∀ a, DepthReach bf a → Passes bf a) ∧
      ∀ o d d', DepthReach bf (o, d) → DepthReach bf (o, d') → d = d' := by
  constructor
  · rintro ⟨v, h⟩
    have hv := collectMarksBy_ok hpick h
    exact ⟨hv.passes, fun o d d' => hv.unique⟩
  · rintro ⟨hpass, huniq⟩
    cases h : collectMarksBy pick bf with
    | ok v => exact ⟨v, rfl⟩
    | error e =>
      have he : e ≠ .timeout := fun he => collectMarksBy_noTimeout hpick (he ▸ h)
      rw [collectMarksBy_eq hin.size] at h
      rcases except_bind_error.mp h with h | ⟨m, hs, h⟩
      · obtain ⟨m, hm⟩ := seedMarks_returns hin (List.range bf.publicSymbolsNumber.toNat)
          (noMarks bf) (fun i => List.mem_range.mp) (by
            rw [noMarks, List.length_replicate]; have := hin.size; omega)
        rw [hm] at h
        cases h
      · rcases marksLoop_error hin.mapped hin.reached hpick _ m none
          (seedMarks_inv hin.size hs).1 h with h | ⟨a, ha, hn⟩ | ⟨o, d, d', h1, h2, hne⟩
        · exact absurd h he
        · exact absurd (hpass a ha) hn
        · exact absurd (huniq o d d' h1 h2) hne

/-- `collect_marks` terminates on a file whose reached offsets lie inside the code; it returns
    exactly when every reached instruction passes its tests and no offset is reached at two depths;
    what it returns is the table of the reached depths. None of this depends on the order in which
    labels leave the queue. -/
theorem collectMarks_exact (bf : Bytefile) (hin : ReachesInside bf) (pick : List ℕ → List ℕ)
    (hpick : ∀ l, (pick l).Perm l) :
    collectMarksBy pick bf ≠ .error .timeout ∧
    ((∃ v, collectMarksBy pick bf = .ok v) ↔
      (∀ a, DepthReach bf a → Passes bf a) ∧
      ∀ o d d', DepthReach bf (o, d) → DepthReach bf (o, d') → d = d') ∧
    (∀ v, collectMarksBy pick bf = .ok v → (v.length : ℤ) = bf.codeSize ∧
      ∀ o < v.length, ∀ d, v[o]? = some d ↔
        DepthReach bf (o, d) ∨ d = -1 ∧ ∀ d', ¬ DepthReach bf (o, d')) ∧
    ∀ v, collectMarksBy pick bf = .ok v ↔ collectMarks bf = .ok v := by
  have table : ∀ v, MarksExact bf v → ∀ o < v.length, ∀ d, v[o]? = some d ↔
      DepthReach bf (o, d) ∨ d = -1 ∧ ∀ d', ¬ DepthReach bf (o, d') := by
    intro v hv o ho d
    constructor
    · intro hd
      by_cases hne : d = -1
      · refine .inr ⟨hne, fun d' hr => ?_⟩
        obtain ⟨hd', hne'⟩ := (hv.marked o d').mpr hr
        rw [hd] at hd'
        exact hne' (Option.some.inj hd' ▸ hne)
      · exact .inl ((hv.marked o d).mp ⟨hd, hne⟩)
    · rintro (hr | ⟨rfl, hn⟩)
      · exact ((hv.marked o d).mpr hr).1
      · have hget := List.getElem?_eq_getElem ho
        by_cases hne : v[o] = -1
        · rw [hget, hne]
        · exact absurd ((hv.marked o v[o]).mp ⟨hget, hne⟩) (hn _)
  refine ⟨collectMarksBy_noTimeout hpick, collectMarksBy_returns hin hpick, fun v hv => ?_, fun v => ?_⟩
  · have hv := collectMarksBy_ok hpick hv
    exact ⟨hv.length, table v hv⟩
  · have same : ∀ v w, MarksExact bf v → MarksExact bf w → v = w := by
      intro v w hv hw
      have hlen : v.length = w.length := by have := hv.length; have := hw.length; omega
      refine List.ext_getElem? fun o => ?_
      by_cases ho : o < v.length
      · have hget := List.getElem?_eq_getElem ho
        rw [hget]
        exact (((table w hw o (by omega) _).mpr ((table v hv o ho _).mp hget))).symm
      · rw [List.getElem?_eq_none_iff.mpr (by omega), List.getElem?_eq_none_iff.mpr (by omega)]
    have hid : ∀ l : List ℕ, (id l).Perm l := fun l => List.Perm.refl l
    have both := (collectMarksBy_returns hin hpick).trans (collectMarksBy_returns hin hid).symm
    constructor
    · intro h
      obtain ⟨w, hw⟩ := both.mp ⟨v, h⟩
      rw [collectMarks, hw, same v w (collectMarksBy_ok hpick h) (collectMarksBy_ok hid hw)]
    · intro h
      obtain ⟨w, hw⟩ := both.mpr ⟨v, h⟩
      rw [hw, same v w (collectMarksBy_ok hid h) (collectMarksBy_ok hpick hw)]

/-- `main` leaves one of two constants, on ways that meet at the head of a loop:
    BEGIN 0 0; CONST 1; CJMPZ 29; CONST 7; JMP 34; CONST 8; DUP; CJMPNZ 34; END -/
def labelFile : Bytefile := .ofMain 0
  [0x52, 0, 0, 0, 0, 0, 0, 0, 0, 0x10, 1, 0, 0, 0, 0x50, 29, 0, 0, 0, 0x10, 7, 0, 0, 0, 0x15, 34, 0, 0, 0,
    0x10, 8, 0, 0, 0, 0x19, 0x51, 34, 0, 0, 0, 0x16, 0xFF]

/-- The depths of its instructions. -/
def labelDepths : List (ℕ × ℤ) :=
  [(0, 0), (9, 0), (14, 1), (19, 0), (24, 1), (29, 0), (34, 1), (35, 2), (40, 1)]

/-- Its marks. -/
def labelMarks : List ℤ := (List.range 42).map fun o => (labelDepths.lookup o).getD (-1)

theorem collectMarks_labelFile : collectMarks labelFile = .ok labelMarks := by decide

theorem labelFile_reachesInside : ReachesInside labelFile := by
  have only : ∀ i < labelFile.publicSymbolsNumber.toNat, i = 0 := by decide
  have marks : ∀ o < 42, labelMarks[o]?.getD (-1) ≠ -1 → InsideCode labelFile o := by decide
  have hoff : labelFile.getPublicOffset 0 = .ok 0 := by decide
  have hmain : labelFile.isMain 0 = .ok true := by decide
  refine ⟨by decide, Bytefile.ofMain_codeMapped (by decide), fun i hi => ?_,
    fun i hi x hx _ => ?_, ?_⟩
  · rw [only i hi]
    exact ⟨⟨0, hoff⟩, true, hmain⟩
  · rw [only i hi, hoff] at hx
    cases hx
    decide
  · rintro ⟨o, d⟩ h
    have hv := collectMarksBy_ok List.Perm.refl collectMarks_labelFile
    obtain ⟨hget, hne⟩ := (hv.marked o d).mpr h
    obtain ⟨hlt, -⟩ := List.getElem?_eq_some_iff.mp hget
    exact marks o hlt (by rw [hget]; exact hne)

theorem collectMarks_exact_labelFile :
    (∃ v, collectMarks labelFile = .ok v) ∧ collectMarksBy List.reverse labelFile = collectMarks labelFile := by
  have h := collectMarks_exact labelFile labelFile_reachesInside List.reverse List.reverse_perm
  refine ⟨⟨_, collectMarks_labelFile⟩, ?_⟩
  rw [collectMarks_labelFile]
  exact (h.2.2.2 _).mpr collectMarks_labelFile

end Exact

end LamaSM
