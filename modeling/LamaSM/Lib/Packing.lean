import Mathlib.Data.List.Basic
import Mathlib.Data.List.Nodup
import Mathlib.Tactic.Common

/-! Items of given sizes laid end to end, and sliding some of them down over the others.

    `laid i xs` pairs each item with its place when the first one is put at `i`. `slide` keeps the items
    at live places and lays them end to end again: no item moves up, none overlaps one that has not been
    moved yet, and the new places are those of the live items laid out by themselves. -/

namespace Lib

variable {α : Type} (size : α → ℕ)

/-- The items with their places, from `i` on. -/
def laid : ℕ → List α → List (ℕ × α)
  | _, [] => []
  | i, x :: xs => (i, x) :: laid (i + size x) xs

/-- The place behind the last item. -/
def laidEnd : ℕ → List α → ℕ
  | i, [] => i
  | i, x :: xs => laidEnd (i + size x) xs

/-- A move of an item. -/
structure Move (α : Type) where
  source : ℕ
  target : ℕ
  item : α
  deriving Repr

/-- The moves of the items at live places, down to places from `t` on. -/
def slide (live : ℕ → Bool) : ℕ → List (ℕ × α) → List (Move α)
  | _, [] => []
  | t, p :: ps => if live p.1 then ⟨p.1, t, p.2⟩ :: slide live (t + size p.2) ps else slide live t ps

variable {size} {i j k t : ℕ} {x y : α} {xs ys : List α} {live : ℕ → Bool}

/-! ### Places -/

@[simp] theorem laid_nil : laid size i ([] : List α) = [] := rfl
@[simp] theorem laid_cons : laid size i (x :: xs) = (i, x) :: laid size (i + size x) xs := rfl
@[simp] theorem laidEnd_nil : laidEnd size i ([] : List α) = i := rfl
@[simp] theorem laidEnd_cons : laidEnd size i (x :: xs) = laidEnd size (i + size x) xs := rfl

theorem laid_append : ∀ (xs : List α) (i : ℕ),
    laid size i (xs ++ ys) = laid size i xs ++ laid size (laidEnd size i xs) ys
  | [], _ => rfl
  | x :: xs, i => by rw [List.cons_append, laid_cons, laid_append xs, laid_cons, laidEnd_cons]; rfl

theorem laidEnd_append : ∀ (xs : List α) (i : ℕ),
    laidEnd size i (xs ++ ys) = laidEnd size (laidEnd size i xs) ys
  | [], _ => rfl
  | x :: xs, i => by rw [List.cons_append, laidEnd_cons, laidEnd_append xs, laidEnd_cons]

theorem le_laidEnd (size : α → ℕ) : ∀ (xs : List α) (i : ℕ), i ≤ laidEnd size i xs
  | [], _ => Nat.le_refl _
  | x :: xs, i => by
    have := le_laidEnd size xs (i + size x)
    rw [laidEnd_cons]
    omega

theorem laidEnd_add : ∀ (xs : List α) (i d : ℕ), laidEnd size (i + d) xs = laidEnd size i xs + d
  | [], _, _ => rfl
  | x :: xs, i, d => by
    rw [laidEnd_cons, laidEnd_cons, ← laidEnd_add xs (i + size x) d]
    congr 1
    omega

@[simp] theorem laid_length : ∀ (xs : List α) (i : ℕ), (laid size i xs).length = xs.length
  | [], _ => rfl
  | x :: xs, i => by rw [laid_cons, List.length_cons, laid_length xs, List.length_cons]

theorem laid_map_snd (size : α → ℕ) : ∀ (xs : List α) (i : ℕ), (laid size i xs).map Prod.snd = xs
  | [], _ => rfl
  | x :: xs, i => by rw [laid_cons, List.map_cons, laid_map_snd size xs]

theorem mem_of_laid (h : (j, x) ∈ laid size i xs) : x ∈ xs := by
  rw [← laid_map_snd size xs i]
  exact List.mem_map_of_mem h

/-- Items that keep their sizes keep their places. -/
theorem laid_map {f : α → α} (hf : ∀ x, size (f x) = size x) : ∀ (xs : List α) (i : ℕ),
    laid size i (xs.map f) = (laid size i xs).map fun p => (p.1, f p.2)
  | [], _ => rfl
  | x :: xs, i => by rw [List.map_cons, laid_cons, laid_cons, List.map_cons, hf, laid_map hf xs]

theorem laidEnd_map {f : α → α} (hf : ∀ x, size (f x) = size x) : ∀ (xs : List α) (i : ℕ),
    laidEnd size i (xs.map f) = laidEnd size i xs
  | [], _ => rfl
  | x :: xs, i => by rw [List.map_cons, laidEnd_cons, laidEnd_cons, hf, laidEnd_map hf xs]

/-- Items rewritten by their places keep these, when they keep their sizes. -/
theorem laid_rewrite {f : ℕ × α → α} (hf : ∀ p, size (f p) = size p.2) : ∀ (xs : List α) (i : ℕ),
    laid size i ((laid size i xs).map f) = (laid size i xs).map fun p => (p.1, f p)
  | [], _ => rfl
  | x :: xs, i => by
    have hrest := laid_rewrite hf xs (i + size x)
    rw [laid_cons, List.map_cons, laid_cons, hf, hrest, List.map_cons]

theorem laidEnd_rewrite {f : ℕ × α → α} (hf : ∀ p, size (f p) = size p.2) : ∀ (xs : List α) (i : ℕ),
    laidEnd size i ((laid size i xs).map f) = laidEnd size i xs
  | [], _ => rfl
  | x :: xs, i => by
    have hrest := laidEnd_rewrite hf xs (i + size x)
    rw [laid_cons, List.map_cons, laidEnd_cons, hf, hrest, laidEnd_cons]

theorem laid_bounds : ∀ {xs : List α} {i : ℕ}, (j, x) ∈ laid size i xs →
    i ≤ j ∧ j + size x ≤ laidEnd size i xs
  | [], _, h => absurd h List.not_mem_nil
  | y :: ys, i, h => by
    have hend := le_laidEnd size ys (i + size y)
    rcases List.mem_cons.mp h with heq | h
    · cases heq
      exact ⟨Nat.le_refl _, hend⟩
    · obtain ⟨hlow, hhigh⟩ := laid_bounds h
      exact ⟨by omega, hhigh⟩

/-- Two places are the same item's, or one item ends before the other begins. -/
theorem laid_apart : ∀ {xs : List α} {i : ℕ}, (j, x) ∈ laid size i xs → (k, y) ∈ laid size i xs →
    (j = k ∧ x = y) ∨ j + size x ≤ k ∨ k + size y ≤ j
  | [], _, h, _ => absurd h List.not_mem_nil
  | z :: zs, i, h, h' => by
    rcases List.mem_cons.mp h with heq | h
    · cases heq
      rcases List.mem_cons.mp h' with heq | h'
      · cases heq
        exact .inl ⟨rfl, rfl⟩
      · exact .inr (.inl (laid_bounds h').1)
    · rcases List.mem_cons.mp h' with heq | h'
      · cases heq
        exact .inr (.inr (laid_bounds h).1)
      · exact laid_apart h h'

/-- Where no size is zero, a place has one item. -/
theorem laid_unique (hsize : ∀ x, 0 < size x) (h : (j, x) ∈ laid size i xs) (h' : (j, y) ∈ laid size i xs) :
    x = y := by
  have hx := hsize x
  have hy := hsize y
  rcases laid_apart h h' with ⟨-, hxy⟩ | hlt | hlt
  · exact hxy
  · omega
  · omega

/-- Laid out from another place on, everything keeps its distance from the first item. -/
theorem laid_rebase : ∀ {xs : List α} {i i' : ℕ}, (j, x) ∈ laid size i xs →
    (i' + (j - i), x) ∈ laid size i' xs
  | [], _, _, h => absurd h List.not_mem_nil
  | y :: ys, i, i', h => by
    rcases List.mem_cons.mp h with heq | h
    · cases heq
      rw [Nat.sub_self, Nat.add_zero]
      exact List.mem_cons_self
    · have hlow := (laid_bounds h).1
      have hrest : (i' + size y + (j - (i + size y)), x) ∈ laid size (i' + size y) ys := laid_rebase h
      rw [show i' + (j - i) = i' + size y + (j - (i + size y)) by omega]
      exact List.mem_cons_of_mem _ hrest

/-- Places are multiples of what divides the first one and all sizes. -/
theorem laid_dvd {d : ℕ} (hsize : ∀ x, d ∣ size x) : ∀ {xs : List α} {i : ℕ}, d ∣ i →
    (j, x) ∈ laid size i xs → d ∣ j
  | [], _, _, h => absurd h List.not_mem_nil
  | y :: ys, i, hi, h => by
    rcases List.mem_cons.mp h with heq | h
    · cases heq
      exact hi
    · exact laid_dvd hsize (Nat.dvd_add hi (hsize y)) h

/-! ### Moves -/

@[simp] theorem slide_nil : slide size live t [] = [] := rfl

theorem slide_cons_live {p : ℕ × α} {ps : List (ℕ × α)} (h : live p.1 = true) :
    slide size live t (p :: ps) = ⟨p.1, t, p.2⟩ :: slide size live (t + size p.2) ps := if_pos h

theorem slide_cons_dead {p : ℕ × α} {ps : List (ℕ × α)} (h : live p.1 = false) :
    slide size live t (p :: ps) = slide size live t ps := if_neg (by rw [h]; exact Bool.false_ne_true)

/-- The items at live places. -/
def survivors (live : ℕ → Bool) (ps : List (ℕ × α)) : List α := (ps.filter fun p => live p.1).map Prod.snd

theorem survivors_cons_live {p : ℕ × α} {ps : List (ℕ × α)} (h : live p.1 = true) :
    survivors live (p :: ps) = p.2 :: survivors live ps := by
  simp [survivors, h]

theorem survivors_cons_dead {p : ℕ × α} {ps : List (ℕ × α)} (h : live p.1 = false) :
    survivors live (p :: ps) = survivors live ps := by
  simp [survivors, h]

/-- Only what is live among the items matters. -/
theorem survivors_congr {live' : ℕ → Bool} {ps : List (ℕ × α)} (h : ∀ p ∈ ps, live' p.1 = live p.1) :
    survivors live' ps = survivors live ps := by
  rw [survivors, survivors, List.filter_congr h]

theorem slide_congr {live' : ℕ → Bool} : ∀ {ps : List (ℕ × α)} {t : ℕ}, (∀ p ∈ ps, live' p.1 = live p.1) →
    slide size live' t ps = slide size live t ps
  | [], _, _ => rfl
  | p :: ps, t, h => by
    have hp := h p List.mem_cons_self
    have hps : ∀ q ∈ ps, live' q.1 = live q.1 := fun q hq => h q (List.mem_cons_of_mem _ hq)
    rw [slide, slide, hp, slide_congr hps, slide_congr hps]

/-- Rewriting the live items rewrites the survivors. -/
theorem survivors_map {f : ℕ × α → α} {g : α → α} : ∀ {ps : List (ℕ × α)},
    (∀ p ∈ ps, live p.1 = true → f p = g p.2) →
    survivors live (ps.map fun p => (p.1, f p)) = (survivors live ps).map g
  | [], _ => rfl
  | p :: ps, hf => by
    have hrest := survivors_map fun q hq => hf q (List.mem_cons_of_mem _ hq)
    rw [List.map_cons]
    cases h : live p.1 with
    | true =>
      have hp : live (p.1, f p).1 = true := h
      rw [survivors_cons_live hp, survivors_cons_live h, hrest, List.map_cons, ← hf p List.mem_cons_self h]
    | false =>
      have hp : live (p.1, f p).1 = false := h
      rw [survivors_cons_dead hp, survivors_cons_dead h, hrest]

/-- Items that keep their sizes move alike. -/
theorem slide_map {f : ℕ × α → α} (hf : ∀ p, size (f p) = size p.2) : ∀ (ps : List (ℕ × α)) (t : ℕ),
    slide size live t (ps.map fun p => (p.1, f p)) =
      (slide size live t ps).map fun v => ⟨v.source, v.target, f (v.source, v.item)⟩
  | [], _ => rfl
  | p :: ps, t => by
    rw [List.map_cons]
    cases h : live p.1 with
    | true =>
      have hp : live (p.1, f p).1 = true := h
      rw [slide_cons_live hp, slide_cons_live h, List.map_cons, slide_map hf ps, hf]
    | false =>
      have hp : live (p.1, f p).1 = false := h
      rw [slide_cons_dead hp, slide_cons_dead h, slide_map hf ps]

/-- The targets are the places of the live items laid out by themselves. -/
theorem slide_targets : ∀ (ps : List (ℕ × α)) (t : ℕ),
    (slide size live t ps).map (fun v => (v.target, v.item)) = laid size t (survivors live ps)
  | [], _ => rfl
  | p :: ps, t => by
    cases h : live p.1 with
    | true => rw [slide_cons_live h, List.map_cons, slide_targets ps, survivors_cons_live h, laid_cons]
    | false => rw [slide_cons_dead h, slide_targets ps, survivors_cons_dead h]

theorem slide_target {v : Move α} {ps : List (ℕ × α)} (h : v ∈ slide size live t ps) :
    (v.target, v.item) ∈ laid size t (survivors live ps) := by
  rw [← slide_targets ps t]
  exact List.mem_map_of_mem h

/-- Items that follow others slide down to behind the live ones among these. -/
theorem slide_append {qs : List (ℕ × α)} : ∀ (ps : List (ℕ × α)) (t : ℕ), slide size live t (ps ++ qs) =
    slide size live t ps ++ slide size live (laidEnd size t (survivors live ps)) qs
  | [], _ => rfl
  | p :: ps, t => by
    cases h : live p.1 with
    | true =>
      rw [List.cons_append, slide_cons_live h, slide_append ps, slide_cons_live h, survivors_cons_live h]
      rfl
    | false => rw [List.cons_append, slide_cons_dead h, slide_append ps, slide_cons_dead h, survivors_cons_dead h]

/-- What moves is an item at a live place, -/
theorem slide_source : ∀ {ps : List (ℕ × α)} {t : ℕ} {v : Move α}, v ∈ slide size live t ps →
    (v.source, v.item) ∈ ps ∧ live v.source = true
  | [], _, _, h => absurd h List.not_mem_nil
  | p :: ps, t, v, h => by
    cases hlive : live p.1 with
    | true =>
      rw [slide_cons_live hlive] at h
      rcases List.mem_cons.mp h with rfl | h
      · exact ⟨List.mem_cons_self, hlive⟩
      · exact ⟨List.mem_cons_of_mem _ (slide_source h).1, (slide_source h).2⟩
    | false =>
      rw [slide_cons_dead hlive] at h
      exact ⟨List.mem_cons_of_mem _ (slide_source h).1, (slide_source h).2⟩

/-- and every one of them moves. -/
theorem slide_moves : ∀ {ps : List (ℕ × α)} {t : ℕ}, (j, x) ∈ ps → live j = true →
    ∃ v ∈ slide size live t ps, v.source = j ∧ v.item = x
  | [], _, h, _ => absurd h List.not_mem_nil
  | p :: ps, t, h, hlive => by
    rcases List.mem_cons.mp h with rfl | h
    · rw [slide_cons_live hlive]
      exact ⟨_, List.mem_cons_self, rfl, rfl⟩
    · cases hp : live p.1 with
      | true =>
        rw [slide_cons_live hp]
        obtain ⟨v, hv, hrest⟩ := slide_moves (t := t + size p.2) h hlive
        exact ⟨v, List.mem_cons_of_mem _ hv, hrest⟩
      | false =>
        rw [slide_cons_dead hp]
        exact slide_moves h hlive

/-- Two moves to one place are one. -/
theorem slide_injective (hsize : ∀ x, 0 < size x) : ∀ {ps : List (ℕ × α)} {t : ℕ} {v w : Move α},
    v ∈ slide size live t ps → w ∈ slide size live t ps → v.target = w.target → v = w
  | [], _, _, _, h, _, _ => absurd h List.not_mem_nil
  | p :: ps, t, v, w, hv, hw, htarget => by
    have hpos := hsize p.2
    cases hp : live p.1 with
    | true =>
      rw [slide_cons_live hp] at hv hw
      have later : ∀ u ∈ slide size live (t + size p.2) ps, t + size p.2 ≤ u.target :=
        fun u hu => (laid_bounds (slide_target hu)).1
      rcases List.mem_cons.mp hv with rfl | hv <;> rcases List.mem_cons.mp hw with rfl | hw
      · rfl
      · have := later w hw
        dsimp only at htarget
        omega
      · have := later v hv
        dsimp only at htarget
        omega
      · exact slide_injective hsize hv hw htarget
    | false =>
      rw [slide_cons_dead hp] at hv hw
      exact slide_injective hsize hv hw htarget

/-- Two moves from one place are one, as no item lies at two places. -/
theorem slide_injective_source (hsize : ∀ x, 0 < size x) : ∀ {xs : List α} {i t : ℕ} {v w : Move α},
    v ∈ slide size live t (laid size i xs) → w ∈ slide size live t (laid size i xs) → v.source = w.source → v = w
  | [], _, _, _, _, h, _, _ => absurd h List.not_mem_nil
  | x :: xs, i, t, v, w, hv, hw, hsource => by
    have hpos := hsize x
    rw [laid_cons] at hv hw
    cases hp : live i with
    | true =>
      rw [slide_cons_live hp] at hv hw
      have later : ∀ u ∈ slide size live (t + size x) (laid size (i + size x) xs), i + size x ≤ u.source :=
        fun u hu => (laid_bounds (slide_source hu).1).1
      rcases List.mem_cons.mp hv with rfl | hv <;> rcases List.mem_cons.mp hw with rfl | hw
      · rfl
      · have := later w hw
        dsimp only at hsource
        omega
      · have := later v hv
        dsimp only at hsource
        omega
      · exact slide_injective_source hsize hv hw hsource
    | false =>
      rw [slide_cons_dead hp] at hv hw
      exact slide_injective_source hsize hv hw hsource

/-- A place in one layout is one in the other. -/
theorem laid_rebase_iff {xs : List α} {i i' : ℕ} :
    (k, x) ∈ laid size i' xs ↔ ∃ j, (j, x) ∈ laid size i xs ∧ k = i' + (j - i) := by
  constructor
  · intro h
    have hlow := (laid_bounds h).1
    exact ⟨i + (k - i'), laid_rebase h, by omega⟩
  · rintro ⟨j, hj, rfl⟩
    exact laid_rebase hj

theorem survivors_rebase {live' : ℕ → Bool} : ∀ {xs : List α} {i i' : ℕ},
    (∀ j x, (j, x) ∈ laid size i xs → live' (i' + (j - i)) = live j) →
    survivors live' (laid size i' xs) = survivors live (laid size i xs)
  | [], _, _, _ => rfl
  | x :: xs, i, i', hlive => by
    have hhead : live' i' = live i := by
      have := hlive i x List.mem_cons_self
      rwa [Nat.sub_self, Nat.add_zero] at this
    have hrest : survivors live' (laid size (i' + size x) xs) = survivors live (laid size (i + size x) xs) := by
      refine survivors_rebase fun j y hj => ?_
      have := (laid_bounds hj).1
      rw [← hlive j y (List.mem_cons_of_mem _ hj)]
      congr 1
      omega
    rw [laid_cons, laid_cons]
    cases hp : live i with
    | true => rw [survivors_cons_live (hhead.trans hp), survivors_cons_live hp, hrest]
    | false => rw [survivors_cons_dead (hhead.trans hp), survivors_cons_dead hp, hrest]

/-- Laid out from another place on, the same items move, by the same distances. -/
theorem slide_rebase {live' : ℕ → Bool} : ∀ {xs : List α} {i i' t t' : ℕ} {v' : Move α},
    (∀ j x, (j, x) ∈ laid size i xs → live' (i' + (j - i)) = live j) →
    v' ∈ slide size live' t' (laid size i' xs) → ∃ v ∈ slide size live t (laid size i xs),
      v'.source = i' + (v.source - i) ∧ v'.target = t' + (v.target - t) ∧ v'.item = v.item
  | [], _, _, _, _, _, _, h => absurd h List.not_mem_nil
  | x :: xs, i, i', t, t', v', hlive, h => by
    have hhead : live' i' = live i := by
      have := hlive i x List.mem_cons_self
      rwa [Nat.sub_self, Nat.add_zero] at this
    have hrest : ∀ j y, (j, y) ∈ laid size (i + size x) xs → live' (i' + size x + (j - (i + size x))) = live j := by
      intro j y hj
      have := (laid_bounds hj).1
      rw [← hlive j y (List.mem_cons_of_mem _ hj)]
      congr 1
      omega
    rw [laid_cons] at h
    cases hp : live i with
    | true =>
      rw [slide_cons_live (by dsimp only; rw [hhead, hp])] at h
      rw [laid_cons, slide_cons_live hp]
      rcases List.mem_cons.mp h with rfl | h
      · exact ⟨_, List.mem_cons_self, by dsimp only; omega, by dsimp only; omega, rfl⟩
      · obtain ⟨v, hv, hsource, htarget, hitem⟩ := slide_rebase (t := t + size x) hrest h
        have hlow := (laid_bounds (slide_source hv).1).1
        have htlow := (laid_bounds (slide_target hv)).1
        dsimp only at htarget
        exact ⟨v, List.mem_cons_of_mem _ hv, by omega, by omega, hitem⟩
    | false =>
      rw [slide_cons_dead (by dsimp only; rw [hhead, hp])] at h
      rw [laid_cons, slide_cons_dead hp]
      obtain ⟨v, hv, hsource, htarget, hitem⟩ := slide_rebase (t := t) hrest h
      have hlow := (laid_bounds (slide_source hv).1).1
      exact ⟨v, hv, by omega, htarget, hitem⟩

/-- The survivors end no higher than the items they come from. -/
theorem laidEnd_survivors : ∀ {xs : List α} {i t : ℕ}, t ≤ i →
    laidEnd size t (survivors live (laid size i xs)) ≤ laidEnd size i xs
  | [], _, _, h => h
  | x :: xs, i, t, h => by
    rw [laid_cons, laidEnd_cons]
    cases hp : live i with
    | true =>
      rw [survivors_cons_live hp, laidEnd_cons]
      exact laidEnd_survivors (Nat.add_le_add_right h _)
    | false =>
      rw [survivors_cons_dead hp]
      exact laidEnd_survivors (Nat.le_trans h (Nat.le_add_right _ _))

end Lib
