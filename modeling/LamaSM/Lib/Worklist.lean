import Mathlib.Data.Fintype.Pigeonhole
import Mathlib.Tactic.Common

/-! Worklist algorithms on an arbitrary step relation.

    Such an algorithm keeps a set of marked nodes and a set of pending ones, marked but not yet
    handled. `WorklistInv` is its invariant: everything marked is reachable, and whatever is no
    longer pending has passed the test `good` and has all its successors marked. `visit` says what
    handling a node at once must do to keep the invariant; `mark` and `finish` say it of marking one
    successor and of having marked them all. `exact` reads the result off an empty worklist: the
    marked nodes are then exactly the reachable ones.

    A number that grows by at most one at a step stays below the number of places, when the place of
    a reachable node settles it (`Reach.height_lt`). -/

namespace Lib

variable {α : Type} {start : α → Prop} {step : α → α → Prop} {good : α → Prop}

/-- Reachability from the start nodes: the least set that holds them and is closed under `step`. -/
inductive Reach (start : α → Prop) (step : α → α → Prop) : α → Prop
  | start {a : α} : start a → Reach start step a
  | step {a b : α} : Reach start step a → step a b → Reach start step b

/-- The invariant of a worklist loop. -/
structure WorklistInv (start : α → Prop) (step : α → α → Prop) (good marked pending : α → Prop) :
    Prop where
  reach : ∀ a, marked a → Reach start step a
  pending_marked : ∀ a, pending a → marked a
  closed : ∀ a, marked a → pending a ∨ (good a ∧ ∀ b, step a b → marked b)

/-- What one turn of the loop must do with the node `a` it takes from the worklist: mark its
    successors and nothing else, and leave the newly marked nodes pending. -/
structure WorklistVisit (step : α → α → Prop) (good : α → Prop) (a : α)
    (marked pending marked' pending' : α → Prop) : Prop where
  keeps : ∀ b, marked b → marked' b
  marks : ∀ b, step a b → marked' b
  only : ∀ b, marked' b → marked b ∨ (step a b ∧ pending' b)
  keeps_pending : ∀ b, pending b → b = a ∨ pending' b
  pending_marked : ∀ b, pending' b → marked' b
  good : good a

theorem WorklistInv.visit {a : α} {marked pending marked' pending' : α → Prop}
    (hinv : WorklistInv start step good marked pending) (ha : pending a)
    (hv : WorklistVisit step good a marked pending marked' pending') :
    WorklistInv start step good marked' pending' := by
  have hra : Reach start step a := hinv.reach a (hinv.pending_marked a ha)
  refine ⟨fun b hb => ?_, hv.pending_marked, fun b hb => ?_⟩
  · rcases hv.only b hb with hb | ⟨hab, _⟩
    · exact hinv.reach b hb
    · exact .step hra hab
  · rcases hv.only b hb with hb | ⟨_, hb⟩
    · rcases hinv.closed b hb with hp | ⟨hg, hs⟩
      · rcases hv.keeps_pending b hp with rfl | hp
        · exact .inr ⟨hv.good, hv.marks⟩
        · exact .inl hp
      · exact .inr ⟨hg, fun c hc => hv.keeps c (hs c hc)⟩
    · exact .inl hb

/-- Reachable nodes may be marked at any time when they become pending. -/
theorem WorklistInv.mark {marked pending marked' pending' : α → Prop}
    (hinv : WorklistInv start step good marked pending) (hkeep : ∀ a, marked a → marked' a)
    (hnew : ∀ a, marked' a → marked a ∨ (Reach start step a ∧ pending' a))
    (hpending : ∀ a, pending a → pending' a) (hmarked : ∀ a, pending' a → marked' a) :
    WorklistInv start step good marked' pending' := by
  refine ⟨fun a ha => ?_, hmarked, fun a ha => ?_⟩
  · exact (hnew a ha).elim (hinv.reach a) And.left
  · rcases hnew a ha with ha | ⟨-, ha⟩
    · rcases hinv.closed a ha with hp | ⟨hg, hs⟩
      · exact .inl (hpending a hp)
      · exact .inr ⟨hg, fun b hb => hkeep b (hs b hb)⟩
    · exact .inl ha

/-- A node whose successors are all marked need not be pending. -/
theorem WorklistInv.finish {a : α} {marked pending pending' : α → Prop}
    (hinv : WorklistInv start step good marked pending) (hgood : good a)
    (hsucc : ∀ b, step a b → marked b) (hdrop : ∀ b, pending b → b = a ∨ pending' b)
    (honly : ∀ b, pending' b → pending b) : WorklistInv start step good marked pending' := by
  refine ⟨hinv.reach, fun b hb => hinv.pending_marked b (honly b hb), fun b hb => ?_⟩
  rcases hinv.closed b hb with hp | hs
  · rcases hdrop b hp with rfl | hp
    · exact .inr ⟨hgood, hsucc⟩
    · exact .inl hp
  · exact .inr hs

/-- When nothing is pending and the start nodes are marked, the marked nodes are exactly the
    reachable ones. -/
theorem WorklistInv.exact {marked pending : α → Prop}
    (hinv : WorklistInv start step good marked pending) (hstart : ∀ a, start a → marked a)
    (hdone : ∀ a, ¬ pending a) (a : α) : marked a ↔ Reach start step a := by
  refine ⟨hinv.reach a, fun h => ?_⟩
  induction h with
  | start h => exact hstart _ h
  | step _ hs ih => exact ((hinv.closed _ ih).resolve_left (hdone _)).2 _ hs

/-- When nothing is pending, every reachable node passed the test. -/
theorem WorklistInv.all_good {marked pending : α → Prop}
    (hinv : WorklistInv start step good marked pending) (hstart : ∀ a, start a → marked a)
    (hdone : ∀ a, ¬ pending a) {a : α} (h : Reach start step a) : good a :=
  ((hinv.closed a ((hinv.exact hstart hdone a).mpr h)).resolve_left (hdone a)).1

section Height

variable {height : α → ℕ}

/-- On the way to a node every smaller height is attained. -/
theorem Reach.attains (hstart : ∀ a, start a → height a = 0)
    (hstep : ∀ a b, Reach start step a → step a b → height b ≤ height a + 1) {a : α}
    (h : Reach start step a) : ∀ n ≤ height a, ∃ b, Reach start step b ∧ height b = n := by
  induction h with
  | @start a ha =>
    intro n hn
    rw [hstart a ha] at hn
    exact ⟨a, .start ha, by rw [hstart a ha]; omega⟩
  | @step a b ha hab ih =>
    intro n hn
    have hle := hstep a b ha hab
    by_cases hn' : n ≤ height a
    · exact ih n hn'
    · exact ⟨b, .step ha hab, by omega⟩

/-- Nodes of different heights are at different places, so the heights are below the number of
    places. -/
theorem Reach.height_lt (height place : α → ℕ) {count : ℕ} (hstart : ∀ a, start a → height a = 0)
    (hstep : ∀ a b, Reach start step a → step a b → height b ≤ height a + 1)
    (hplace : ∀ a, Reach start step a → place a < count)
    (hunique : ∀ a b, Reach start step a → Reach start step b → place a = place b →
      height a = height b) {a : α} (h : Reach start step a) : height a < count := by
  by_contra hge
  have hall := h.attains hstart hstep
  choose node hreach hheight using fun n : Fin (count + 1) => hall n (by omega)
  obtain ⟨i, j, hne, hij⟩ := Fintype.exists_ne_map_eq_of_card_lt
    (fun n : Fin (count + 1) => (⟨place (node n), hplace _ (hreach n)⟩ : Fin count)) (by simp)
  have hsame := hunique _ _ (hreach i) (hreach j) (congrArg Fin.val hij)
  rw [hheight, hheight] at hsame
  exact hne (Fin.ext hsame)

end Height

end Lib
