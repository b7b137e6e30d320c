import Mathlib.Data.Nat.Notation
import Mathlib.Logic.Relation

/-! Runs of a step relation whose steps all start in a state allowed by a guard, and the induction
    rule for invariants of such runs. -/

namespace Lib

variable {σ : Type} {step : σ → σ → Prop} {guard guard' : σ → Prop} {I : σ → Prop}

/-- A run from `s` to `s'` in which every step starts in a state with `guard`. -/
def Run (step : σ → σ → Prop) (guard : σ → Prop) : σ → σ → Prop :=
  Relation.ReflTransGen fun s s' => guard s ∧ step s s'

theorem Run.refl (s : σ) : Run step guard s s := Relation.ReflTransGen.refl

theorem Run.single {s s' : σ} (hg : guard s) (h : step s s') : Run step guard s s' :=
  Relation.ReflTransGen.single ⟨hg, h⟩

theorem Run.tail {s s' s'' : σ} (h : Run step guard s s') (hg : guard s') (hs : step s' s'') :
    Run step guard s s'' := Relation.ReflTransGen.tail h ⟨hg, hs⟩

theorem Run.trans {s s' s'' : σ} (h : Run step guard s s') (h' : Run step guard s' s'') :
    Run step guard s s'' := Relation.ReflTransGen.trans h h'

theorem Run.mono (hg : ∀ s, guard s → guard' s) {s s' : σ} (h : Run step guard s s') :
    Run step guard' s s' :=
  Relation.ReflTransGen.mono (fun _ _ hst => ⟨hg _ hst.1, hst.2⟩) _ _ h

/-- A sequence of guarded steps is a run. -/
theorem Run.of_turns {f : ℕ → σ} {n : ℕ} (h : ∀ k < n, guard (f k) ∧ step (f k) (f (k + 1))) :
    Run step guard (f 0) (f n) := by
  induction n with
  | zero => exact Run.refl _
  | succ n ih =>
    have hlast := h n (Nat.lt_succ_self n)
    exact (ih fun k hk => h k (Nat.lt_succ_of_lt hk)).tail hlast.1 hlast.2

/-- What every guarded step preserves holds at the end of every guarded run. -/
theorem Run.invariant (hstep : ∀ s s', I s → guard s → step s s' → I s') {s s' : σ}
    (hs : I s) (h : Run step guard s s') : I s' := by
  induction h with
  | refl => exact hs
  | tail _ hst ih => exact hstep _ _ ih hst.1 hst.2

end Lib
