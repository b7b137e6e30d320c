import LamaSM.Lib.Exec

/-! Rules of pre- and postconditions for programs of the state and error monad.

    `Triple P x Q F` says: started in a state with `P`, the program `x` either returns a value and a
    state related by `Q`, or fails in a state with `F`. Both outcomes are kept, so what a failing
    program did before it failed can be bounded too. -/

namespace Lib

variable {ε σ α β : Type} {P P' : σ → Prop} {Q Q' : α → σ → Prop} {R : β → σ → Prop}
  {F F' : σ → Prop}

/-- From a state with `P`, `x` returns with `Q` or fails with `F`. -/
def Triple (P : σ → Prop) (x : EStateM ε σ α) (Q : α → σ → Prop) (F : σ → Prop) : Prop :=
  ∀ s, P s → match x s with
    | .ok a s' => Q a s'
    | .error _ s' => F s'

theorem Triple.of_ok {x : EStateM ε σ α} {s s' : σ} {a : α} (h : Triple P x Q F) (hP : P s)
    (hx : x s = .ok a s') : Q a s' := by
  have := h s hP
  rwa [hx] at this

theorem triple_pure {a : α} (h : ∀ s, P s → Q a s) : Triple P (pure a : EStateM ε σ α) Q F :=
  h

theorem triple_throw {e : ε} (h : ∀ s, P s → F s) : Triple P (throw e : EStateM ε σ α) Q F :=
  h

theorem Triple.bind {x : EStateM ε σ α} {f : α → EStateM ε σ β} (hx : Triple P x Q F)
    (hf : ∀ a, Triple (Q a) (f a) R F) : Triple P (x >>= f) R F := by
  intro s hP
  have hs := hx s hP
  simp only [Bind.bind, EStateM.bind]
  cases hxs : x s with
  | ok a s' => rw [hxs] at hs; exact hf a s' hs
  | error e s' => rw [hxs] at hs; exact hs

theorem Triple.weaken {x : EStateM ε σ α} (h : Triple P x Q F) (hP : ∀ s, P' s → P s)
    (hQ : ∀ a s, Q a s → Q' a s) (hF : ∀ s, F s → F' s) : Triple P' x Q' F' := by
  intro s hs
  have hx := h s (hP s hs)
  cases hxs : x s with
  | ok a s' => rw [hxs] at hx; exact hQ a s' hx
  | error e s' => rw [hxs] at hx; exact hF s' hx

theorem Triple.pre {x : EStateM ε σ α} (h : Triple P x Q F) (hP : ∀ s, P' s → P s) :
    Triple P' x Q F := h.weaken hP (fun _ _ h => h) fun _ h => h

theorem Triple.post {x : EStateM ε σ α} (h : Triple P x Q F) (hQ : ∀ a s, Q a s → Q' a s) :
    Triple P x Q' F := h.weaken (fun _ h => h) hQ fun _ h => h

/-- A fact that does not depend on the state may be taken out of the precondition. -/
theorem triple_of_fact {p : Prop} {x : EStateM ε σ α} (h : p → Triple P x Q F) :
    Triple (fun s => p ∧ P s) x Q F := fun s hs => h hs.1 s hs.2

end Lib
