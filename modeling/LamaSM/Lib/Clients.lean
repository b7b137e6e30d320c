import Mathlib.Data.List.Basic
import Mathlib.Data.Nat.Notation

/-! Clients of an interface, and an oracle that makes the choices an implementation makes.

    A client calls operations and goes on as their results tell it. An implementation simulates a
    specification whose operations ask an oracle when each of its steps is one of the specification, for
    every oracle that chooses as the step did. The choices of a run are numbered by a clock, so one oracle
    makes them all, and the run is one of the specification with that oracle. -/

namespace Lib

inductive Client (Op Val : Type)
  | done : Client Op Val
  | call (op : Op) (next : Val → Client Op Val) : Client Op Val

namespace Client

variable {Op Val σ : Type}

/-- A run of the client: the results of its calls and the state they leave. -/
inductive Runs (step : Op → σ → Val → σ → Prop) : Client Op Val → σ → List Val → σ → Prop
  | done {s : σ} : Runs step .done s [] s
  | call {op : Op} {next : Val → Client Op Val} {s s₁ s' : σ} {v : Val} {vs : List Val} :
    step op s v s₁ → Runs step (next v) s₁ vs s' → Runs step (.call op next) s (v :: vs) s'

/-- Every call of every run meets the condition. -/
def Always (step : Op → σ → Val → σ → Prop) (P : Op → σ → Prop) : Client Op Val → σ → Prop
  | .done, _ => True
  | .call op next, s => P op s ∧ ∀ v s', step op s v s' → Always step P (next v) s'

end Client

/-- An implementation on states `τ` of a specification on states `σ` with an oracle from `E`, which makes
    choices from `C`. -/
structure Simulation (Op Val σ τ E C : Type) where
  spec : E → Op → σ → Val → σ → Prop
  impl : Op → τ → Val → τ → Prop
  linked : σ → τ → Prop
  needs : Op → σ → Prop
  supplies : Op → τ → Prop
  Follows : C → E → Prop
  number : C → ℕ
  clock : σ → ℕ
  realized : ∀ cs : List C, cs.Pairwise (fun c d => number c < number d) → ∃ e, ∀ c ∈ cs, Follows c e
  step : ∀ {op s t}, linked s t → needs op s → supplies op t → ∃ (cs : List C) (v : Val) (s' : σ) (t' : τ), impl op t v t' ∧ linked s' t' ∧
    (∀ e, (∀ c ∈ cs, Follows c e) → spec e op s v s') ∧ clock s ≤ clock s' ∧
    cs.Pairwise (fun c d => number c < number d) ∧ ∀ c ∈ cs, clock s ≤ number c ∧ number c < clock s'

namespace Simulation

variable {Op Val σ τ E C : Type} (S : Simulation Op Val σ τ E C) {client : Client Op Val} {s : σ} {t : τ}

/-- The choices of a run, in the order of their numbers. -/
theorem choices (hlinked : S.linked s t)
    (hneeds : client.Always (fun op s v s' => ∃ e, S.spec e op s v s') S.needs s)
    (hsupplies : client.Always S.impl S.supplies t) :
    ∃ (cs : List C) (vs : List Val) (s' : σ) (t' : τ), client.Runs S.impl t vs t' ∧ S.linked s' t' ∧
      (∀ e, (∀ c ∈ cs, S.Follows c e) → client.Runs (S.spec e) s vs s') ∧
      cs.Pairwise (fun c d => S.number c < S.number d) ∧ ∀ c ∈ cs, S.clock s ≤ S.number c := by
  induction client generalizing s t with
  | done => exact ⟨[], [], s, t, .done, hlinked, fun _ _ => .done, .nil, fun c hc => absurd hc List.not_mem_nil⟩
  | call op next ih =>
    obtain ⟨hneed, hneeds⟩ := hneeds
    obtain ⟨hsupply, hsupplies⟩ := hsupplies
    obtain ⟨cs, v, s₁, t₁, himpl, hlinked₁, hspec, hclock, hsorted, hnumbers⟩ := S.step hlinked hneed hsupply
    obtain ⟨e, he⟩ := S.realized cs hsorted
    obtain ⟨ds, vs, s', t', hruns, hlinked', hspec', hsorted', hnumbers'⟩ :=
      ih v hlinked₁ (hneeds v s₁ ⟨e, hspec e he⟩) (hsupplies v t₁ himpl)
    refine ⟨cs ++ ds, v :: vs, s', t', .call himpl hruns, hlinked', fun e he => ?_, ?_, fun c hc => ?_⟩
    · exact .call (hspec e fun c hc => he c (List.mem_append_left _ hc))
        (hspec' e fun c hc => he c (List.mem_append_right _ hc))
    · refine List.pairwise_append.mpr ⟨hsorted, hsorted', fun c hc d hd => ?_⟩
      exact Nat.lt_of_lt_of_le (hnumbers c hc).2 (hnumbers' d hd)
    · rcases List.mem_append.mp hc with hc | hc
      · exact (hnumbers c hc).1
      · exact Nat.le_trans hclock (hnumbers' c hc)

/-- A run of the implementation is one of the specification, with an oracle. -/
theorem refines (hlinked : S.linked s t)
    (hneeds : client.Always (fun op s v s' => ∃ e, S.spec e op s v s') S.needs s)
    (hsupplies : client.Always S.impl S.supplies t) :
    ∃ e vs s' t', client.Runs S.impl t vs t' ∧ client.Runs (S.spec e) s vs s' ∧ S.linked s' t' := by
  obtain ⟨cs, vs, s', t', hruns, hlinked', hspec, hsorted, -⟩ := S.choices hlinked hneeds hsupplies
  obtain ⟨e, he⟩ := S.realized cs hsorted
  exact ⟨e, vs, s', t', hruns, hspec e he, hlinked'⟩

end Simulation

end Lib
