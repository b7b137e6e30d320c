import Mathlib.Tactic.Common

/-! Running programs of the error monad `Except ε` and of the state and error monad `EStateM ε σ`.

    A proof about a `do` block takes it apart one bind at a time: `bind_ok` gives the intermediate
    result of a block that returned, `bind_error` the place where a block failed. `EStateM` keeps
    the state at a failure, so facts about what a failing block touched can be stated. -/

namespace Lib

section Except

variable {ε α β : Type}

theorem except_bind_ok {x : Except ε α} {f : α → Except ε β} {b : β} :
    (x >>= f) = .ok b ↔ ∃ a, x = .ok a ∧ f a = .ok b := by
  cases x with
  | ok a => exact ⟨fun h => ⟨a, rfl, h⟩, fun ⟨a', h, hf⟩ => by cases h; exact hf⟩
  | error e => exact ⟨fun h => (nomatch h), fun ⟨_, h, _⟩ => (nomatch h)⟩

theorem except_bind_error {x : Except ε α} {f : α → Except ε β} {e : ε} :
    (x >>= f) = .error e ↔ x = .error e ∨ ∃ a, x = .ok a ∧ f a = .error e := by
  cases x with
  | ok a => exact ⟨fun h => .inr ⟨a, rfl, h⟩,
      fun h => h.elim (fun h => (nomatch h)) fun ⟨a', h, hf⟩ => by cases h; exact hf⟩
  | error e' =>
    refine ⟨fun h => .inl ?_, fun h => ?_⟩
    · cases h; rfl
    · rcases h with h | ⟨_, h, _⟩
      · cases h; rfl
      · cases h

@[simp] theorem except_ok_bind {a : α} {f : α → Except ε β} : (Except.ok a >>= f) = f a := rfl

@[simp] theorem except_pure_ok {a b : α} : (pure a : Except ε α) = .ok b ↔ a = b :=
  ⟨fun h => by cases h; rfl, fun h => by rw [h]; rfl⟩

@[simp] theorem except_pure_error {a : α} {e : ε} : ((pure a : Except ε α) = .error e) ↔ False :=
  ⟨fun h => (nomatch h), False.elim⟩

@[simp] theorem except_throw_ok {e : ε} {b : α} : ((throw e : Except ε α) = .ok b) ↔ False :=
  ⟨fun h => (nomatch h), False.elim⟩

@[simp] theorem except_throw_error {e e' : ε} : ((throw e : Except ε α) = .error e') ↔ e = e' :=
  ⟨fun h => by cases h; rfl, fun h => by rw [h]; rfl⟩

end Except

section EStateM

variable {ε σ α β : Type}

theorem exec_bind_ok {x : EStateM ε σ α} {f : α → EStateM ε σ β} {s s'' : σ} {b : β} :
    (x >>= f) s = .ok b s'' ↔ ∃ a s', x s = .ok a s' ∧ f a s' = .ok b s'' := by
  simp only [bind, EStateM.bind]
  cases x s with
  | ok a s' => exact ⟨fun h => ⟨a, s', rfl, h⟩, fun ⟨a', t, h, hf⟩ => by cases h; exact hf⟩
  | error e s' => exact ⟨fun h => (nomatch h), fun ⟨_, _, h, _⟩ => (nomatch h)⟩

theorem exec_bind_error {x : EStateM ε σ α} {f : α → EStateM ε σ β} {s s'' : σ} {e : ε} :
    (x >>= f) s = .error e s'' ↔
      x s = .error e s'' ∨ ∃ a s', x s = .ok a s' ∧ f a s' = .error e s'' := by
  simp only [bind, EStateM.bind]
  cases x s with
  | ok a s' => exact ⟨fun h => .inr ⟨a, s', rfl, h⟩,
      fun h => h.elim (fun h => (nomatch h)) fun ⟨a', t, h, hf⟩ => by cases h; exact hf⟩
  | error e' s' =>
    refine ⟨fun h => .inl ?_, fun h => ?_⟩
    · cases h; rfl
    · rcases h with h | ⟨_, _, h, _⟩
      · cases h; rfl
      · cases h

/-- A block goes on where its first program returned. -/
theorem exec_bind_of_ok {x : EStateM ε σ α} {f : α → EStateM ε σ β} {s s' : σ} {a : α}
    (h : x s = .ok a s') : (x >>= f) s = f a s' := by
  simp only [bind, EStateM.bind, h]

/-- A block fails where its first program failed. -/
theorem exec_bind_of_error {x : EStateM ε σ α} {f : α → EStateM ε σ β} {s s' : σ} {e : ε}
    (h : x s = .error e s') : (x >>= f) s = .error e s' := by
  simp only [bind, EStateM.bind, h]

theorem exec_get_bind {f : σ → EStateM ε σ β} {s : σ} :
    ((get : EStateM ε σ σ) >>= f) s = f s s := rfl

theorem exec_modify_bind {f : σ → σ} {g : PUnit → EStateM ε σ β} {s : σ} :
    ((modify f : EStateM ε σ PUnit) >>= g) s = g ⟨⟩ (f s) := rfl

@[simp] theorem exec_pure_ok {a b : α} {s s' : σ} :
    (pure a : EStateM ε σ α) s = .ok b s' ↔ a = b ∧ s = s' :=
  ⟨fun h => by cases h; exact ⟨rfl, rfl⟩, fun ⟨h, h'⟩ => by rw [h, h']; rfl⟩

@[simp] theorem exec_pure_error {a : α} {e : ε} {s s' : σ} :
    ((pure a : EStateM ε σ α) s = .error e s') ↔ False :=
  ⟨fun h => (nomatch h), False.elim⟩

@[simp] theorem exec_throw_ok {e : ε} {b : α} {s s' : σ} :
    ((throw e : EStateM ε σ α) s = .ok b s') ↔ False :=
  ⟨fun h => (nomatch h), False.elim⟩

@[simp] theorem exec_throw_error {e e' : ε} {s s' : σ} :
    ((throw e : EStateM ε σ α) s = .error e' s') ↔ e = e' ∧ s = s' :=
  ⟨fun h => by cases h; exact ⟨rfl, rfl⟩, fun ⟨h, h'⟩ => by rw [h, h']; rfl⟩

@[simp] theorem exec_get_ok {a s s' : σ} :
    (get : EStateM ε σ σ) s = .ok a s' ↔ a = s ∧ s' = s :=
  ⟨fun h => by cases h; exact ⟨rfl, rfl⟩, fun ⟨h, h'⟩ => by rw [h, h']; rfl⟩

@[simp] theorem exec_modify_ok {f : σ → σ} {a : PUnit} {s s' : σ} :
    (modify f : EStateM ε σ PUnit) s = .ok a s' ↔ s' = f s :=
  ⟨fun h => by cases h; rfl, fun h => by rw [h]; rfl⟩

/-- The state a program ends in, whether it returns or fails. -/
def finalState (r : EStateM.Result ε σ α) : σ :=
  match r with
  | .ok _ s => s
  | .error _ s => s

/-- The value a program returns, if it does. -/
def returned (r : EStateM.Result ε σ α) : Option α :=
  match r with
  | .ok a _ => some a
  | .error _ _ => none

theorem ok_of_returned {r : EStateM.Result ε σ α} {a : α} (h : returned r = some a) :
    r = .ok a (finalState r) := by
  cases r with
  | ok b s => cases h; rfl
  | error e s => cases h

end EStateM

end Lib
