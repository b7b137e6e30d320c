import LamaSM.Activations
import LamaSM.StringPool

/-! Where strings, globals and activations lie in the one array of the stack.

    `Built` follows how a `FrameStack` comes about: the constructor, frames pushed on top of the
    operands passed to them, locals reserved at the start of an activation. `Layout` is what this says
    about the regions: pool, globals and activations lie above one another. The contents of the words
    play no part in it. -/

namespace LamaSM
open Lib

/-! ### The borders of the regions -/

/-- `__gc_stack_top` as the constructor leaves it. -/
def Machine.initialTop (M : Machine) : ℤ := M.maxStack - M.bf.stringtabSize - M.bf.globalAreaSize

/-- The highest slot for operands of the innermost activation, or of none. -/
def Machine.operandLimit (M : Machine) : List Activation → ℤ
  | [] => M.initialTop
  | a :: _ => a.floor

/-- Each activation, with its header and its arguments, lies below the locals of its caller. -/
def Stacked (M : Machine) : List Activation → Prop
  | [] => True
  | a :: as => a.last ≤ M.operandLimit as ∧ a.isClosure ≤ 1 ∧ Stacked M as

/-- What the registers say about the regions. -/
structure Layout (M : Machine) (s : State) : Prop where
  counter : (s.stringCounter : ℤ) < M.bf.stringtabSize
  stacked : Stacked M s.activations
  top_ge : -1 ≤ s.top ∨ s.activations = []
  top_le : s.top ≤ M.operandLimit s.activations
  fp : ∀ a as, s.activations = a :: as → s.fp = a.fp
  argSizes : s.argSizes = s.activations.map fun a => toI32 a.nargs

section Stacked

variable {M : Machine}

theorem Stacked.last_le : ∀ {as : List Activation}, Stacked M as → ∀ b ∈ as, b.last ≤ M.initialTop
  | [], _, _, hb => nomatch hb
  | [a], h, b, hb => by
    rw [List.mem_singleton.mp hb]
    exact h.1
  | a :: c :: as, ⟨hle, _, hrest⟩, b, hb => by
    rcases List.mem_cons.mp hb with rfl | hb
    · have hc := hrest.last_le c List.mem_cons_self
      have hlast : b.last ≤ c.floor := hle
      have hfloor := c.floor_le_fp
      have hfp := c.fp_lt_last
      omega
    · exact hrest.last_le b hb

end Stacked

/-! ### How the stack comes about -/

/-- The two states have the same activations and registers; the words of the stack, the heap and the
    number of operands may differ. -/
structure SameFrames (s s' : State) : Prop where
  fp : s'.fp = s.fp
  argSizes : s'.argSizes = s.argSizes
  activations : s'.activations = s.activations
  stringCounter : s'.stringCounter = s.stringCounter

/-- States of a `FrameStack` made by the constructor, `push_stack_frame` on top of the operands it
    passes, and `reserve_locals` where there are no operands yet. -/
inductive Built {M : Machine} (E : Env M) : State → Prop
  | start {s : State} : frameStack E (emptyState E) = .ok () s → Built E s
  | operands {s s' : State} : Built E s → SameFrames s s' → -1 ≤ s'.top →
      s'.top ≤ M.operandLimit s.activations → Built E s'
  | frame {s s' : State} {n isClosure : ℕ} {ra : Word} : Built E s → isClosure ≤ 1 →
      s.top + (n + isClosure : ℕ) ≤ M.operandLimit s.activations →
      pushStackFrame M n ra isClosure s = .ok () s' → Built E s'
  | locals {s s' : State} {n : ℕ} : Built E s → s.activations ≠ [] → s.top = s.floor →
      -1 ≤ s.top - n → reserveLocals n s = .ok () s' → Built E s'

section Built

variable {M : Machine} {E : Env M} {s s' : State}

/-- Every string takes a byte more than its characters; so one character makes the pool smaller than
    the table. -/
theorem StringTable.length_lt {bf : Bytefile} {i : ℕ} {l : List (ℕ × List UInt8)}
    (h : StringTable bf i l) : (i + l.length : ℤ) ≤ bf.stringtabSize ∧
      ((∃ e ∈ l, e.2 ≠ []) → (i + l.length : ℤ) < bf.stringtabSize) := by
  induction h with
  | nil hi =>
    refine ⟨by simp [hi], ?_⟩
    rintro ⟨e, he, -⟩
    cases he
  | @cons i string rest hi hstr htail ih =>
    obtain ⟨hle, hlt⟩ := ih
    rw [List.length_cons]
    push_cast at hle hlt ⊢
    refine ⟨by omega, ?_⟩
    rintro ⟨e, he, hne⟩
    rcases List.mem_cons.mp he with rfl | he
    · have hpos := List.length_pos_iff.mpr hne
      dsimp only at hpos
      omega
    · have hrest := hlt ⟨e, he, hne⟩
      omega

theorem Built.layout {l : List (ℕ × List UInt8)} (htable : StringTable M.bf 0 l)
    (hstring : ∃ e ∈ l, e.2 ≠ []) (h : Built E s) : Layout M s := by
  induction h with
  | @start s h =>
    obtain ⟨hfp, hargs, hact, -⟩ := frameStack_registers h
    obtain ⟨_, s₁, hloop, htop⟩ := exec_bind_ok.mp h
    have hb := poolLoop_building htable hloop building_emptyState fun _ he => (nomatch he)
    have hcount := htable.length_lt.2 hstring
    have hcounter := hb.pool.counter
    cases htop
    dsimp only at hfp hargs hact
    rw [List.nil_append] at hcounter
    constructor
    · dsimp only
      omega
    · rw [hact]
      trivial
    · exact .inr hact
    · rw [hact]
      exact Int.le_refl _
    · intro a as he
      rw [hact] at he
      cases he
    · rw [hargs, hact]
      rfl
  | @operands s s' h hsame hge hle ih =>
    have hact := hsame.activations
    exact ⟨hsame.stringCounter ▸ ih.counter, hact ▸ ih.stacked, .inl hge, hact ▸ hle,
      fun a as he => hsame.fp.trans (ih.fp a as (hact ▸ he)), by
        rw [hsame.argSizes, hact, ih.argSizes]⟩
  | @frame s s' n isClosure ra h hclosure hroom hpush ih =>
    have hp := pushStackFrame_ok hpush
    have hactivations := hp.activations
    have hlow := hp.room.1
    constructor
    · rw [hp.stringCounter]
      exact ih.counter
    · rw [hactivations]
      refine ⟨?_, hclosure, ih.stacked⟩
      unfold Activation.last
      push_cast at hroom
      dsimp only
      omega
    · rw [hp.top]
      exact .inl (by omega)
    · rw [hp.top, hactivations]
      show s.top - 3 ≤ s.top - 3 - ((0 : ℕ) : ℤ)
      omega
    · intro a as he
      rw [hactivations] at he
      cases he
      exact hp.fp
    · rw [hp.argSizes, hactivations, ih.argSizes]
      rfl
  | @locals s s' n h hne htop hroom hreserve ih =>
    cases hreserve
    obtain ⟨a, as, hact⟩ := List.exists_cons_of_ne_nil hne
    have hfp := ih.fp a as hact
    have hstacked := ih.stacked
    have hargs := ih.argSizes
    rw [hact] at hstacked hargs
    rw [State.floor, State.reserved, hact] at htop
    dsimp only at htop
    constructor
    · exact ih.counter
    · dsimp only
      rw [hact]
      exact hstacked
    · exact .inl hroom
    · dsimp only
      rw [hact]
      show s.top - n ≤ a.fp - ((a.reserved + n : ℕ) : ℤ)
      push_cast
      omega
    · intro b bs he
      dsimp only at he
      rw [hact] at he
      cases he
      exact hfp
    · dsimp only
      rw [hact, hargs]
      rfl

/-- The loop of `interpret` starts on a stack that has been built. -/
theorem Starts.built (h : Starts E s) : Built E s := by
  obtain ⟨_, s₀, hframe, hpush⟩ := exec_bind_ok.mp h
  have hact := (frameStack_registers hframe).2.2.1
  have htop : s₀.top = M.initialTop := by
    obtain ⟨_, s₁, -, hmod⟩ := exec_bind_ok.mp hframe
    cases hmod
    rfl
  refine .frame (.start hframe) (Nat.zero_le 1) ?_ hpush
  rw [hact, htop]
  exact Int.le_of_eq (Int.add_zero _)

end Built

end LamaSM
