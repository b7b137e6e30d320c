import LamaSM.HeapSteps
import LamaSM.Variables
import LamaSM.Aggregates

/-! What CLOSURE does with the variables it designates.

    `closures_create` takes the designations last to first and pushes the value of each, so the first
    one lies uppermost, right behind the entry, where `Bclosure` expects its words. The pushes do not
    touch the variables of the running activation, so every value is the one the variable had when the
    instruction began. -/

namespace LamaSM
open Lib

/-- Pushes the words, the first one first. -/
def pushOps (M : Machine) : List Word → Exec Unit
  | [] => return ()
  | w :: ws => do
    pushOp M w
    pushOps M ws

/-- `t'` is `t` with the words pushed one after the other. -/
structure Piled (t : State) (ws : List Word) (t' : State) : Prop where
  state : ∃ stack, t' = { t with stack := stack, top := t.top - ws.length }
  words : ∀ (j : ℕ) w, ws[j]? = some w → t'.stack (t.top - j) = w
  above : ∀ i, t.top < i → t'.stack i = t.stack i

section Pushes

variable {M : Machine} {s t t' : State}

theorem Piled.top {ws : List Word} (h : Piled t ws t') : t'.top = t.top - ws.length := by
  obtain ⟨stack, rfl⟩ := h.state
  rfl

theorem pushOps_ok : ∀ {ws : List Word} {t t' : State}, pushOps M ws t = .ok () t' → Piled t ws t'
  | [], t, t', h => by
    cases h
    refine ⟨⟨t.stack, ?_⟩, fun _ _ hw => (nomatch hw), fun _ _ => rfl⟩
    rw [List.length_nil, show t.top - ((0 : ℕ) : ℤ) = t.top by omega]
  | w :: ws, t, t', h => by
    obtain ⟨_, t₁, hpush, hrest⟩ := exec_bind_ok.mp h
    obtain ⟨rfl, -⟩ := pushOp_ok hpush
    have hp := pushOps_ok hrest
    obtain ⟨stack, hstate⟩ := hp.state
    refine ⟨⟨stack, ?_⟩, fun j w' hw => ?_, fun i hi => ?_⟩
    · rw [hstate, List.length_cons]
      congr 1
      dsimp only
      omega
    · cases j with
      | zero =>
        cases hw
        rw [show t.top - ((0 : ℕ) : ℤ) = t.top by omega, hp.above t.top (by dsimp only; omega)]
        exact Function.update_self ..
      | succ j =>
        have hword := hp.words j w' hw
        dsimp only at hword
        rwa [show t.top - ((j + 1 : ℕ) : ℤ) = t.top - 1 - j by omega]
    · rw [hp.above i (by dsimp only; omega)]
      exact Function.update_of_ne (by omega) ..

/-- The pushes go through when there is room for all words. -/
theorem pushOps_total : ∀ (ws : List Word) {t : State}, (ws.length : ℤ) ≤ t.top + 1 →
    t.top < M.maxStack → ∃ t', pushOps M ws t = .ok () t'
  | [], t, _, _ => ⟨t, rfl⟩
  | w :: ws, t, hroom, hM => by
    rw [List.length_cons] at hroom
    have hpush := pushOp_eq (M := M) (s := t) w ⟨by omega, hM⟩
    obtain ⟨t', ht'⟩ := pushOps_total ws
      (t := { t with stack := Function.update t.stack t.top w, top := t.top - 1 })
      (by dsimp only; omega) (by dsimp only; omega)
    exact ⟨t', (exec_bind_of_ok hpush).trans ht'⟩

theorem pushOps_append : ∀ {vs ws : List Word} {t : State},
    pushOps M (vs ++ ws) t = (do pushOps M vs; pushOps M ws : Exec Unit) t
  | [], _, _ => rfl
  | v :: vs, ws, t => by
    rw [List.cons_append, pushOps, pushOps]
    cases hpush : pushOp M v t with
    | error e u => rw [exec_bind_of_error hpush, exec_bind_of_error (exec_bind_of_error hpush)]
    | ok _ u =>
      rw [exec_bind_of_ok hpush, pushOps_append]
      cases hrest : pushOps M vs u with
      | error e u' =>
        rw [exec_bind_of_error hrest, exec_bind_of_error ((exec_bind_of_ok hpush).trans hrest)]
      | ok _ u' => rw [exec_bind_of_ok hrest, exec_bind_of_ok ((exec_bind_of_ok hpush).trans hrest)]

end Pushes

/-! ### Variables of the running activation -/

/-- The operands end below the locals of the running activation, and `arg_sizes` ends with the number
    of its arguments. -/
structure Activated (s : State) : Prop where
  top_le : s.top ≤ s.floor
  argSizes : ∃ rest, s.argSizes = (s.passed : ℤ) :: rest

section Values

variable {M : Machine} {s s' t : State} {d : MemVar} {i : ℕ} {k : ℤ} {w : Word}

theorem Activated.top_le_fp (h : Activated s) : s.top ≤ s.fp := by
  have htop := h.top_le
  unfold State.floor at htop
  omega

theorem Activated.slot_above (h : Activated s) (hr : InRange M s d i) (hd : d ≠ .global)
    (hk : slotOfVariable M s d i = some k) : s.top < k := by
  have htop := h.top_le
  unfold State.floor at htop
  cases d
  case global => exact absurd rfl hd
  case closure | other => cases hk
  case «local» =>
    cases hk
    simp only [InRange] at hr
    omega
  case argument =>
    cases hk
    omega

theorem Activated.closure_above (h : Activated s) {n : ℤ} {ns : List ℤ} (hsizes : s.argSizes = n :: ns) :
    s.top < s.fp + 4 + n := by
  obtain ⟨rest, hargs⟩ := h.argSizes
  obtain ⟨rfl, -⟩ := List.cons.inj (hsizes.symm.trans hargs)
  have htop := h.top_le_fp
  omega

theorem closurePtr_of_sizes {n : ℤ} {ns : List ℤ} (h : s.argSizes = n :: ns) :
    closurePtr M s = readSlot M (s.fp + 4 + n) s := by
  rw [closurePtr, exec_get_bind, h]

/-- The value of a variable depends on its slot, or on the running closure. -/
theorem HasValue.congr (h : HasValue M s d i w) (hsame : SameFrames s s') (hheap : s'.heap = s.heap)
    (hslot : ∀ k, slotOfVariable M s d i = some k → s'.stack k = s.stack k)
    (hclosure : d = .closure → ∀ n ns, s.argSizes = n :: ns →
      s'.stack (s.fp + 4 + n) = s.stack (s.fp + 4 + n)) : HasValue M s' d i w := by
  cases hk : slotOfVariable M s d i with
  | some k =>
    rw [HasValue, getVariable_slot hk] at h
    obtain ⟨-, rfl, hr⟩ := readSlot_ok h
    rw [HasValue, getVariable_slot (hsame.slotOfVariable_eq.trans hk), readSlot_eq hr, hslot k hk]
  | none =>
    cases d
    case global | «local» | argument => cases hk
    case other => cases h
    case closure =>
      obtain ⟨p, s₁, hptr, helem⟩ := exec_bind_ok.mp h
      obtain ⟨rfl, n, ns, hsizes, -⟩ := closurePtr_ok hptr
      rw [closurePtr_of_sizes hsizes] at hptr
      obtain ⟨-, rfl, hr⟩ := readSlot_ok hptr
      obtain ⟨-, o, ho, hget⟩ := Belem_ok helem
      have hptr' : closurePtr M s' = .ok (s₁.stack (s₁.fp + 4 + n)) s' := by
        rw [closurePtr_of_sizes (hsame.argSizes.trans hsizes), hsame.fp, readSlot_eq hr,
          hclosure rfl n ns hsizes]
      exact (exec_bind_of_ok hptr').trans (Belem_eq (hheap ▸ ho) hget)

end Values

/-! ### Designations -/

/-- The designation names a Local, an Argument or a captured variable of the running activation with
    the value. -/
structure Capturable (M : Machine) (s : State) (c : UInt8 × UInt32) (x : Word) : Prop where
  notGlobal : MemVar.ofByte c.1.toNat ≠ .global
  range : InRange M s (MemVar.ofByte c.1.toNat) c.2.toNat
  value : HasValue M s (MemVar.ofByte c.1.toNat) c.2.toNat x

/-- The instruction at `code_ptr` is a CLOSURE of `f` whose designations have the values `xs`. -/
def Captures (M : Machine) (s : State) (f : UInt32) (xs : List Word) : Prop :=
  ∃ (i : Instruction) (count : UInt32), Placed M.bf s.codePtr i.encode ∧ i.type = .closure ∧
    i.args = [f, count] ∧ List.Forall₂ (Capturable M s) i.captures xs

section Designations

variable {M : Machine} {E : Env M} {s t : State} {c : UInt8 × UInt32} {x : Word} {f : UInt32}
  {xs : List Word}

/-- A designated variable keeps its value while words are pushed. -/
theorem Capturable.value_of_above (hs : Activated s) (h : Capturable M s c x) (hsame : SameFrames s t)
    (hheap : t.heap = s.heap) (habove : ∀ i, s.top < i → t.stack i = s.stack i) :
    HasValue M t (MemVar.ofByte c.1.toNat) c.2.toNat x :=
  h.value.congr hsame hheap (fun k hk => habove k (hs.slot_above h.range h.notGlobal hk))
    fun _ _ _ hsizes => habove _ (hs.closure_above hsizes)

/-- The loop pushes the values of the designations. -/
theorem pushDesignations_eq (hs : Activated s) {cs : List (UInt8 × UInt32)} {xs : List Word}
    {t : State} (hcaps : List.Forall₂ (Capturable M s) cs xs) (hsame : SameFrames s t)
    (hheap : t.heap = s.heap) (htop : t.top ≤ s.top) (habove : ∀ i, s.top < i → t.stack i = s.stack i) :
    pushDesignations M (cs.map fun c => ⟨MemVar.ofByte c.1.toNat, c.2.toNat⟩) t = pushOps M xs t := by
  induction hcaps generalizing t with
  | nil => rfl
  | @cons c x cs xs hc _ ih =>
    have hvalue := hc.value_of_above hs hsame hheap habove
    have next : ∀ {get : Exec Word}, get t = .ok x t →
        (do let w ← get; pushOp M w; pushDesignations M (cs.map fun c =>
          ⟨MemVar.ofByte c.1.toNat, c.2.toNat⟩) : Exec Unit) t = pushOps M (x :: xs) t := by
      intro get hget
      rw [exec_bind_of_ok hget, pushOps]
      cases hpush : pushOp M x t with
      | error e u => rw [exec_bind_of_error hpush, exec_bind_of_error hpush]
      | ok _ u =>
        rw [exec_bind_of_ok hpush, exec_bind_of_ok hpush]
        obtain ⟨rfl, -⟩ := pushOp_ok hpush
        refine ih ⟨hsame.fp, hsame.argSizes, hsame.activations, hsame.stringCounter⟩ hheap ?_
          fun i hi => ?_
        · dsimp only
          omega
        · exact (Function.update_of_ne (by omega) ..).trans (habove i hi)
    have hrange := hc.range
    have hglobal := hc.notGlobal
    rw [List.map_cons, pushDesignations]
    dsimp only
    cases hvar : MemVar.ofByte c.1.toNat
    all_goals rw [hvar] at hvalue hrange hglobal
    case global => exact absurd rfl hglobal
    case «local» => exact next hvalue
    case argument => exact next hvalue
    case closure => exact next hvalue
    case other => exact hrange.elim

/-- What `closures_create` reads of the instruction, and what its loop pushes. -/
theorem Captures.read (hs : Activated s) (h : Captures M s f xs) :
    M.bf.code32 (s.codePtr + 1) = .ok f.toNat ∧ M.bf.code32 (s.codePtr + 1 + 4) = .ok xs.length ∧
      ∃ ds, consumeDesignations M xs.length { s with codePtr := s.codePtr + 9 } =
          .ok ds { s with codePtr := s.codePtr + 9 + 5 * xs.length } ∧
        pushDesignations M ds.reverse { s with codePtr := s.codePtr + 9 + 5 * xs.length } =
          pushOps M xs.reverse { s with codePtr := s.codePtr + 9 + 5 * xs.length } := by
  obtain ⟨i, count, hplaced, htype, hargs, hvalues⟩ := h
  obtain ⟨entry, count', hargs', hcount⟩ := i.closure_args htype
  obtain ⟨rfl, rfl⟩ : f = entry ∧ count = count' := by simpa using hargs.symm.trans hargs'
  have hlen : i.captures.length = xs.length := hvalues.length_eq
  have hf := Instruction.operand hplaced (k := 0) (w := f) (by rw [hargs]; rfl)
  have hn := Instruction.operand hplaced (k := 1) (w := count) (by rw [hargs]; rfl)
  have hcaptured := Instruction.captured hplaced
  rw [hargs, show s.codePtr + 1 + 4 * (([f, count] : List UInt32).length : ℤ) = s.codePtr + 9 by
    simp only [List.length_cons, List.length_nil]; omega] at hcaptured
  have hds := consumeDesignations_eq (M := M) (s := { s with codePtr := s.codePtr + 9 }) hcaptured
  rw [hlen] at hds
  refine ⟨by simpa using hf, ?_, _, hds, ?_⟩
  · rw [← hlen, hcount]
    simpa using hn
  · rw [← List.map_reverse]
    exact pushDesignations_eq hs (List.forall₂_reverse_iff.mpr hvalues) ⟨rfl, rfl, rfl, rfl⟩ rfl
      (Int.le_refl _) fun _ _ => rfl

/-- CLOSURE pushes the values of the variables, the first one last, and the entry behind them, and
    calls `Bclosure` on these words. -/
theorem closuresCreate_eq (hs : Activated s) (h : Captures M s f xs)
    (hpushes : pushOps M (xs.reverse ++ [boxInt f.toNat])
      { s with codePtr := s.codePtr + (9 + 5 * xs.length : ℕ) } = .ok () t) :
    closuresCreate E s = (do
      let res ← Bclosure E (t.top + 1) xs.length
      popOps (toU32 (xs.length + 1))
      pushOp M res) t := by
  obtain ⟨hf, hn, ds, hds, hvalues⟩ := h.read hs
  rw [show s.codePtr + ((9 + 5 * xs.length : ℕ) : ℤ) = s.codePtr + 9 + 5 * xs.length by omega,
    pushOps_append] at hpushes
  obtain ⟨_, t₁, hwords, hentry⟩ := exec_bind_ok.mp hpushes
  obtain ⟨_, t₂, hentry, hlast⟩ := exec_bind_ok.mp hentry
  cases hlast
  rw [closuresCreate, exec_bind_of_ok (consumeArgs2_eq hf hn)]
  refine (exec_bind_of_ok hds).trans ?_
  refine (exec_bind_of_ok (hvalues.trans hwords)).trans ?_
  refine (exec_bind_of_ok hentry).trans ?_
  rw [exec_get_bind]

/-- The words the constructor finds: the entry lies at the top, the values behind it in the order of
    the designations. -/
theorem Piled.slots {a : Word} (h : Piled s (xs.reverse ++ [a]) t) :
    t.stack (t.top + 1) = a ∧ (argSlots (t.top + 1) 1 xs.length).map t.stack = xs := by
  have htop := h.top
  rw [List.length_append, List.length_reverse, List.length_singleton] at htop
  have hlast : (xs.reverse ++ [a])[xs.length]? = some a := by
    rw [List.getElem?_append_right (by simp)]
    simp
  refine ⟨?_, List.ext_getElem? fun j => ?_⟩
  · rw [show t.top + 1 = s.top - (xs.length : ℕ) by omega]
    exact h.words _ _ hlast
  · by_cases hj : j < xs.length
    · have hword : (xs.reverse ++ [a])[xs.length - 1 - j]? = some xs[j] := by
        rw [List.getElem?_append_left (by rw [List.length_reverse]; omega),
          List.getElem?_reverse (by omega)]
        rw [show xs.length - 1 - (xs.length - 1 - j) = j by omega, List.getElem?_eq_getElem hj]
      have hread := h.words _ _ hword
      rw [List.getElem?_eq_getElem hj, argSlots, List.map_map, List.getElem?_map,
        List.getElem?_range hj, Option.map_some, Function.comp_apply]
      rw [show t.top + 1 + ((1 : ℕ) : ℤ) + j = s.top - ((xs.length - 1 - j : ℕ) : ℤ) by omega, hread]
    · rw [List.getElem?_eq_none (by rw [List.length_map, length_argSlots]; omega),
        List.getElem?_eq_none (by omega)]

theorem closuresCreate_constructs (hs : Activated s) (h : Captures M s f xs)
    (hroots : s.extraRoots = []) (hn : xs.length ≤ maxExtraRootsNumber)
    (hroom : (xs.length : ℤ) ≤ s.top ∧ s.top < M.maxStack)
    (hpushes : pushOps M (xs.reverse ++ [boxInt f.toNat])
      { s with codePtr := s.codePtr + (9 + 5 * xs.length : ℕ) } = .ok () t) :
    Constructs E s (closuresCreate E) 0 (xs.length + 1) (9 + 5 * xs.length) xs
      (argSlots (t.top + 1) 1 xs.length) (Bclosure E (t.top + 1) xs.length)
      (fun g => .closure (g (t.top + 1)) ((argSlots (t.top + 1) 1 xs.length).map g)) t := by
  have hpiled := pushOps_ok hpushes
  obtain ⟨stack, hstate⟩ := hpiled.state
  have hlen : ((xs.reverse ++ [boxInt f.toNat]).length : ℤ) = xs.length + 1 := by simp
  have htop := hpiled.top
  dsimp only at htop
  have hempty : t.extraRoots = [] := by
    rw [hstate]
    exact hroots
  have hrange : 0 ≤ t.top + 1 ∧ t.top + 1 + 1 + xs.length ≤ M.maxStack := by omega
  constructor
  · refine ⟨⟨stack, s.touched, ?_⟩, fun i hi hM => ⟨i, by omega, hM, hpiled.above i hi⟩, fun w hw => ?_,
      fun j hj hM => ?_, fun i hi => hpiled.above i (by simpa using hi)⟩
    · rw [hstate]
      congr 1
      dsimp only
      omega
    · rw [← hpiled.slots.2] at hw
      obtain ⟨i, hi, rfl⟩ := List.mem_map.mp hw
      rw [mem_argSlots] at hi
      exact ⟨i, by omega, by omega, rfl⟩
    · by_cases habove : s.top < j
      · exact .inl ⟨j, habove, hM, hpiled.above j habove⟩
      · by_cases hentry : j = t.top + 1
        · refine .inr (.inr ?_)
          rw [hentry, hpiled.slots.1]
          exact boxInt_ne_zero _
        · refine .inr (.inl ?_)
          have hslot : j ∈ argSlots (t.top + 1) 1 xs.length := mem_argSlots.mpr (by omega)
          rw [← hpiled.slots.2]
          exact List.mem_map_of_mem hslot
  · intro i hi
    rw [mem_argSlots] at hi
    omega
  · exact hroots
  · omega
  · omega
  · have hmax : xs.length ≤ 32 := hn
    have hcount : toU32 (xs.length + 1 : ℕ) = xs.length + 1 := toU32_of_lt (by omega)
    rw [closuresCreate_eq hs h hpushes]
    push_cast at hcount
    rw [hcount]
  · exact fun a u => Bclosure_eq hempty hn hrange
  · exact fun e u => Bclosure_error hempty hn

end Designations

end LamaSM
