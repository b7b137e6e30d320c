import LamaSM.CallReturn
import LamaSM.Captures

/-! How arguments and captured variables reach the code of a function.

    CALL and CALLC turn the arguments around, so that the first one lies right above the header, and
    the instructions of the callee and of what it calls leave these slots alone until one of them
    stores there. A closure keeps the words CLOSURE gave it wherever collections move it, and CALLC
    leaves it in the slot behind the arguments. Words that are addresses of the heap change with every
    collection; `since` follows them. -/

namespace LamaSM
open Lib

/-! ### Words through collections -/

/-- What the collections between two states of a run made of a word. -/
def since (s s' : State) (w : Word) : Word :=
  relocated (s'.collections.take (s'.collections.length - s.collections.length)) w

/-- The collections of `s` come before those of `s'`. -/
def Later (s s' : State) : Prop := ∃ log, s'.collections = log ++ s.collections

section Since

variable {s s' s'' : State} {log : List (Word → Word)}

theorem since_eq (h : s'.collections = log ++ s.collections) (w : Word) :
    since s s' w = relocated log w := by
  rw [since, h, List.length_append, Nat.add_sub_cancel, List.take_left]

theorem since_same (h : s'.collections = s.collections) (w : Word) : since s s' w = w := by
  have hnone : s'.collections = [] ++ s.collections := h
  exact since_eq hnone w

theorem Later.refl (s : State) : Later s s := ⟨[], rfl⟩

theorem Later.trans (h : Later s s') (h' : Later s' s'') : Later s s'' := by
  obtain ⟨log, hlog⟩ := h
  obtain ⟨log', hlog'⟩ := h'
  exact ⟨log' ++ log, by rw [hlog', hlog, List.append_assoc]⟩

theorem since_trans (h : Later s s') (h' : Later s' s'') (w : Word) :
    since s s'' w = since s' s'' (since s s' w) := by
  obtain ⟨log, hlog⟩ := h
  obtain ⟨log', hlog'⟩ := h'
  have hall : s''.collections = (log' ++ log) ++ s.collections := by
    rw [hlog', hlog, List.append_assoc]
  rw [since_eq hall, since_eq hlog, since_eq hlog', relocated_append]

end Since

/-! ### What a call passes -/

/-- The instruction at `code_ptr` passes `n` arguments, and with `c = 1` a closure below them. -/
inductive CallsWith (M : Machine) (s : State) : ℕ → ℕ → Prop
  | call {n : ℕ} : At M s .call → M.bf.code32 (s.codePtr + 1 + 4) = .ok n → CallsWith M s n 0
  | callc {n : ℕ} : At M s .callc → M.bf.code32 (s.codePtr + 1) = .ok n → CallsWith M s n 1

/-- No instruction of the types in `stores` at `code_ptr` stores to the slot. -/
def Spares (M : Machine) (stores : InstructionType → Prop) (k : ℤ) (s : State) : Prop :=
  ∀ type, At M s type → stores type → storeSlot M s type ≠ some k

/-- LD of the variable pushes the word, when there is room. -/
def Loads {M : Machine} (E : Env M) (s : State) (d : MemVar) (i : ℕ) (w : Word) : Prop :=
  ∀ n : UInt32, n.toNat = i → Placed M.bf s.codePtr (ldInstruction d n).encode → 0 ≤ s.top →
    ∃ s', Step E s s' ∧ Evaluated s 5 w s'

section Calls

variable {M : Machine} {E : Env M} {s s₁ : State} {n c : ℕ} {bound : ℤ}

theorem CallsWith.atCall (h : CallsWith M s n c) : ∃ length, AtCall M s (n + c) length := by
  cases h with
  | call hat hn => exact ⟨9, .call hat hn⟩
  | callc hat hn => exact ⟨5, .callc hat hn⟩

theorem CallsWith.pushed (h : CallsWith M s n c) (hstep : Step E s s₁) : ∃ ra entry,
    Pushed M s n c ra entry s₁ ∧ M.heapZone ra = false := by
  obtain ⟨type, hat, hd⟩ := (turn_ok E).mp hstep
  cases h with
  | call hcall hn =>
    cases hat.unique hcall
    obtain ⟨-, target, m, -, hm, hp⟩ := call_ok hd
    obtain rfl := Except.ok.inj (hn.symm.trans hm)
    exact ⟨_, _, hp, (codeAddr_behind hn _ (by omega)).1⟩
  | callc hcall hn =>
    cases hat.unique hcall
    obtain ⟨-, m, elem, hm, -, -, hp⟩ := callc_ok hd
    obtain rfl := Except.ok.inj (hn.symm.trans hm)
    exact ⟨_, _, hp, (codeAddr_behind hn _ (by omega)).1⟩

end Calls

/-! ### The slots of a call -/

section Slots

variable {M : Machine} {E : Env M} {B : Base} {A : List Activation} {sizes : List ℤ}
  {as : List Activation} {a : Activation} {s s' s₁ : State} {bound k : ℤ}

/-- The outermost activation of a chain, and what lies above all others. -/
theorem Linked.bottom {stack : ℤ → Word} : ∀ {as : List Activation} {a : Activation},
    Linked M B stack (a :: as) → a.fp ≤ B.bottom.fp ∧ B.bottom.last ≤ B.floor ∧
      (as ≠ [] → a.last ≤ B.bottom.fp) ∧ (as = [] → a.SameCall B.bottom)
  | [], a, h => by
    obtain ⟨hfp, hnargs, hclosure, hra⟩ := h.2.1 rfl
    have hlast : a.last = B.bottom.last := by
      unfold Activation.last
      rw [hfp, hnargs, hclosure]
    have hle : a.last ≤ B.floor := h.1.last_le
    exact ⟨by omega, by omega, fun hne => absurd rfl hne, fun _ => ⟨hfp, hnargs, hclosure, hra⟩⟩
  | b :: as, a, h => by
    obtain ⟨hfp, hlast, -, -⟩ := h.2.2.2.bottom
    have hle : a.last ≤ b.floor := h.1.last_le
    have hfloor := b.floor_le_fp
    have hlow := a.fp_lt_last
    exact ⟨by omega, hlast, fun _ => by omega, fun hnil => by cases hnil⟩

/-- The slots between the header of the outermost activation and its caller. -/
structure Passed (B : Base) (k : ℤ) : Prop where
  low : B.bottom.fp + 3 < k
  high : k ≤ B.bottom.last

/-- They lie above the operands and the locals of the running activation. -/
theorem Passed.above (hk : Passed B k) (h : Chain M B A sizes (a :: as) s) :
    a.floor < k ∧ a.fp < k ∧ k ≤ B.floor := by
  obtain ⟨hfp, hlast, -, -⟩ := h.linked.bottom
  have hfloor := a.floor_le_fp
  have hlow := hk.low
  have hhigh := hk.high
  omega

/-- A turn leaves a word behind the locals, up to collections, unless it stores there or ends the
    activation whose last word it is. -/
theorem Turned.word (h : Chain M B A sizes (a :: as) s) (hin : Stays M bound s)
    (ht : Turned E B A sizes a as s s') (hfp : a.fp < k) (hM : k < M.maxStack)
    (hspare : Spares M (fun _ => True) k s) (hlast : Chain M B A sizes as s' → k ≠ a.last) :
    s'.stack k = since s s' (s.stack k) := by
  have hfloor := a.floor_le_fp
  have hlow := h.linked.1.fp_ge
  cases ht with
  | @plain type hat hplain hd hc =>
    obtain ⟨-, pc', -, hkeeps, -, -⟩ := (dispatch_plain E type hplain s).of_ok rfl hd
    obtain ⟨log, hlog, -, hwords⟩ := hkeeps.words
    have hneed := h.need_le (hin type hat)
    rw [since_eq hlog]
    exact hwords k (by omega) (by omega) (hspare type hat trivial)
  | enter hat hbegin hd harg hn hroom hs' hc =>
    rw [hs']
    exact (since_same rfl _).symm
  | call hat hd htarget hn hp hback hc =>
    rw [since_same hp.collections]
    have hlast : _ ≤ a.floor := hc.linked.1.last_le
    unfold Activation.last at hlast
    exact hp.rest k (.inr (by dsimp only at hlast; omega))
  | callc hat hd hn hentry hp hback hc =>
    rw [since_same hp.collections]
    have hlast : _ ≤ a.floor := hc.linked.1.last_le
    unfold Activation.last at hlast
    exact hp.rest k (.inr (by dsimp only at hlast; omega))
  | leave hat hd hra hpc htop hstack hc =>
    rw [since_same (end_ok hd).collections, hstack, Function.update_of_ne (hlast hc)]

/-- A turn leaves the word in a slot of the outermost call, up to collections, unless it stores there or
    ends that activation. -/
theorem Turned.slot (hB : B.Valid M) (h : Chain M B A sizes (a :: as) s) (hin : Stays M bound s)
    (ht : Turned E B A sizes a as s s') (hk : Passed B k) (hdepth : A.length < s'.activations.length)
    (hspare : Spares M (fun _ => True) k s) : s'.stack k = since s s' (s.stack k) := by
  obtain ⟨hfloor, hfp, hle⟩ := hk.above h
  have hM := hB.floor_lt
  refine ht.word h hin hfp (by omega) hspare fun hc => ?_
  have hne : as ≠ [] := by
    rintro rfl
    rw [hc.activations] at hdepth
    exact absurd hdepth (Nat.lt_irrefl _)
  have habove := h.linked.bottom.2.2.1 hne
  have hlowk := hk.low
  omega

/-- A step of the callee or of what it calls. -/
structure CalleeStep (M : Machine) (B : Base) (A : List Activation) (sizes : List ℤ) (s s' : State) :
    Prop where
  chain : ∃ as, Chain M B A sizes as s'
  later : Later s s'
  slot : ∀ k, Passed B k → A.length < s'.activations.length → Spares M (fun _ => True) k s →
    s'.stack k = since s s' (s.stack k)

theorem calleeStep (hmax : M.maxStack < 2 ^ 32) (hB : B.Valid M) (hbound : B.floor ≤ bound)
    (hM : bound < M.maxStack) (h : ∃ as, Chain M B A sizes as s) (hin : Stays M bound s)
    (hdepth : A.length < s.activations.length) (hstep : Step E s s') : CalleeStep M B A sizes s s' := by
  obtain ⟨as, hc⟩ := h
  cases as with
  | nil =>
    rw [hc.activations] at hdepth
    exact absurd hdepth (Nat.lt_irrefl _)
  | cons a as =>
    obtain ⟨-, hgo⟩ := turn_chain hmax hB hbound hM hc hin hstep
    obtain ⟨hturned, log, hlog, -, -⟩ := hgo rfl
    obtain ⟨as', hc', -⟩ := hturned.chain
    exact ⟨⟨as', hc'⟩, ⟨log, hlog⟩, fun k hk hd hspare => hturned.slot hB hc hin hk hd hspare⟩

/-- While the callee runs, the word in a slot nothing is stored to is the one the call left. -/
theorem callee_slot (hmax : M.maxStack < 2 ^ 32) (hB : B.Valid M) (hbound : B.floor ≤ bound)
    (hM : bound < M.maxStack) (hk : Passed B k) (h : ∃ as, Chain M B A sizes as s₁)
    (hrun : Run (Step E) (fun u => Stays M bound u ∧ A.length < u.activations.length ∧
      Spares M (fun _ => True) k u) s₁ s) :
    (∃ as, Chain M B A sizes as s) ∧ Later s₁ s ∧
      (A.length < s.activations.length → s.stack k = since s₁ s (s₁.stack k)) := by
  refine Run.invariant (I := fun u => (∃ as, Chain M B A sizes as u) ∧ Later s₁ u ∧
    (A.length < u.activations.length → u.stack k = since s₁ u (s₁.stack k))) ?_
    ⟨h, Later.refl s₁, fun _ => (since_same rfl _).symm⟩ hrun
  intro u v ⟨hc, hlater, hslot⟩ ⟨hin, hdepth, hspare⟩ hstep
  have hs := calleeStep hmax hB hbound hM hc hin hdepth hstep
  refine ⟨hs.chain, hlater.trans hs.later, fun hd => ?_⟩
  rw [hs.slot k hk hd hspare, hslot hdepth, since_trans hlater hs.later]

/-- The activation that runs is the one the call made. -/
theorem Chain.outermost (h : ∃ as, Chain M B A sizes as s)
    (hdepth : s.activations.length = A.length + 1) :
    ∃ a, Chain M B A sizes [a] s ∧ a.SameCall B.bottom := by
  obtain ⟨as, hc⟩ := h
  rw [hc.activations, List.length_append] at hdepth
  obtain ⟨a, rfl⟩ := List.length_eq_one_iff.mp (show as.length = 1 by omega)
  exact ⟨a, hc, hc.linked.2.1 rfl⟩

end Slots

/-! ### Arguments -/

/-- What the callee finds: its activation on its own base, and the words of the call in the slots above
    the header, the arguments the other way around. -/
structure Called (M : Machine) (bound : ℤ) (s : State) (n c : ℕ) (B : Base) (s₁ : State) : Prop where
  valid : B.Valid M
  floor_le : B.floor ≤ bound
  bottom : B.bottom.fp = s.top - 3 ∧ B.bottom.nargs = n ∧ B.bottom.isClosure = c
  chain : ∃ as, Chain M B s.activations s.argSizes as s₁
  fp : s₁.fp = s.top - 3
  collections : s₁.collections = s.collections
  heap : s₁.heap = s.heap
  arguments : ∀ i < n, s₁.stack (s.top + 1 + i) = s.stack (s.top + n - i)
  closure : s₁.stack (s.top + 1 + n) = s.stack (s.top + 1 + n)

section Arguments

variable {M : Machine} {E : Env M} {s s₁ u : State} {n c : ℕ} {bound : ℤ} {B : Base} {w : Word}

theorem CallsWith.called (hmax : M.maxStack < 2 ^ 32) (hM : bound < M.maxStack) (hfp : s.fp ≤ bound)
    (h : CallsWith M s n c) (hin : Stays M bound s) (hstep : Step E s s₁) :
    ∃ B, Called M bound s n c B s₁ := by
  obtain ⟨length, hcall⟩ := h.atCall
  have hop := hcall.operands hin
  unfold State.operands State.floor at hop
  obtain ⟨ra, entry, hp, hzone⟩ := h.pushed hstep
  have hroom := hp.room
  refine ⟨⟨s.fp, s.top + (n + c : ℕ), ⟨s.top - 3, n, c, ra, 0⟩⟩,
    Base.valid_of_slot _ (by omega) (by omega) (by omega), by dsimp only; omega, ⟨rfl, rfl, rfl⟩,
    ⟨_, chain_of_pushed hp (by omega) hzone⟩, hp.fp, hp.collections, hp.heap, fun i hi => ?_,
    hp.rest _ (.inr (by omega))⟩
  rw [hp.args _ (by omega) (by omega)]
  congr 1
  omega

/-- The slots of the arguments and of the closure. -/
theorem Called.passed (h : Called M bound s n c B s₁) {i : ℕ} (hi : i < n + c) :
    Passed B (s.top + 1 + i) := by
  obtain ⟨hfp, hnargs, hclosure⟩ := h.bottom
  constructor
  · omega
  · unfold Activation.last
    omega

/-- LD pushes the value of the variable. -/
theorem loads_of_value {d : MemVar} {i : ℕ} (htop : u.top < M.maxStack) (hw : HasValue M u d i w) :
    Loads E u d i w := by
  rintro n rfl hcode hroom
  have known : d.isOther = false := by cases d <;> first | rfl | cases hw
  have hget : getVariable M d n.toNat { u with codePtr := u.codePtr + 5 } =
      .ok w { u with codePtr := u.codePtr + 5 } :=
    hw.congr ⟨rfl, rfl, rfl, rfl⟩ rfl (fun _ _ => rfl) fun _ _ _ _ => rfl
  have hstep : Step E u { u with
      codePtr := u.codePtr + 5, top := u.top - 1, stack := Function.update u.stack u.top w } := by
    rw [step_iff E (at_ld hcode) rfl, memLoad_eq known hcode, exec_bind_of_ok hget]
    exact pushOp_eq w ⟨hroom, htop⟩
  refine ⟨_, hstep, ⟨_, _, rfl⟩, Function.update_self .., fun i hi => ?_⟩
  exact Function.update_of_ne (ne_of_gt hi) ..

/-- The running activation is the one of the call. -/
theorem Called.running (h : Called M bound s n c B s₁)
    (hc : ∃ as, Chain M B s.activations s.argSizes as u)
    (hdepth : u.activations.length = s.activations.length + 1) :
    u.fp = s.top - 3 ∧ u.top < M.maxStack ∧ u.argSizes = toI32 n :: s.argSizes := by
  obtain ⟨a, hchain, hfp, hnargs, -, -⟩ := Chain.outermost hc hdepth
  obtain ⟨hbfp, hbnargs, -⟩ := h.bottom
  have hufp : u.fp = a.fp := hchain.fp
  have htop : u.top ≤ a.floor := hchain.top
  have hle := hchain.linked.last_le a List.mem_cons_self
  have hlast := a.fp_lt_last
  have hfloor := a.floor_le_fp
  have hM := h.valid.floor_lt
  refine ⟨by rw [hufp, hfp, hbfp], by omega, ?_⟩
  rw [hchain.argSizes, ← hbnargs, ← hnargs]
  rfl

/-- LD Argument i in the activation of the call, after whatever ran in between. -/
theorem Called.loads_argument (hmax : M.maxStack < 2 ^ 32) (hM : bound < M.maxStack)
    (h : Called M bound s n c B s₁) {i : ℕ} (hi : i < n)
    (hrun : Run (Step E) (fun t => Stays M bound t ∧ s.activations.length < t.activations.length ∧
      Spares M (fun _ => True) (s₁.fp + 4 + i) t) s₁ u)
    (hdepth : u.activations.length = s.activations.length + 1) :
    Loads E u .argument i (since s u (s.stack (s.top + n - i))) := by
  have hk := h.passed (show i < n + c by omega)
  have hslot : s₁.fp + 4 + i = s.top + 1 + i := by
    have hfp := h.fp
    omega
  rw [hslot] at hrun
  obtain ⟨hchain, hlater, hword⟩ := callee_slot hmax h.valid h.floor_le hM hk h.chain hrun
  obtain ⟨hfp, htop, -⟩ := h.running hchain hdepth
  obtain ⟨a, hc, -⟩ := Chain.outermost hchain hdepth
  obtain ⟨-, -, hle⟩ := hk.above hc
  have hfloor := h.valid.floor_lt
  have hlow := hc.linked.1.fp_ge
  have hufp : u.fp = a.fp := hc.fp
  have hlate : Later s s₁ := ⟨[], h.collections⟩
  refine loads_of_value htop ?_
  rw [HasValue, getVariable_slot rfl, show u.fp + 4 + i = s.top + 1 + i by omega,
    readSlot_eq (by omega), hword (by omega), h.arguments i hi, since_trans hlate hlater,
    since_same h.collections]

end Arguments

/-! ### A closure through a run -/

/-- The words above `__gc_stack_top`, which every collection scans. -/
def scannedWords (M : Machine) (s : State) : List Word :=
  (List.range (M.maxStack - 1 - s.top).toNat).map fun k : ℕ => s.stack (s.top + 1 + k)

/-- A step with an address: its object can be reached from the stack and moves with the collections. -/
structure Follows {M : Machine} (E : Env M) (p q : State × Word) : Prop where
  step : Step E p.1 q.1
  live : Live p.1.heap (scannedWords M p.1) p.2
  moved : q.2 = since p.1 q.1 p.2

/-- No instruction of the types in `stores` at `code_ptr` changes the word `idx` of the object's
    contents. -/
def SparesWord (M : Machine) (stores : InstructionType → Prop) (idx : ℕ) (s : State) (a : Word) : Prop :=
  ∀ type, At M s type → stores type → ∀ o o', s.heap a = some o → Overwrites M s type a o o' →
    o'.elem idx = o.elem idx

/-- A closure lies at the address, and `w` is the word `idx` of its contents: the entry, or a captured
    variable. -/
structure ClosureWord (M : Machine) (heap : Heap) (a : Word) (idx : ℕ) (w : Word) : Prop where
  zone : M.heapZone a = true
  word : ∃ entry captured, heap a = some (.closure entry captured) ∧
    (entry :: captured)[idx]? = some w
  entry : idx = 0 → M.heapZone w = false

section ClosureWords

variable {M : Machine} {E : Env M} {s s' : State} {type : InstructionType} {a w : Word} {idx : ℕ}
  {log : List (Word → Word)} {heap : Heap}

theorem mem_scannedWords : w ∈ scannedWords M s ↔
    ∃ i, s.top < i ∧ i < M.maxStack ∧ s.stack i = w := by
  simp only [scannedWords, List.mem_map, List.mem_range]
  constructor
  · rintro ⟨k, hk, rfl⟩
    exact ⟨s.top + 1 + k, by omega, by omega, rfl⟩
  · rintro ⟨i, hlo, hhi, rfl⟩
    refine ⟨(i - s.top - 1).toNat, by omega, ?_⟩
    congr 1
    omega

theorem Live.mono {h : Heap} {roots roots' : List Word} (hsub : ∀ w ∈ roots, w ∈ roots') {a : Word}
    (hlive : Live h roots a) : Live h roots' a := by
  induction hlive with
  | root hmem hsome => exact .root (hsub _ hmem) hsome
  | pointer _ ho hmem hsome ih => exact .pointer ih ho hmem hsome

theorem ClosureWord.isSome (h : ClosureWord M heap a idx w) : (heap a).isSome := by
  obtain ⟨entry, captured, hobj, -⟩ := h.word
  rw [hobj]
  rfl

/-- An object in a slot above the top can be reached. -/
theorem live_of_slot {i : ℤ} (hlo : s.top < i) (hhi : i < M.maxStack) (hsome : (s.heap (s.stack i)).isSome) :
    Live s.heap (scannedWords M s) (s.stack i) :=
  .root (mem_scannedWords.mpr ⟨i, hlo, hhi, rfl⟩) hsome

/-- What a store makes of a closure is a closure with as many variables. -/
theorem Obj.closure_put {entry v : Word} {captured : List Word} {i : ℤ} {o' : Obj}
    (h : (Obj.closure entry captured).put i v = some o') :
    ∃ entry' captured', o' = .closure entry' captured' ∧ captured'.length = captured.length := by
  unfold Obj.put at h
  split at h
  · cases h
  dsimp only at h
  split at h
  · exact ⟨_, _, (Option.some.inj h).symm, rfl⟩
  · split at h
    · exact ⟨_, _, (Option.some.inj h).symm, List.length_set⟩
    · cases h

theorem Overwrites.of_closure {entry : Word} {captured : List Word} {o' : Obj}
    (h : Overwrites M s type a (.closure entry captured) o') :
    ∃ entry' captured', o' = .closure entry' captured' ∧ captured'.length = captured.length := by
  generalize ho : Obj.closure entry captured = o at h
  cases h with
  | captured _ _ _ _ hput => exact Obj.closure_put (ho ▸ hput)
  | element _ hput => exact Obj.closure_put (ho ▸ hput)
  | first v =>
    subst ho
    exact ⟨v, captured, rfl, rfl⟩

theorem Obj.elem_closure (entry : Word) (captured : List Word) (idx : ℕ) :
    (Obj.closure entry captured).elem idx = (entry :: captured)[idx]? := by
  rw [Obj.elem, if_neg (by omega)]
  rfl

/-- A collection moves a closure that can be reached, and its captured words. -/
theorem Collected.closure {entry : Word} {captured : List Word} (hc : Collected M s (relocated log) heap)
    (hzone : M.heapZone a = true) (hobj : s.heap a = some (.closure entry captured))
    (hlive : Live s.heap (scannedWords M s) a) : M.heapZone (relocated log a) = true ∧
      heap (relocated log a) = some (.closure entry (captured.map (relocated log))) := by
  cases hc with
  | kept words same =>
    have hid : relocated log = id := funext words
    rw [words, same, hobj, hid, List.map_id]
    exact ⟨hzone, rfl⟩
  | @moved roots forward stack guarantee words =>
    have hroots : Live s.heap roots a := hlive.mono fun v hv => by
      obtain ⟨i, hlo, hhi, rfl⟩ := mem_scannedWords.mp hv
      exact stack i hlo hhi
    have hmoved := guarantee.moved a _ hroots hobj
    have ha : relocated log a = forward a := by
      rw [words, relocateWord, hzone, hobj]
      rfl
    rw [← words] at hmoved
    rw [ha]
    exact ⟨guarantee.inZone _ (by rw [hmoved]; rfl), hmoved⟩

/-- With it goes each of its words; the entry is no heap address. -/
theorem ClosureWord.collected (h : ClosureWord M s.heap a idx w)
    (hlive : Live s.heap (scannedWords M s) a) (hc : Collected M s (relocated log) heap) :
    ClosureWord M heap (relocated log a) idx (relocated log w) := by
  obtain ⟨entry, captured, hobj, hword⟩ := h.word
  obtain ⟨hzone, hmoved⟩ := hc.closure h.zone hobj hlive
  have hentry : idx = 0 → relocated log w = w := fun h0 => hc.word (h.entry h0)
  refine ⟨hzone, ⟨entry, captured.map (relocated log), hmoved, ?_⟩, fun h0 => ?_⟩
  · cases idx with
    | zero => rw [hentry rfl, List.getElem?_cons_zero, ← List.getElem?_cons_zero, hword]
    | succ j =>
      rw [List.getElem?_cons_succ] at hword ⊢
      rw [List.getElem?_map, hword]
      rfl
  · rw [hentry h0]
    exact h.entry h0

/-- A word that is no heap address stays the same through a run. -/
theorem since_run {guard : State → Prop} (hw : M.heapZone w = false) (hrun : Run (Step E) guard s s') :
    since s s' w = w ∧ Later s s' := by
  refine Run.invariant (I := fun u => since s u w = w ∧ Later s u) ?_
    ⟨since_same rfl w, Later.refl s⟩ hrun
  intro u v ⟨hsame, hlater⟩ _ hstep
  obtain ⟨type, -, hd⟩ := (turn_ok E).mp hstep
  have hturn : since u v w = w ∧ Later u v := by
    cases dispatch_heap hd with
    | same hheap hcoll => exact ⟨since_same hcoll w, [], hcoll⟩
    | store writes present hheap hcoll => exact ⟨since_same hcoll w, [], hcoll⟩
    | create filled hentry =>
      rw [since_eq filled.collections]
      exact ⟨filled.collected.word hw, _, filled.collections⟩
  rw [since_trans hlater hturn.2, hsame]
  exact ⟨hturn.1, hlater.trans hturn.2⟩

/-- A step that spares a word of a closure keeps it, where collections move the closure and the word. -/
theorem ClosureWord.step (h : ClosureWord M s.heap a idx w)
    (hlive : Live s.heap (scannedWords M s) a) (hstep : Step E s s')
    (hspare : SparesWord M (fun _ => True) idx s a) :
    ClosureWord M s'.heap (since s s' a) idx (since s s' w) ∧ Later s s' := by
  obtain ⟨type, hat, hd⟩ := (turn_ok E).mp hstep
  cases dispatch_heap hd with
  | same hheap hcoll =>
    rw [since_same hcoll, since_same hcoll, hheap]
    exact ⟨h, [], hcoll⟩
  | @store b o o' writes present hheap hcoll =>
    rw [since_same hcoll, since_same hcoll, hheap]
    refine ⟨⟨h.zone, ?_, h.entry⟩, [], hcoll⟩
    obtain ⟨entry, captured, hobj, hword⟩ := h.word
    by_cases hab : a = b
    · subst hab
      obtain rfl := Option.some.inj (hobj.symm.trans present)
      obtain ⟨entry', captured', rfl, -⟩ := writes.of_closure
      have hsame := hspare type hat trivial _ _ hobj writes
      rw [Obj.elem_closure, Obj.elem_closure] at hsame
      exact ⟨entry', captured', Function.update_self .., hsame.trans hword⟩
    · exact ⟨entry, captured, (Function.update_of_ne hab ..).trans hobj, hword⟩
  | @create log heap b o filled hentry =>
    rw [since_eq filled.collections, since_eq filled.collections]
    have hc := h.collected hlive filled.collected
    refine ⟨⟨hc.zone, ?_, hc.entry⟩, log, filled.collections⟩
    obtain ⟨entry, captured, hobj, hword⟩ := hc.word
    have hne : relocated log a ≠ b := by
      intro heq
      rw [heq, filled.free] at hobj
      cases hobj
    exact ⟨entry, captured, by rw [filled.heap, Function.update_of_ne hne, hobj], hword⟩

end ClosureWords

/-! ### Captured variables -/

section Captured

variable {M : Machine} {E : Env M} {s s' t t₁ u : State} {f : UInt32} {xs : List Word} {a w x : Word}
  {idx n j : ℕ} {bound : ℤ} {B : Base} {guard : State → Prop}

/-- The state of a running activation is as `closures_create` expects it. -/
theorem Chain.activated {b : Activation} {bs : List Activation} (hsmall : M.maxStack < 2 ^ 31)
    (hB : B.Valid M) (h : Chain M B [] [] (b :: bs) s) : Activated s ∧ s.top < M.maxStack := by
  have hlast := h.linked.last_le b List.mem_cons_self
  have hlow := h.linked.1.fp_ge
  have hM := hB.floor_lt
  have htop : s.top ≤ b.floor := h.top
  have hfloor := b.floor_le_fp
  unfold Activation.last at hlast
  refine ⟨⟨by rw [h.floor_eq]; exact htop, ?_⟩, by omega⟩
  rw [h.argSizes, h.passed_eq, List.map_cons, toI32_of_lt (by omega)]
  exact ⟨_, rfl⟩

/-- Words pushed last to first lie in order above the top. -/
theorem Piled.reversed {t : State} (h : Piled s xs.reverse t) (hx : xs[j]? = some x) :
    t.stack (t.top + 1 + j) = x := by
  obtain ⟨hj, -⟩ := List.getElem?_eq_some_iff.mp hx
  have htop := h.top
  rw [List.length_reverse] at htop
  have hword : xs.reverse[xs.length - 1 - j]? = some x := by
    rw [List.getElem?_reverse (by omega), show xs.length - 1 - (xs.length - 1 - j) = j by omega, hx]
  have hread := h.words _ _ hword
  rwa [show s.top - ((xs.length - 1 - j : ℕ) : ℤ) = t.top + 1 + j by omega] at hread

/-- CLOSURE leaves a closure with its target as the entry and the values of the variables. -/
theorem Captures.created (hs : Activated s) (hM : s.top < M.maxStack) (h : Captures M s f xs)
    (hstep : Step E s s') : Later s s' ∧
      ClosureWord M s'.heap (s'.stack (s'.top + 1)) 0 (boxInt f.toNat) ∧
      ∀ j x, xs[j]? = some x →
        ClosureWord M s'.heap (s'.stack (s'.top + 1)) (j + 1) (since s s' x) := by
  obtain ⟨hf, hn, ds, hds, hvalues⟩ := h.read hs
  obtain ⟨i, count, hplaced, htype, -, -⟩ := h
  have hat : At M s .closure := by
    have ht := Instruction.typeAt hplaced
    rwa [htype] at ht
  obtain ⟨type, hat', hd⟩ := (turn_ok E).mp hstep
  obtain rfl := hat'.unique hat
  obtain ⟨ip, m, ds', t, log, heap, a, hip, hm, hds', hpushes, hgrown, ha⟩ :=
    closuresCreate_grown (go_ok hd).2
  obtain rfl := Except.ok.inj (hip.symm.trans hf)
  obtain rfl := Except.ok.inj (hm.symm.trans hn)
  obtain rfl : ds' = ds := by
    rw [hds] at hds'
    cases hds'
    rfl
  rw [hvalues] at hpushes
  have hpiled := pushOps_ok hpushes
  have htop := hpiled.top
  rw [List.length_reverse] at htop
  dsimp only at htop
  rw [ha]
  have hobj := congrFun hgrown.heap a
  rw [Function.update_self] at hobj
  refine ⟨⟨log, hgrown.collections⟩, ⟨hgrown.zone, ⟨_, _, hobj, rfl⟩, fun _ => ?_⟩, fun j x hx => ?_⟩
  · exact heapZone_of_boxed (isBoxedInt_boxInt _)
  · obtain ⟨hj, -⟩ := List.getElem?_eq_some_iff.mp hx
    refine ⟨hgrown.zone, ⟨_, _, hobj, ?_⟩, fun h0 => by cases h0⟩
    rw [List.getElem?_cons_succ, argSlots, List.map_map, List.getElem?_map, List.getElem?_range hj,
      Option.map_some, Function.comp_apply, rewritten, if_pos (by omega), since_eq hgrown.collections,
      show t.top + ((1 : ℕ) : ℤ) + (j : ℕ) = t.top + 1 + j by omega, hpiled.reversed hx]

/-- A closure followed through a run keeps a word the run spares. -/
theorem follows_word (h : ClosureWord M s.heap a idx w) (hrun : Run (Follows E)
    (fun p => guard p.1 ∧ SparesWord M (fun _ => True) idx p.1 p.2) (s, a) (t, x)) :
    ClosureWord M t.heap x idx (since s t w) ∧ Later s t := by
  refine Run.invariant (I := fun p => ClosureWord M p.1.heap p.2 idx (since s p.1 w) ∧ Later s p.1) ?_
    ⟨?_, Later.refl s⟩ hrun
  · rintro p q ⟨hword, hlater⟩ ⟨-, hspare⟩ hf
    obtain ⟨hnext, hlater'⟩ := hword.step hf.live hf.step hspare
    rw [hf.moved, since_trans hlater hlater']
    exact ⟨hnext, hlater.trans hlater'⟩
  · dsimp only
    rw [since_same rfl]
    exact h

theorem follows_steps (hrun : Run (Follows E) (fun p => guard p.1 ∧ SparesWord M (fun _ => True) idx p.1 p.2)
    (s, a) (t, x)) : Run (Step E) guard s t := by
  refine Run.invariant (I := fun p => Run (Step E) guard s p.1) ?_ (Run.refl s) hrun
  rintro p q hr ⟨hg, -⟩ hf
  exact hr.tail hg hf.step

/-- CALLC goes to the entry of the closure below the arguments. -/
theorem callc_entry (hn : CallsWith M t n 1) (hstep : Step E t t₁)
    (hword : ClosureWord M t.heap (t.stack (t.top + 1 + n)) 0 (boxInt f.toNat)) :
    t₁.codePtr = f.toNat := by
  obtain ⟨type, hat, hd⟩ := (turn_ok E).mp hstep
  cases hn with
  | callc hcall hn =>
    obtain rfl := hat.unique hcall
    obtain ⟨-, m, elem, hm, ⟨o, ho, helem⟩, -, hp⟩ := callc_ok hd
    obtain rfl := Except.ok.inj (hn.symm.trans hm)
    obtain ⟨entry, captured, hobj, hentry⟩ := hword.word
    obtain rfl := Option.some.inj (hobj.symm.trans ho)
    have hfirst := Obj.elem_closure entry captured 0
    rw [hentry] at hfirst
    obtain rfl := Option.some.inj (helem.symm.trans hfirst)
    have hlt := f.toNat_lt
    rw [hp.codePtr, unbox_boxInt (by omega) (by omega)]

/-- An instruction inside its activation does not store to the slot of a closure that runs. -/
theorem Stays.spares_closure {A : List Activation} {sizes : List ℤ} {b : Activation}
    {bs : List Activation} (hB : B.Valid M) (hbound : B.floor ≤ bound)
    (h : Chain M B A sizes (b :: bs) s) (hin : Stays M bound s) {k : ℤ} (hk : Passed B k)
    (hslot : k = B.bottom.fp + 4 + B.bottom.nargs) : Spares M (fun _ => True) k s := by
  intro type hat _ hs
  obtain ⟨hfloor, hfp, hle⟩ := hk.above h
  have hM := hB.floor_lt
  have hlow := h.linked.1.fp_ge
  have hsfp : s.fp = b.fp := h.fp
  have hstore := (hin type hat).store k hs (by omega) (by omega)
  rw [h.floor_eq, h.passed_eq, hsfp] at hstore
  obtain ⟨-, -, hne, heq⟩ := h.linked.bottom
  by_cases hnil : bs = []
  · obtain ⟨hfp', hnargs, -, -⟩ := heq hnil
    omega
  · have habove := hne hnil
    have hlow' := hk.low
    unfold Activation.last at habove
    omega

/-- While the callee runs, its closure lies in the slot behind the arguments and keeps a word the run
    spares. -/
theorem Called.closure_word (hmax : M.maxStack < 2 ^ 32) (hM : bound < M.maxStack)
    (h : Called M bound t n 1 B t₁)
    (hword : ClosureWord M t.heap (t.stack (t.top + 1 + n)) idx w)
    (hrun : Run (Step E) (fun v => Stays M bound v ∧ t.activations.length < v.activations.length ∧
      SparesWord M (fun _ => True) idx v (since t v (t.stack (t.top + 1 + n)))) t₁ u) :
    (∃ as, Chain M B t.activations t.argSizes as u) ∧ Later t u ∧
      (t.activations.length < u.activations.length →
        u.stack (t.top + 1 + n) = since t u (t.stack (t.top + 1 + n)) ∧
          ClosureWord M u.heap (since t u (t.stack (t.top + 1 + n))) idx (since t u w)) := by
  have hk := h.passed (i := n) (by omega)
  refine Run.invariant (I := fun v => (∃ as, Chain M B t.activations t.argSizes as v) ∧ Later t v ∧
    (t.activations.length < v.activations.length →
      v.stack (t.top + 1 + n) = since t v (t.stack (t.top + 1 + n)) ∧
        ClosureWord M v.heap (since t v (t.stack (t.top + 1 + n))) idx (since t v w))) ?_
    ⟨h.chain, ⟨[], h.collections⟩, fun _ => ?_⟩ hrun
  · rintro v v' ⟨hc, hlater, hkeeps⟩ ⟨hin, hdepth, hspare⟩ hstep
    obtain ⟨hslot, hobj⟩ := hkeeps hdepth
    have hs := calleeStep hmax h.valid h.floor_le hM hc hin hdepth hstep
    obtain ⟨as, hc⟩ := hc
    cases as with
    | nil =>
      rw [hc.activations] at hdepth
      exact absurd hdepth (Nat.lt_irrefl _)
    | cons b bs =>
      obtain ⟨hfp, hnargs, -⟩ := h.bottom
      obtain ⟨hfloor, hlo, hle⟩ := hk.above hc
      have hlt := h.valid.floor_lt
      have htop : v.top ≤ b.floor := hc.top
      have hlive : Live v.heap (scannedWords M v) (since t v (t.stack (t.top + 1 + n))) := by
        rw [← hslot]
        exact live_of_slot (by omega) (by omega) (by rw [hslot]; exact hobj.isSome)
      obtain ⟨hnext, hlater'⟩ := hobj.step hlive hstep hspare
      refine ⟨hs.chain, hlater.trans hlater', fun hd => ⟨?_, ?_⟩⟩
      · rw [hs.slot _ hk hd (hin.spares_closure h.valid h.floor_le hc hk (by omega)), hslot,
          since_trans hlater hlater']
      · rw [since_trans hlater hlater', since_trans hlater hlater']
        exact hnext
  · rw [since_same h.collections, since_same h.collections, h.heap]
    exact ⟨h.closure, hword⟩

/-- LD Closure j in the activation of a closure. -/
theorem Called.loads_closure (hmax : M.maxStack < 2 ^ 31) (hM : bound < M.maxStack)
    (h : Called M bound t n 1 B t₁) (hj : j + 1 < 2 ^ 32)
    (hword : ClosureWord M t.heap (t.stack (t.top + 1 + n)) (j + 1) w)
    (hrun : Run (Step E) (fun v => Stays M bound v ∧ t.activations.length < v.activations.length ∧
      SparesWord M (fun _ => True) (j + 1) v (since t v (t.stack (t.top + 1 + n)))) t₁ u)
    (hdepth : u.activations.length = t.activations.length + 1) :
    Loads E u .closure j (since t u w) := by
  obtain ⟨hchain, -, hkeeps⟩ := h.closure_word (by omega) hM hword hrun
  obtain ⟨hslot, hobj⟩ := hkeeps (by omega)
  obtain ⟨hfp, htop, hsizes⟩ := h.running hchain hdepth
  have hk := h.passed (i := n) (by omega)
  obtain ⟨b, hc, -⟩ := Chain.outermost hchain hdepth
  obtain ⟨-, -, hle⟩ := hk.above hc
  have hlt := h.valid.floor_lt
  have hlow := hc.linked.1.fp_ge
  have hufp : u.fp = b.fp := hc.fp
  obtain ⟨entry, captured, hat, hget⟩ := hobj.word
  rw [toI32_of_lt (show n < 2 ^ 31 by omega)] at hsizes
  have hptr : closurePtr M u = .ok (since t u (t.stack (t.top + 1 + n))) u := by
    rw [closurePtr_of_sizes hsizes, show u.fp + 4 + (n : ℤ) = t.top + 1 + n by omega,
      readSlot_eq (by omega), hslot]
  have hindex := unbox_index hj
  have helem := Obj.elem_closure entry captured (j + 1)
  rw [hget] at helem
  refine loads_of_value htop ?_
  rw [HasValue, getVariable, getClosure, exec_bind_of_ok hptr]
  exact Belem_eq hat (by push_cast at hindex helem; rw [hindex]; exact helem)

end Captured

/-! ### The calling convention -/

section Convention

variable {M : Machine} (E : Env M) (guard : State → Prop) (stores : InstructionType → Prop) (s₀ : State)

/-- In the activation a call makes, LD Argument i pushes the i-th argument, also behind nested calls,
    until an instruction of the types in `stores` stores to its slot. -/
def PassesArguments : Prop :=
  ∀ s s₁ u n c i, Run (Step E) guard s₀ s → guard s → CallsWith M s n c → Step E s s₁ → i < n →
    Run (Step E) (fun t => guard t ∧ s.activations.length < t.activations.length ∧
      Spares M stores (s₁.fp + 4 + i) t) s₁ u →
    u.activations.length = s.activations.length + 1 →
    Loads E u .argument i (since s u (s.stack (s.top + n - i)))

/-- CALLC of a closure CLOSURE has made goes to its target, and LD Closure j in its activation pushes
    the value the j-th variable had, until an instruction of the types in `stores` changes the word of
    the closure. -/
def PassesCaptured : Prop :=
  ∀ s s' f xs, Run (Step E) guard s₀ s → guard s → Captures M s f xs → Step E s s' →
    (∀ (t t₁ : State) (n : ℕ), Run (Follows E) (fun p => guard p.1 ∧ SparesWord M stores 0 p.1 p.2)
        (s', s'.stack (s'.top + 1)) (t, t.stack (t.top + 1 + n)) →
      guard t → CallsWith M t n 1 → Step E t t₁ → t₁.codePtr = f.toNat) ∧
    ∀ (t t₁ u : State) (n j : ℕ) (x : Word), xs[j]? = some x →
      Run (Follows E) (fun p => guard p.1 ∧ SparesWord M stores (j + 1) p.1 p.2)
        (s', s'.stack (s'.top + 1)) (t, t.stack (t.top + 1 + n)) →
      guard t → CallsWith M t n 1 → Step E t t₁ →
      Run (Step E) (fun v => guard v ∧ t.activations.length < v.activations.length ∧
        SparesWord M stores (j + 1) v (since t v (t.stack (t.top + 1 + n)))) t₁ u →
      u.activations.length = t.activations.length + 1 → Loads E u .closure j (since s u x)

end Convention

section Convention

variable {M : Machine} {E : Env M} {bound : ℤ} {s₀ : State} {guard guard' : State → Prop}
  {stores stores' : InstructionType → Prop}

theorem PassesArguments.mono (hg : ∀ s, guard' s → guard s) (hs : ∀ type, stores type → stores' type)
    (h : PassesArguments E guard stores s₀) : PassesArguments E guard' stores' s₀ :=
  fun s s₁ u n c i hrun hin hcall hstep hi hcallee =>
    h s s₁ u n c i (hrun.mono hg) (hg s hin) hcall hstep hi <|
      hcallee.mono fun t ⟨hgt, hdepth, hspare⟩ =>
        ⟨hg t hgt, hdepth, fun type hat htype => hspare type hat (hs type htype)⟩

theorem PassesCaptured.mono (hg : ∀ s, guard' s → guard s) (hs : ∀ type, stores type → stores' type)
    (h : PassesCaptured E guard stores s₀) : PassesCaptured E guard' stores' s₀ := by
  intro s s' f xs hrun hin hcap hstep
  obtain ⟨hentry, hloads⟩ := h s s' f xs (hrun.mono hg) (hg s hin) hcap hstep
  have hword : ∀ {idx s a}, SparesWord M stores' idx s a → SparesWord M stores idx s a :=
    fun hspare type hat htype => hspare type hat (hs type htype)
  refine ⟨fun t t₁ n hfollow hint => ?_, fun t t₁ u n j x hx hfollow hint hcall hcallc hcallee => ?_⟩
  · exact hentry t t₁ n (hfollow.mono fun p ⟨hp, hspare⟩ => ⟨hg _ hp, hword hspare⟩) (hg t hint)
  · exact hloads t t₁ u n j x hx (hfollow.mono fun p ⟨hp, hspare⟩ => ⟨hg _ hp, hword hspare⟩) (hg t hint)
      hcall hcallc (hcallee.mono fun v ⟨hv, hdepth, hspare⟩ => ⟨hg v hv, hdepth, hword hspare⟩)

theorem Captures.length_lt {s : State} {f : UInt32} {xs : List Word} (h : Captures M s f xs) :
    xs.length < 2 ^ 32 := by
  obtain ⟨i, count, -, htype, hargs, hvalues⟩ := h
  obtain ⟨entry, count', hargs', hcount⟩ := i.closure_args htype
  obtain ⟨rfl, rfl⟩ : f = entry ∧ count = count' := by simpa using hargs.symm.trans hargs'
  have hlt := count.toNat_lt
  rw [← hvalues.length_eq, hcount]
  exact hlt

/-- While every instruction stays inside its activation, arguments and captured variables arrive as
    they were passed and captured, until something is stored to them. -/
theorem calling_convention (M : Machine) (E : Env M) (hstack : M.maxStack = stackSize) (bound : ℤ)
    (hbound : bound < M.maxStack) (s₀ : State) (hstart : Starts E s₀) (hfp : s₀.fp + 3 ≤ bound) :
    PassesArguments E (Stays M bound) (fun _ => True) s₀ ∧
      PassesCaptured E (Stays M bound) (fun _ => True) s₀ := by
  have hmax : M.maxStack < 2 ^ 31 := by rw [hstack]; decide
  have hmax' : M.maxStack < 2 ^ 32 := by omega
  have hchain : ∀ s, Run (Step E) (Stays M bound) s₀ s → Activated s ∧ s.top < M.maxStack ∧ s.fp ≤ bound := by
    intro s hrun
    obtain ⟨B, hB, hle, -, a, as, hc⟩ := chain_of_run hmax' hbound hstart hfp hrun
    obtain ⟨hactivated, htop⟩ := hc.activated hmax hB
    have hlast := hc.linked.last_le a List.mem_cons_self
    have hlow := a.fp_lt_last
    have hsfp : s.fp = a.fp := hc.fp
    exact ⟨hactivated, htop, by omega⟩
  refine ⟨fun s s₁ u n c i hrun hin hcall hstep hi hcallee hdepth => ?_, fun s s' f xs hrun hin hcap hstep => ?_⟩
  · obtain ⟨B, hcalled⟩ := hcall.called hmax' hbound (hchain s hrun).2.2 hin hstep
    exact hcalled.loads_argument hmax' hbound hi hcallee hdepth
  · obtain ⟨hactivated, htop, -⟩ := hchain s hrun
    obtain ⟨hlater, hentry, hwords⟩ := hcap.created hactivated htop hstep
    have hrun' : Run (Step E) (Stays M bound) s₀ s' := hrun.tail hin hstep
    refine ⟨fun t t₁ n hfollow hint hcall hcallc => ?_,
      fun t t₁ u n j x hx hfollow hint hcall hcallc hcallee hdepth => ?_⟩
    · obtain ⟨hword, -⟩ := follows_word hentry hfollow
      obtain ⟨hsame, -⟩ := since_run (heapZone_of_boxed (isBoxedInt_boxInt f.toNat))
        (follows_steps hfollow)
      rw [hsame] at hword
      exact callc_entry hcall hcallc hword
    · obtain ⟨hword, hlater'⟩ := follows_word (hwords j x hx) hfollow
      have hfpt := (hchain t (hrun'.trans (follows_steps hfollow))).2.2
      obtain ⟨B, hcalled⟩ := hcall.called hmax' hbound hfpt hint hcallc
      have hj : j + 1 < 2 ^ 32 := by
        obtain ⟨hlt, -⟩ := List.getElem?_eq_some_iff.mp hx
        have hlength := hcap.length_lt
        omega
      obtain ⟨-, hlate, -⟩ := hcalled.closure_word hmax' hbound hword hcallee
      have hloads := hcalled.loads_closure hmax hbound hj hword hcallee hdepth
      rwa [since_trans (hlater.trans hlater') hlate, since_trans hlater hlater']

end Convention

/-- Only ST, STA and STI store to slots and to objects. -/
theorem At.spares {M : Machine} {s : State} {type : InstructionType} {stores : InstructionType → Prop}
    (hat : At M s type) (hst : type ≠ .st) (hsta : type ≠ .sta) (hsti : type ≠ .sti) :
    (∀ k, Spares M stores k s) ∧ ∀ idx a, SparesWord M stores idx s a := by
  refine ⟨fun k type' hat' _ hs => ?_, fun idx a type' hat' _ o o' _ hw => ?_⟩
  · rw [← hat.unique hat'] at hs
    cases type <;> first | cases hs | exact absurd rfl hst | exact absurd rfl hsta | exact absurd rfl hsti
  · rw [← hat.unique hat'] at hw
    cases hw with
    | captured => exact absurd rfl hst
    | element => exact absurd rfl hsta
    | first _ htype => exact absurd htype (not_or.mpr ⟨hsta, hsti⟩)

/-- Without collections an object stays in its slot while the slot is above the top and keeps its word. -/
theorem follows_of_turns {M : Machine} {E : Env M} {guard : State → Prop} {stores : InstructionType → Prop}
    {idx m n : ℕ} (f : ℕ → State) {k : ℤ} (hk : k < M.maxStack) (hmn : m ≤ n)
    (hturn : ∀ j < n, m ≤ j → Step E (f j) (f (j + 1)) ∧ guard (f j) ∧ ∀ a, SparesWord M stores idx (f j) a)
    (hkept : ∀ j < n, ∀ w, since (f j) (f (j + 1)) w = w)
    (hslot : ∀ j < n, m ≤ j → (f j).top < k ∧ ((f j).heap ((f j).stack k)).isSome ∧
      (f (j + 1)).stack k = (f j).stack k) :
    Run (Follows E) (fun p => guard p.1 ∧ SparesWord M stores idx p.1 p.2) (f m, (f m).stack k)
      (f n, (f n).stack k) := by
  induction hmn with
  | refl => exact Run.refl _
  | @step n hmn ih =>
    obtain ⟨hstep, hguard, hspare⟩ := hturn n (Nat.lt_succ_self n) hmn
    obtain ⟨hlo, hsome, hword⟩ := hslot n (Nat.lt_succ_self n) hmn
    have hrun := ih (fun j hj => hturn j (Nat.lt_succ_of_lt hj)) (fun j hj => hkept j (Nat.lt_succ_of_lt hj))
      fun j hj => hslot j (Nat.lt_succ_of_lt hj)
    refine hrun.tail ⟨hguard, hspare _⟩ ⟨hstep, live_of_slot hlo hk hsome, ?_⟩
    rw [hkept n (Nat.lt_succ_self n)]
    exact hword

/-- What LD leaves in the slot of the top. -/
theorem Loads.word {M : Machine} {E : Env M} {s s' : State} {d : MemVar} {w : Word} {n : UInt32}
    (h : Loads E s d n.toNat w) (hcode : Placed M.bf s.codePtr (ldInstruction d n).encode)
    (hroom : 0 ≤ s.top) (hstep : Step E s s') : s'.stack s.top = w := by
  obtain ⟨u, hu, heval⟩ := h n rfl hcode hroom
  obtain rfl : s' = u := by
    have hsame := hstep.symm.trans hu
    cases hsame
    rfl
  exact heval.value

/-! ### A closure with an argument -/

/-- `main` captures its local variable 3 in a closure and calls it with 5 and 7. -/
def passingFile : Bytefile := .ofMain 0
  [0x52, 0, 0, 0, 0, 1, 0, 0, 0, 0x10, 3, 0, 0, 0, 0x41, 0, 0, 0, 0, 0x18,
    0x54, 50, 0, 0, 0, 1, 0, 0, 0, 1, 0, 0, 0, 0, 0x10, 5, 0, 0, 0, 0x10, 7, 0, 0, 0,
    0x55, 2, 0, 0, 0, 0x16, 0x53, 2, 0, 0, 0, 0, 0, 0, 0, 0x23, 0, 0, 0, 0, 0x22, 0, 0, 0, 0,
    0x16, 0xFF]

def passingMachine : Machine := Machine.layout passingFile stackSize (by decide) stackSize_le

def passingEnv : Env passingMachine :=
  Env.bump passingMachine fun k => BitVec.ofNat 64 (2 ^ 50 + 64 * k)

/-- The state of `passingFile` after `n` turns. -/
def passingState : ℕ → State
  | 0 => startState passingEnv
  | n + 1 => nextState passingEnv (passingState n)

theorem passingTurns : ∀ n < 10, Step passingEnv (passingState n) (passingState (n + 1)) := by
  have hall : ∀ n < 10, turnResult passingEnv (passingState n) = some false := by decide +kernel
  exact fun n hn => turn_nextState passingEnv (hall n hn)

theorem passingTurns_stay : ∀ n < 10, Stays passingMachine (stackSize - 5) (passingState n) := by
  have hcheck : ∀ n < 10, ∃ type ∈ [InstructionType.begin, .const, .st, .drop, .closure, .callc, .cbegin, .ld],
      At passingMachine (passingState n) type ∧
      need passingFile (passingState n).codePtr type (integerIndex (passingState n)) ≤
        (passingState n).operands ∧
      ∀ k ∈ storeSlot passingMachine (passingState n) type,
        (passingState n).floor < k ∧ k ≤ (passingState n).fp := by
    decide +kernel
  intro n hn type' hat'
  obtain ⟨type, -, hat, hop, hstore⟩ := hcheck n hn
  rw [← hat.unique hat']
  exact ⟨hop, fun i hi _ _ => .inl (hstore i hi)⟩

theorem passingFile_captures :
    Captures passingMachine (passingState 4) 50 [boxInt 3] := by
  have hcode : Placed passingFile (passingState 4).codePtr
      (Instruction.mk 0x54 [50, 1] [(1, 0)] (by decide) (by decide) (by decide)).encode := by
    decide +kernel
  refine ⟨_, 1, hcode, rfl, rfl, .cons ⟨by decide, ?_, ?_⟩ .nil⟩
  · show 0 < (passingState 4).reserved
    decide +kernel
  · show HasValue passingMachine (passingState 4) .local 0 (boxInt 3)
    have hslot : 0 ≤ (passingState 4).fp - ((0 : ℕ) : ℤ) ∧
        (passingState 4).fp - ((0 : ℕ) : ℤ) < passingMachine.maxStack := by decide +kernel
    have hword : (passingState 4).stack ((passingState 4).fp - ((0 : ℕ) : ℤ)) = boxInt 3 := by decide +kernel
    rw [HasValue, getVariable_slot rfl, readSlot_eq hslot, hword]

/-- Until the captured variable is loaded, nothing is stored. -/
theorem passingTurns_spare : ∀ n < 10, 4 ≤ n → (∀ k, Spares passingMachine (fun _ => True) k (passingState n)) ∧
    ∀ idx a, SparesWord passingMachine (fun _ => True) idx (passingState n) a := by
  have hcheck : ∀ n < 10, 4 ≤ n → ∃ type ∈ [InstructionType.const, .closure, .callc, .cbegin, .ld],
      At passingMachine (passingState n) type := by
    decide +kernel
  intro n hn hle
  obtain ⟨type, hmem, hat⟩ := hcheck n hn hle
  refine hat.spares ?_ ?_ ?_
  all_goals
    rintro rfl
    exact absurd hmem (by decide)

/-- Nothing is collected. -/
theorem passingState_since {n m : ℕ} (hn : n < 11) (hm : m < 11) (w : Word) :
    since (passingState n) (passingState m) w = w := by
  have hnone : ∀ n < 11, (passingState n).collections.length = 0 := by decide +kernel
  refine since_same ?_ w
  rw [List.eq_nil_of_length_eq_zero (hnone n hn), List.eq_nil_of_length_eq_zero (hnone m hm)]

/-- The closure is an operand of `main` until CALLC. -/
theorem passingFile_follows {idx : ℕ} : Run (Follows passingEnv)
    (fun p => Stays passingMachine (stackSize - 5) p.1 ∧ SparesWord passingMachine (fun _ => True) idx p.1 p.2)
    (passingState 5, (passingState 5).stack ((passingState 5).top + 1))
    (passingState 7, (passingState 7).stack ((passingState 7).top + 1 + (2 : ℕ))) := by
  have hturn : ∀ j < 7, 5 ≤ j → Step passingEnv (passingState j) (passingState (j + 1)) ∧
      Stays passingMachine (stackSize - 5) (passingState j) ∧
      ∀ a, SparesWord passingMachine (fun _ => True) idx (passingState j) a :=
    fun j hj hle => ⟨passingTurns j (by omega), passingTurns_stay j (by omega),
      (passingTurns_spare j (by omega) (by omega)).2 idx⟩
  have hkept : ∀ j < 7, ∀ w, since (passingState j) (passingState (j + 1)) w = w :=
    fun j hj => passingState_since (by omega) (by omega)
  have hk : (passingState 7).top + 1 + (2 : ℕ) = (passingState 5).top + 1 ∧
      (passingState 5).top + 1 < passingMachine.maxStack := by decide +kernel
  rw [hk.1]
  exact follows_of_turns passingState hk.2 (by decide) hturn hkept (by decide +kernel)

theorem calling_convention_passingFile :
    (passingState 8).codePtr = 50 ∧ Loads passingEnv (passingState 9) .closure 0 (boxInt 3) ∧
      Loads passingEnv (passingState 10) .argument 0 (boxInt 5) := by
  obtain ⟨harguments, hcaptured⟩ := calling_convention passingMachine passingEnv rfl (stackSize - 5)
    (by decide) (passingState 0) (starts_startState passingEnv (by decide +kernel)) (by decide +kernel)
  have hrun : ∀ n < 10, Run (Step passingEnv) (Stays passingMachine (stackSize - 5)) (passingState 0)
      (passingState n) :=
    fun n hn => Run.of_turns fun k hk => ⟨passingTurns_stay k (by omega), passingTurns k (by omega)⟩
  have hpasses : CallsWith passingMachine (passingState 7) 2 1 := .callc (by decide +kernel) (by decide +kernel)
  have hdepth : (passingState 7).activations.length < (passingState 8).activations.length ∧
      (passingState 7).activations.length < (passingState 9).activations.length := by decide +kernel
  have spare8 := passingTurns_spare 8 (by decide) (by decide)
  have spare9 := passingTurns_spare 9 (by decide) (by decide)
  obtain ⟨hentry, hloads⟩ := hcaptured (passingState 4) (passingState 5) 50 [boxInt 3] (hrun 4 (by decide))
    (passingTurns_stay 4 (by decide)) passingFile_captures (passingTurns 4 (by decide))
  have hcode := hentry (passingState 7) (passingState 8) 2 passingFile_follows
    (passingTurns_stay 7 (by decide)) hpasses (passingTurns 7 (by decide))
  have hclosure := hloads (passingState 7) (passingState 8) (passingState 9) 2 0 (boxInt 3) rfl
    passingFile_follows (passingTurns_stay 7 (by decide)) hpasses (passingTurns 7 (by decide))
    ((Run.refl _).tail ⟨passingTurns_stay 8 (by decide), hdepth.1, spare8.2 _ _⟩ (passingTurns 8 (by decide)))
    (by decide +kernel)
  have hargument := harguments (passingState 7) (passingState 8) (passingState 10) 2 1 0 (hrun 7 (by decide))
    (passingTurns_stay 7 (by decide)) hpasses (passingTurns 7 (by decide)) (by decide)
    (((Run.refl _).tail ⟨passingTurns_stay 8 (by decide), hdepth.1, spare8.1 _⟩ (passingTurns 8 (by decide))).tail
      ⟨passingTurns_stay 9 (by decide), hdepth.2, spare9.1 _⟩ (passingTurns 9 (by decide)))
    (by decide +kernel)
  rw [passingState_since (by decide) (by decide)] at hclosure hargument
  have hword : (passingState 7).stack ((passingState 7).top + (2 : ℕ) - (0 : ℕ)) = boxInt 5 := by decide +kernel
  rw [hword] at hargument
  exact ⟨hcode, hclosure, hargument⟩

/-! ### Other stores, and operands below the activation -/

/-- `main` makes a closure, stores another function into it and calls it. That function passes 5 to one
    that copies its local variable 7 over the argument with STI, and passes it on to one that drops more
    than it has pushed. -/
def overwriteFile : Bytefile := .ofMain 0
  [0x52, 0, 0, 0, 0, 0, 0, 0, 0, 0x54, 132, 0, 0, 0, 0, 0, 0, 0, 0x19, 0x10, 0, 0, 0, 0,
    0x10, 37, 0, 0, 0, 0x14, 0x18, 0x55, 0, 0, 0, 0, 0x16,
    0x53, 0, 0, 0, 0, 0, 0, 0, 0, 0x10, 5, 0, 0, 0, 0x56, 61, 0, 0, 0, 1, 0, 0, 0, 0x16,
    0x52, 1, 0, 0, 0, 1, 0, 0, 0, 0x10, 7, 0, 0, 0, 0x41, 0, 0, 0, 0, 0x18, 0x31, 0, 0, 0, 0,
    0x32, 0, 0, 0, 0, 0x13, 0x18, 0x22, 0, 0, 0, 0, 0x56, 108, 0, 0, 0, 1, 0, 0, 0, 0x16,
    0x52, 1, 0, 0, 0, 0, 0, 0, 0, 0x18, 0x18, 0x18, 0x18, 0x10, 9, 0, 0, 0, 0x22, 0, 0, 0, 0, 0x16,
    0x53, 0, 0, 0, 0, 0, 0, 0, 0, 0x10, 1, 0, 0, 0, 0x16, 0xFF]

def overwriteMachine : Machine :=
  Machine.layout overwriteFile stackSize (by decide +kernel) stackSize_le

def overwriteEnv : Env overwriteMachine :=
  Env.bump overwriteMachine fun k => BitVec.ofNat 64 (2 ^ 50 + 64 * k)

/-- The state of `overwriteFile` after `n` turns. -/
def overwriteState : ℕ → State
  | 0 => startState overwriteEnv
  | n + 1 => nextState overwriteEnv (overwriteState n)

theorem overwriteTurns : ∀ n < 28, Step overwriteEnv (overwriteState n) (overwriteState (n + 1)) := by
  have hall : ∀ n < 28, turnResult overwriteEnv (overwriteState n) = some false := by decide +kernel
  exact fun n hn => turn_nextState overwriteEnv (hall n hn)

/-- The stores before the last call go to variables of the activation. -/
theorem overwriteTurns_stay : ∀ n < 22, Stays overwriteMachine (stackSize - 5) (overwriteState n) := by
  have hcheck : ∀ n < 22, ∃ type ∈ [InstructionType.begin, .closure, .dup, .const, .sta, .drop, .callc, .cbegin,
      .call, .st, .lda, .sti, .ld], At overwriteMachine (overwriteState n) type ∧
      need overwriteFile (overwriteState n).codePtr type (integerIndex (overwriteState n)) ≤
        (overwriteState n).operands ∧
      ∀ k ∈ storeSlot overwriteMachine (overwriteState n) type,
        ((overwriteState n).floor < k ∧ k ≤ (overwriteState n).fp) ∨
          ((overwriteState n).fp + 4 ≤ k ∧ k < (overwriteState n).fp + 4 + (overwriteState n).passed) := by
    decide +kernel
  intro n hn type' hat'
  obtain ⟨type, -, hat, hop, hstore⟩ := hcheck n hn
  rw [← hat.unique hat']
  exact ⟨hop, fun i hi _ _ => (hstore i hi).imp_right .inl⟩

theorem overwriteState_since {n m : ℕ} (hn : n < 29) (hm : m < 29) (w : Word) :
    since (overwriteState n) (overwriteState m) w = w := by
  have hnone : ∀ n < 29, (overwriteState n).collections.length = 0 := by decide +kernel
  refine since_same ?_ w
  rw [List.eq_nil_of_length_eq_zero (hnone n hn), List.eq_nil_of_length_eq_zero (hnone m hm)]

/-- STI through the reference of the argument changes what LD Argument pushes. -/
theorem sti_overwrites_argument :
    ¬ PassesArguments overwriteEnv (Stays overwriteMachine (stackSize - 5)) (· = .st) (overwriteState 0) := by
  intro h
  have hrun : Run (Step overwriteEnv) (Stays overwriteMachine (stackSize - 5)) (overwriteState 0)
      (overwriteState 10) :=
    Run.of_turns fun k hk => ⟨overwriteTurns_stay k (by omega), overwriteTurns k (by omega)⟩
  have hpasses : CallsWith overwriteMachine (overwriteState 10) 1 0 := .call (by decide +kernel) (by decide +kernel)
  have hspare : ∀ n < 8, (overwriteState 10).activations.length < (overwriteState (11 + n)).activations.length ∧
      (At overwriteMachine (overwriteState (11 + n)) .st →
        storeSlot overwriteMachine (overwriteState (11 + n)) .st ≠ some ((overwriteState 11).fp + 4 + (0 : ℕ))) := by
    decide +kernel
  have hcallee : Run (Step overwriteEnv) (fun t => Stays overwriteMachine (stackSize - 5) t ∧
      (overwriteState 10).activations.length < t.activations.length ∧
      Spares overwriteMachine (· = .st) ((overwriteState 11).fp + 4 + (0 : ℕ)) t) (overwriteState 11)
      (overwriteState 19) := by
    refine Run.of_turns (f := fun n => overwriteState (11 + n)) (n := 8) fun k hk => ⟨⟨?_, ?_, ?_⟩, ?_⟩
    · exact overwriteTurns_stay _ (by omega)
    · exact (hspare k hk).1
    · rintro type hat rfl
      exact (hspare k hk).2 hat
    · exact overwriteTurns _ (by omega)
  have hloads := h (overwriteState 10) (overwriteState 11) (overwriteState 19) 1 0 0 hrun
    (overwriteTurns_stay 10 (by decide)) hpasses (overwriteTurns 10 (by decide)) (by decide) hcallee
    (by decide +kernel)
  rw [overwriteState_since (by decide) (by decide)] at hloads
  have hword := hloads.word (n := 0) (by decide +kernel) (by decide +kernel) (overwriteTurns 19 (by decide))
  revert hword
  decide +kernel

/-- STA changes the entry of a closure, and CALLC goes to another function. -/
theorem sta_overwrites_entry :
    ¬ PassesCaptured overwriteEnv (Stays overwriteMachine (stackSize - 5)) (· = .st) (overwriteState 0) := by
  intro h
  have hrun : Run (Step overwriteEnv) (Stays overwriteMachine (stackSize - 5)) (overwriteState 0)
      (overwriteState 1) :=
    Run.of_turns fun k hk => ⟨overwriteTurns_stay k (by omega), overwriteTurns k (by omega)⟩
  have hcode : Placed overwriteFile (overwriteState 1).codePtr
      (Instruction.mk 0x54 [132, 0] [] opcode_known two_operands no_capture).encode := by decide +kernel
  obtain ⟨hentry, -⟩ := h (overwriteState 1) (overwriteState 2) 132 [] hrun (overwriteTurns_stay 1 (by decide))
    ⟨_, 0, hcode, rfl, rfl, .nil⟩ (overwriteTurns 1 (by decide))
  have hnot : ∀ j < 7, 2 ≤ j → ¬ At overwriteMachine (overwriteState j) .st := by decide +kernel
  have hturn : ∀ j < 7, 2 ≤ j → Step overwriteEnv (overwriteState j) (overwriteState (j + 1)) ∧
      Stays overwriteMachine (stackSize - 5) (overwriteState j) ∧
      ∀ a, SparesWord overwriteMachine (· = .st) 0 (overwriteState j) a := by
    refine fun j hj hle => ⟨overwriteTurns j (by omega), overwriteTurns_stay j (by omega), ?_⟩
    rintro a type hat rfl
    exact absurd hat (hnot j hj hle)
  have hkept : ∀ j < 7, ∀ w, since (overwriteState j) (overwriteState (j + 1)) w = w :=
    fun j hj => overwriteState_since (by omega) (by omega)
  have hk : (overwriteState 7).top + 1 + (0 : ℕ) = (overwriteState 2).top + 1 ∧
      (overwriteState 2).top + 1 < overwriteMachine.maxStack := by decide +kernel
  have hfollows : Run (Follows overwriteEnv) (fun p => Stays overwriteMachine (stackSize - 5) p.1 ∧
      SparesWord overwriteMachine (· = .st) 0 p.1 p.2)
      (overwriteState 2, (overwriteState 2).stack ((overwriteState 2).top + 1))
      (overwriteState 7, (overwriteState 7).stack ((overwriteState 7).top + 1 + (0 : ℕ))) := by
    rw [hk.1]
    exact follows_of_turns overwriteState hk.2 (by decide) hturn hkept (by decide +kernel)
  have hgoes := hentry (overwriteState 7) (overwriteState 8) 0 hfollows (overwriteTurns_stay 7 (by decide))
    (.callc (by decide +kernel) (by decide +kernel)) (overwriteTurns 7 (by decide))
  revert hgoes
  decide +kernel

/-- DROP takes the argument off the stack of the caller, and CONST overwrites it. -/
theorem underflow_overwrites_argument :
    ¬ PassesArguments overwriteEnv (fun _ => True) (fun _ => True) (overwriteState 0) := by
  intro h
  have hrun : ∀ n ≤ 28, Run (Step overwriteEnv) (fun _ => True) (overwriteState 0) (overwriteState n) :=
    fun n hn => Run.of_turns fun k hk => ⟨trivial, overwriteTurns k (by omega)⟩
  have hpasses : CallsWith overwriteMachine (overwriteState 20) 1 0 := .call (by decide +kernel) (by decide +kernel)
  have hcheck : ∀ n < 6, (overwriteState 20).activations.length < (overwriteState (21 + n)).activations.length ∧
      ∃ type ∈ [InstructionType.begin, .drop, .const], At overwriteMachine (overwriteState (21 + n)) type := by
    decide +kernel
  have hcallee : Run (Step overwriteEnv) (fun t => True ∧
      (overwriteState 20).activations.length < t.activations.length ∧
      Spares overwriteMachine (fun _ => True) ((overwriteState 21).fp + 4 + (0 : ℕ)) t) (overwriteState 21)
      (overwriteState 27) := by
    refine Run.of_turns (f := fun n => overwriteState (21 + n)) (n := 6) fun k hk => ⟨⟨trivial, ?_, ?_⟩, ?_⟩
    · exact (hcheck k hk).1
    · obtain ⟨-, type, hmem, hat⟩ := hcheck k hk
      refine (hat.spares ?_ ?_ ?_).1 _
      all_goals
        rintro rfl
        exact absurd hmem (by decide)
    · exact overwriteTurns _ (by omega)
  have hloads := h (overwriteState 20) (overwriteState 21) (overwriteState 27) 1 0 0 (hrun 20 (by decide)) trivial
    hpasses (overwriteTurns 20 (by decide)) (by decide) hcallee (by decide +kernel)
  rw [overwriteState_since (by decide) (by decide)] at hloads
  have hword := hloads.word (n := 0) (by decide +kernel) (by decide +kernel) (overwriteTurns 27 (by decide))
  revert hword
  decide +kernel

/-- Arguments and captured variables change without ST, also where every instruction stays inside its
    activation; where one does not, arguments change without a store. -/
theorem conventions_overwritten : Starts overwriteEnv (overwriteState 0) ∧
    ¬ PassesArguments overwriteEnv (fun _ => True) (· = .st) (overwriteState 0) ∧
    ¬ PassesCaptured overwriteEnv (fun _ => True) (· = .st) (overwriteState 0) ∧
    ¬ PassesArguments overwriteEnv (Stays overwriteMachine (stackSize - 5)) (· = .st) (overwriteState 0) ∧
    ¬ PassesCaptured overwriteEnv (Stays overwriteMachine (stackSize - 5)) (· = .st) (overwriteState 0) ∧
    ¬ PassesArguments overwriteEnv (fun _ => True) (fun _ => True) (overwriteState 0) :=
  ⟨starts_startState overwriteEnv (by decide +kernel),
    fun h => sti_overwrites_argument (h.mono (fun _ _ => trivial) fun _ h => h),
    fun h => sta_overwrites_entry (h.mono (fun _ _ => trivial) fun _ h => h),
    sti_overwrites_argument, sta_overwrites_entry, underflow_overwrites_argument⟩

end LamaSM
