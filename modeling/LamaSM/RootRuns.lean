import LamaSM.RootHandlers
import LamaSM.CallReturn
import LamaSM.StringPool

/-! The scanned part of the stack over whole runs.

    Frames are pushed over words below the top and END hides words again; neither shows the collector
    a stale word, because a frame writes every word it adds. BEGIN only moves the top: the locals it
    reserves are whatever words lie there. -/

namespace LamaSM
open Lib

/-! ### The start -/

section Start

variable {M : Machine} {E : Env M} {s s' : State}

/-- While the pool is built every word of the stack is valid, stored or not. -/
structure PoolHeld (M : Machine) (s : State) : Prop where
  words : ∀ i, Valid M s.heap (s.stack i)
  heap : HeapValid M s.heap
  empty : s.allocs = 0 → ∀ a, s.heap a = none

theorem PoolHeld.turn (hp : PoolHeld M s) {i : ℕ} {string : List UInt8} {kept : Heap}
    (ht : PoolTurn M i string s s' kept) (hquiet : Undisturbed s') : PoolHeld M s' := by
  -- a collection at the first allocation finds no object
  have hkept : (∀ j, j ≠ s.top - 1 → Valid M kept (s'.stack j)) ∧ HeapValid M kept := by
    rcases ht.origin with ⟨-, rfl, hstack⟩ | ⟨hat, id, forward, hr, hstack⟩
    · refine ⟨fun j hj => ?_, hp.heap⟩
      rw [hstack j hj]
      exact hp.words j
    · have hnone := hp.empty (hquiet s.allocs (by rw [hat]; exact List.mem_cons_self))
      refine ⟨fun j hj => ?_, hr.heapValid hp.heap⟩
      have hzone : M.heapZone (s.stack j) = false := by
        by_contra hz
        have hsome := hp.words j (by simpa using hz)
        rw [hnone] at hsome
        cases hsome
      rcases hstack j hj with hj | hj
      · rw [hj]
        exact valid_of_zone hzone
      · rw [hj, relocateWord, if_neg (by simp [hzone])]
        exact valid_of_zone hzone
  refine ⟨fun j => ?_, ?_, fun h => ?_⟩
  · rw [ht.heap]
    by_cases hj : j = s.top - 1
    · rw [hj]
      exact valid_of_object (Function.update_self ..)
    · exact (hkept.1 j hj).update _ _
  · rw [ht.heap]
    exact hkept.2.update ht.zone fun _ hw => by cases hw
  · rw [ht.allocs] at h
    cases h

theorem frameStack_held (hnew : ∀ i, M.heapZone (E.initStack i) = false) {u : Unit}
    (h : frameStack E (emptyState E) = .ok u s) (hquiet : Undisturbed s) : PoolHeld M s := by
  obtain ⟨_, s₁, hloop, htop⟩ := exec_bind_ok.mp h
  have hinit : PoolHeld M (emptyState E) :=
    ⟨fun i => valid_of_zone (hnew i), ⟨fun _ ha => (nomatch ha), fun _ _ ho => (nomatch ho)⟩,
      fun _ _ => rfl⟩
  have hheld : Undisturbed s₁ → PoolHeld M s₁ :=
    poolLoop_invariant (I := fun s => Undisturbed s → PoolHeld M s)
      (fun hs ht h => (hs (ht.undisturbed h)).turn ht h) hloop fun _ => hinit
  cases htop
  have hpool := hheld fun k hk => hquiet k hk
  exact ⟨hpool.words, hpool.heap, hpool.empty⟩

/-- Pushing a frame shows no word but its header and what was scanned before. -/
theorem Pushed.held {n isClosure : ℕ} {ra : Word} {entry : ℤ} (hp : Pushed M s n isClosure ra entry s')
    (hs : Held M [] s) (hra : M.heapZone ra = false) (hfp : M.heapZone (M.slotAddr s.fp) = false)
    (hn : s.top + n + isClosure < M.maxStack) (hmax : M.maxStack < 2 ^ 32) : Held M [] s' := by
  have hroom := hp.room
  have hcount : toU32 (n + isClosure) = n + isClosure :=
    toU32_of_lt (show n + isClosure < 2 ^ 32 by omega)
  refine ⟨fun i hi hM => ?_, by rw [hp.heap]; exact hs.heap, fun _ hw => (nomatch hw)⟩
  rw [hp.top] at hi
  rw [hp.heap]
  rcases Int.lt_or_le s.top i with habove | hheader
  · rcases Int.lt_or_le (s.top + n) i with hrest | harg
    · rw [hp.rest i (.inr hrest)]
      exact hs.roots i habove hM
    · rw [hp.args i habove harg]
      exact hs.roots _ (by omega) (by omega)
  · have hcases : i = s.top - 2 ∨ i = s.top - 1 ∨ i = s.top := by omega
    rcases hcases with rfl | rfl | rfl
    · rw [hp.savedTop, hcount]
      exact valid_of_zone (Machine.heapZone_slotAddr (by omega) (by push_cast; omega))
    · rw [hp.savedFp]
      exact valid_of_zone hfp
    · rw [hp.savedRa]
      exact valid_of_zone hra

/-- A run starts with valid words when the pool was built undisturbed. -/
theorem held_of_starts (hmax : M.maxStack < 2 ^ 32) (hnew : ∀ i, M.heapZone (E.initStack i) = false)
    (hstart : Starts E s) (hquiet : Undisturbed s) : Held M [] s := by
  obtain ⟨_, s₁, hctor, hpush⟩ := exec_bind_ok.mp hstart
  have hp := pushStackFrame_ok hpush
  have hroom := hp.room
  have hheld := frameStack_held hnew hctor fun k hk => hquiet k (hp.collectedAt ▸ hk)
  have hs₁ : Held M [] s₁ := ⟨fun i _ _ => hheld.words i, hheld.heap, fun _ hw => (nomatch hw)⟩
  refine hp.held hs₁ M.zone_null ?_ (by omega) hmax
  rw [(frameStack_registers hctor).1, Machine.slotAddr_nullSlot]
  exact M.zone_null

end Start

/-! ### One turn -/

section Turn

variable {M : Machine} {E : Env M} {B : Base} {A : List Activation} {sizes : List ℤ}
  {as : List Activation} {a : Activation} {s s' : State} {bound : ℤ}

/-- No instruction at `code_ptr` takes a stale word. -/
def Fresh (M : Machine) (s : State) : Prop := ∀ type, At M s type → NoStale M s type

/-- A turn inside its activation that takes no stale word keeps every scanned word valid. -/
theorem turned_held (hmax : M.maxStack < 2 ^ 31) (hB : B.Valid M) (hc : Chain M B A sizes (a :: as) s)
    (hin : Stays M bound s) (hfresh : Fresh M s) (hs : Held M [] s)
    (ht : Turned E B A sizes a as s s') : Held M [] s' := by
  have hfp : s.fp = a.fp := hc.fp
  have hslot := hc.linked.last_slot hB
  have hfloor := a.floor_le_fp
  have hl : a.last = a.fp + 3 + a.nargs + a.isClosure := rfl
  -- the frame of the caller is above the top, so its address is a slot of the stack
  have hsaved : 0 ≤ s.top → s.top ≤ a.floor → M.heapZone (M.slotAddr s.fp) = false := fun h0 htop =>
    Machine.heapZone_slotAddr (by omega) (by omega)
  cases ht with
  | @plain type hat hplain hd _ =>
    refine dispatch_held hs hplain (hfresh type hat) (fun n ns hsizes => ?_) hd
    have hargs := hc.argSizes
    rw [hsizes, List.map_cons, List.cons_append] at hargs
    have hn : n = toI32 a.nargs := (List.cons.inj hargs).1
    have hrange : toI32 a.nargs = a.nargs := toI32_of_lt (by have := hc.linked.1.fp_ge; omega)
    have htop : s.top ≤ a.floor := hc.top
    rw [hn, hrange, hfp]
    omega
  | @enter type arg nLocals hat hbegin hd harg hn hroom hs' _ =>
    rw [hs']
    refine ⟨fun i hi hM => ?_, hs.heap, fun _ hw => (nomatch hw)⟩
    dsimp only at hi ⊢
    exact hs.slot hM fun hlow => hfresh type hat _ (.reserved hbegin hn hi hlow)
  | @call target n hat hd htarget hn hp hback _ =>
    have hneed := hc.need_le (hin .call hat)
    rw [(need_of_ok (n := n) (l := 1) (by rw [operandEffect, hn]; rfl)).1] at hneed
    have hroom := hp.room
    exact hp.held hs (codeAddr_behind hn (s.codePtr + 9) (by omega)).1 (hsaved (by omega) (by omega))
      (by push_cast; omega) (by omega)
  | @callc n elem hat hd hn hentry hp hback _ =>
    have hneed := hc.need_le (hin .callc hat)
    rw [(need_of_ok (n := n + 1) (l := 1) (by rw [operandEffect, hn]; rfl)).1] at hneed
    have hroom := hp.room
    exact hp.held hs (codeAddr_behind hn (s.codePtr + 5) (by omega)).1 (hsaved (by omega) (by omega))
      (by push_cast; omega) (by omega)
  | leave hat hd hra hpc htop hstack _ =>
    have hr := end_ok hd
    have hneed := hc.need_le (hin .end hat)
    have hvalid : Valid M s.heap (s.stack (s.top + 1)) := hs.roots _ (Int.lt_succ _) hr.result.2
    refine ⟨fun i hi hM => ?_, by rw [hr.heap]; exact hs.heap, fun _ hw => (nomatch hw)⟩
    rw [hr.heap, hstack]
    rw [htop] at hi
    by_cases hi' : i = a.last
    · rw [hi', Function.update_self]
      exact hvalid
    · rw [Function.update_of_ne hi']
      exact hs.roots i (by omega) hM

/-- At BEGIN the condition is exact. -/
theorem begin_roots_iff (hs : Held M [] s) (htop : s.top < M.maxStack) {type : InstructionType}
    (ht : type = .begin ∨ type = .cbegin) (hat : At M s type) (hstep : Step E s s') :
    RootsValid M s' ↔ NoStale M s type := by
  obtain ⟨type', hat', hd⟩ := (turn_ok E).mp hstep
  rw [hat'.unique hat] at hd
  obtain ⟨-, arg, nLocals, -, hn, -, rfl⟩ := begin_ok ht hd
  constructor
  · intro hroots w hw
    obtain ⟨n, i, hn', hlow, hhigh, rfl⟩ := hw.reserved_slot ht
    rw [hn] at hn'
    cases hn'
    exact hroots i hlow (by omega)
  · intro hfresh i hi hM
    dsimp only at hi ⊢
    exact hs.slot hM fun hlow => hfresh _ (.reserved ht hn hi hlow)

end Turn

/-! ### Runs -/

section Runs

variable {M : Machine} {E : Env M} {s₀ s : State}

/-- The chain of a run from the start never becomes empty. -/
theorem turned_cons {B : Base} (hnull : B.bottom.ra = 0) {a : Activation} {as : List Activation}
    {s s' : State} (hc : Chain M B [] [] (a :: as) s) (ht : Turned E B [] [] a as s s') :
    ∃ b bs, Chain M B [] [] (b :: bs) s' := by
  obtain ⟨as', hc', hnil⟩ := ht.chain
  cases as' with
  | cons b bs => exact ⟨b, bs, hc'⟩
  | nil =>
    obtain ⟨hra, rfl⟩ := hnil rfl
    exact absurd (((hc.linked.2.1 rfl).2.2.2).trans hnull) hra

theorem run_held (hmax : M.maxStack < 2 ^ 31) (hnew : ∀ i, M.heapZone (E.initStack i) = false)
    (hstart : Starts E s₀) (hquiet : Undisturbed s₀)
    (hrun : Run (Step E) (fun u => Stays M (s₀.fp + 3) u ∧ Fresh M u) s₀ s) :
    Held M [] s ∧ s.top < M.maxStack := by
  obtain ⟨B, hB, hfloor, hnull, a₀, hc₀⟩ := chain_of_starts hstart
  have hM := hB.floor_lt
  have hinv : (∃ a as, Chain M B [] [] (a :: as) s) ∧ Held M [] s := by
    refine Run.invariant (I := fun u => (∃ a as, Chain M B [] [] (a :: as) u) ∧ Held M [] u) ?_
      ⟨⟨a₀, [], hc₀⟩, held_of_starts (by omega) hnew hstart hquiet⟩ hrun
    intro u v ⟨⟨a, as, hc⟩, hheld⟩ ⟨hin, hfresh⟩ hstep
    obtain ⟨-, hgo⟩ := turn_chain (by omega) hB (by omega) (by omega) hc hin hstep
    obtain ⟨hturned, -⟩ := hgo rfl
    exact ⟨turned_cons hnull hc hturned, turned_held hmax hB hc hin hfresh hheld hturned⟩
  obtain ⟨⟨a, as, hc⟩, hheld⟩ := hinv
  have htop : s.top ≤ a.floor := hc.top
  have hlast := hc.linked.last_slot hB
  have hl := a.fp_lt_last
  have hfloor := a.floor_le_fp
  exact ⟨hheld, by omega⟩

end Runs

/-- `main` makes an array, drops it, allocates another one, and calls a function with a local. -/
def staleFile : Bytefile := .ofMain 0
  [0x52, 0, 0, 0, 0, 0, 0, 0, 0, 0x10, 0, 0, 0, 0, 0x19, 0x19, 0x10, 0, 0, 0, 0, 0x74, 1, 0, 0, 0,
    0x18, 0x18, 0x18, 0x18, 0x10, 0, 0, 0, 0, 0x74, 1, 0, 0, 0, 0x18, 0x56, 51, 0, 0, 0, 0, 0, 0, 0,
    0x16, 0x52, 0, 0, 0, 0, 1, 0, 0, 0, 0x10, 0, 0, 0, 0, 0x16, 0xFF]

def staleVerified : Bytefile :=
  staleFile.withBytes ((staleFile.bytes.set 28 4).set 79 1)

def staleMachine : Machine := Machine.layout staleVerified stackSize (by decide) stackSize_le

def bumpEnv : Env staleMachine := Env.bump staleMachine fun k => BitVec.ofNat 64 (2 ^ 50 + 64 * k)

/-- The third allocation, that of the second array, begins with a collection. -/
def staleEnv : Env staleMachine := bumpEnv.moving 2 (BitVec.ofNat 64 (2 ^ 40))

/-- The state of `staleFile` after `n` turns. -/
def staleState : ℕ → State
  | 0 => startState staleEnv
  | n + 1 => nextState staleEnv (staleState n)

theorem verify_staleFile : verify 40 staleFile = .ok staleVerified := by decide +kernel

/-- Every turn before the last one stays inside its activation and takes no stale word. -/
theorem staleTurns_guarded : ∀ n < 14,
    Stays staleMachine ((staleState 0).fp + 3) (staleState n) ∧ Fresh staleMachine (staleState n) := by
  have hcheck : ∀ n < 14, ∃ type ∈ [InstructionType.begin, .const, .dup, .callArray, .drop, .call],
      At staleMachine (staleState n) type ∧
      need staleVerified (staleState n).codePtr type (integerIndex (staleState n)) ≤
        (staleState n).operands ∧
      storeSlot staleMachine (staleState n) type = none ∧
      (type.takesUntracked = false ∨ type = .begin ∧
        staleVerified.code32 ((staleState n).codePtr + 1 + 4) = .ok 0) := by
    decide +kernel
  intro n hn
  obtain ⟨type, -, hat, hop, hstore, hfresh⟩ := hcheck n hn
  refine ⟨fun type' hat' => ?_, fun type' hat' => ?_⟩
  · rw [← hat.unique hat']
    exact ⟨hop, fun i hi => by rw [hstore] at hi; cases hi⟩
  · rw [← hat.unique hat']
    rcases hfresh with htracked | ⟨rfl, hlocals⟩
    · exact noStale_of_tracked htracked
    · intro w hw
      obtain ⟨k, i, hk, hlow, hhigh, rfl⟩ := hw.reserved_slot (.inl rfl)
      have hk : staleVerified.code32 ((staleState n).codePtr + 1 + 4) = .ok k := hk
      rw [hlocals] at hk
      cases hk
      omega

theorem staleTurns : ∀ n < 15, Step staleEnv (staleState n) (staleState (n + 1)) := by
  have hall : ∀ n < 15, turnResult staleEnv (staleState n) = some false := by decide +kernel
  exact fun n hn => turn_nextState staleEnv (hall n hn)

end LamaSM
