import LamaSM.Captures

/-! The extra-root pool while an aggregate is built.

    CALL_ARRAY, SEXP and CLOSURE register every word of the aggregate before they allocate, though all
    of them lie on the stack, and take them out again in the opposite order. The pool has room for
    `MAX_EXTRA_ROOTS_NUMBER` entries, the number of words comes from the program. -/

namespace LamaSM
open Lib

/-- How `push_extra_root` and `pop_extra_root` end the process. -/
def PoolExit (e : Fault) : Prop :=
  e = .exit "ERROR: push_extra_roots: extra_roots_pool overflow\n" ∨
    e = .exit "ERROR: pop_extra_root: extra_roots are empty\n" ∨
    e = .exit "ERROR: pop_extra_root: stack invariant violation\n"

/-- How `gc_alloc` ends the process. -/
def mmapFailed : Fault := .exit "ERROR: compact_phase: mmap failed\n"

/-- The instruction at `code_ptr` builds an aggregate of the words `ws`, and the state has the operands
    and the room it needs. -/
inductive Builds (M : Machine) (s : State) : List Word → Prop
  | array {n : UInt32} : Placed M.bf s.codePtr (callArrayInstruction n).encode → -1 ≤ s.top →
      0 ≤ s.top + n.toNat → s.top + n.toNat < M.maxStack → Builds M s (operands s n.toNat)
  | sexp {t n : UInt32} {name : List UInt8} {ptr hash : Word} :
      Placed M.bf s.codePtr (sexpInstruction t n).encode → Literal M s t.toNat name ptr →
      tagHash name = .ok hash → 0 ≤ s.top → s.top + n.toNat < M.maxStack →
      Builds M s (operands s n.toNat)
  | closure {f : UInt32} {xs : List Word} : Activated s → Captures M s f xs → (xs.length : ℤ) ≤ s.top →
      s.top < M.maxStack → Builds M s xs

/-- The turn keeps to the pool: no push finds it full, every pop names the root pushed last, and it is
    empty again afterwards. The turn goes through unless `mmap` fails. -/
structure Balanced {M : Machine} (E : Env M) (s : State) : Prop where
  stays : ∀ e s', turn E s = .error e s' → ¬ PoolExit e
  empty : ∀ s', Step E s s' → s'.extraRoots = []
  completes : (∃ s', Step E s s') ∨ ∃ s', turn E s = .error mmapFailed s'

section Pool

variable {M : Machine} {E : Env M} {s s₁ : State} {n : ℕ} {ws : List Word}

/-- More roots than fit are too many for `push_extra_root`. -/
theorem pushExtraRoots_overflow : ∀ (ps : List RootRef) {s : State},
    s.extraRoots.length ≤ maxExtraRootsNumber → maxExtraRootsNumber < s.extraRoots.length + ps.length →
      ∃ u, pushExtraRoots ps s = .error (.exit "ERROR: push_extra_roots: extra_roots_pool overflow\n") u
  | [], s, hle, hlt => by
    rw [List.length_nil] at hlt
    omega
  | p :: ps, s, hle, hlt => by
    rw [List.length_cons] at hlt
    by_cases hfull : maxExtraRootsNumber ≤ s.extraRoots.length
    · exact ⟨s, exec_bind_of_error (if_pos hfull)⟩
    · have hpush : pushExtraRoot p s = .ok () { s with extraRoots := p :: s.extraRoots } := if_neg hfull
      obtain ⟨u, hu⟩ := pushExtraRoots_overflow ps
        (s := { s with extraRoots := p :: s.extraRoots }) (by rw [List.length_cons]; omega)
        (by rw [List.length_cons]; omega)
      exact ⟨u, (exec_bind_of_ok hpush).trans hu⟩

/-- A constructor that begins by rooting too many slots ends the process there. -/
theorem roots_overflow (slots : List ℤ) {rest : Unit → Exec Word} (hroots : s.extraRoots = [])
    (hslots : maxExtraRootsNumber < slots.length) : ∃ u, (pushExtraRoots (slots.map .slot) >>= rest) s =
      .error (.exit "ERROR: push_extra_roots: extra_roots_pool overflow\n") u := by
  obtain ⟨u, hu⟩ := pushExtraRoots_overflow (slots.map .slot) (s := s)
    (by rw [hroots]; exact Nat.zero_le _) (by rw [hroots, List.length_map]; simpa using hslots)
  exact ⟨u, exec_bind_of_error hu⟩

/-- An allocation fails when the first collection finds a null word, and otherwise when `mmap` does. -/
theorem alloc_error (htop : -1 ≤ s.top) {e : Fault} {u : State} (h : alloc E s = .error e u) :
    (s.allocs = 0 ∧ 0 ∈ rootWords M s) ∨ e = mmapFailed := by
  by_cases hnull : s.allocs = 0 ∧ 0 ∈ rootWords M s
  · exact .inl hnull
  refine .inr ?_
  have hc : ∃ v, collectGarbage E s = .ok () v := by
    unfold collectGarbage
    rw [if_neg hnull]
    cases E.collect s.allocs s.heap (rootWords M s) with
    | none => exact ⟨s, rfl⟩
    | some c => exact ⟨_, if_neg (by omega)⟩
  obtain ⟨v, hv⟩ := hc
  have hplace := (exec_bind_of_ok hv).symm.trans h
  cases hfree : E.place v.allocs v.heap with
  | some a =>
    rw [hfree] at hplace
    cases hplace
  | none =>
    rw [hfree] at hplace
    cases hplace
    rfl

theorem not_poolExit_mmapFailed : ¬ PoolExit mmapFailed := by
  rintro (h | h | h)
  all_goals exact absurd h (by decide)

/-- An instruction whose words all fit into the pool keeps to it, and goes through unless the first
    collection finds a null word. -/
theorem Constructs.balanced {type : InstructionType} {handler : Exec Unit} {m length : ℕ} {slots : List ℤ}
    {X : Exec Word} {o : (ℤ → Word) → Obj} (h : Constructs E s handler n m length ws slots X o s₁)
    (hat : At M s type) (hd : dispatch E type = (do handler; return false)) :
    Balanced E s ↔ ¬ (s.allocs = 0 ∧ NullRoot M s ws) := by
  by_cases hnull : s.allocs = 0 ∧ NullRoot M s ws
  · refine ⟨fun hb => ?_, fun hfree => absurd hnull hfree⟩
    have hcrash : handler s = .error (.undefined (.object 0)) (s₁.rooted slots) := by
      rw [h.handler_eq, exec_bind_of_error (h.failed _ _ (alloc_null (h.null.mpr hnull)))]
    have hturn := turn_of_throw E hat hd hcrash
    rcases hb.completes with ⟨s', hs'⟩ | ⟨s', hs'⟩
    · rw [Step, hturn] at hs'
      cases hs'
    · rw [hturn] at hs'
      cases hs'
  · refine ⟨fun _ => hnull, fun _ => ?_⟩
    rcases h.outcome with ⟨relocate, heap, a, s', hrun, hcreated⟩ | ⟨e, u, halloc, hrun⟩
    · have hturn := turn_of_handler E hat hd hrun
      refine ⟨fun e u he => ?_, fun s'' hs'' => ?_, .inl ⟨s', hturn⟩⟩
      · rw [hturn] at he
        cases he
      · rw [Step, hturn] at hs''
        cases hs''
        obtain ⟨stack, slack, touched, allocs, collections, collectedAt, rfl⟩ := hcreated.state
        exact h.roots
    · have hturn := turn_of_throw E hat hd hrun
      obtain rfl : e = mmapFailed := (alloc_error (s := s₁.rooted slots) h.low halloc).resolve_left
        fun hroot => hnull (h.null.mp hroot)
      refine ⟨fun e' u' he => ?_, fun s'' hs'' => ?_, .inr ⟨u, hturn⟩⟩
      · rw [hturn] at he
        cases he
        exact not_poolExit_mmapFailed
      · rw [Step, hturn] at hs''
        cases hs''

theorem Builds.balanced (h : Builds M s ws) (hroots : s.extraRoots = [])
    (hn : ws.length ≤ maxExtraRootsNumber) : Balanced E s ↔ ¬ (s.allocs = 0 ∧ NullRoot M s ws) := by
  cases h with
  | @array n hcode htop hlow hhigh =>
    rw [length_operands] at hn
    have hat : At M s .callArray := type_callArrayInstruction n ▸ at_of_placed hcode
    exact (callArray_constructs hcode hroots hn htop ⟨hlow, hhigh⟩).balanced hat rfl
  | @sexp t n name ptr hash hcode hlit hhash htop hhigh =>
    rw [length_operands] at hn
    have hat : At M s .sexp := type_sexpInstruction t n ▸ at_of_placed hcode
    exact (boxingSexp_constructs hlit hhash hcode hroots hn htop hhigh).balanced hat rfl
  | @closure f xs hs hcaptures htop hM =>
    obtain ⟨i, count, hplaced, htype, -, -⟩ := id hcaptures
    have hat : At M s .closure := htype ▸ at_of_placed hplaced
    obtain ⟨t, hpushes⟩ := pushOps_total (M := M) (ws.reverse ++ [boxInt f.toNat])
      (t := { s with codePtr := s.codePtr + (9 + 5 * ws.length : ℕ) })
      (by rw [List.length_append, List.length_reverse, List.length_singleton]; dsimp only; omega) hM
    exact (closuresCreate_constructs hs hcaptures hroots hn ⟨htop, hM⟩ hpushes).balanced hat rfl

/-- With more words the pool runs over. -/
theorem Builds.overflows (hstack : M.maxStack = stackSize) (h : Builds M s ws) (hroots : s.extraRoots = [])
    (hn : maxExtraRootsNumber < ws.length) :
    ∃ u, turn E s = .error (.exit "ERROR: push_extra_roots: extra_roots_pool overflow\n") u := by
  cases h with
  | @array n hcode htop hlow hhigh =>
    rw [length_operands] at hn
    have hat : At M s .callArray := type_callArrayInstruction n ▸ at_of_placed hcode
    obtain ⟨u, hu⟩ := roots_overflow (s := reversedState s n.toNat)
      (argSlots (s.top + 1) 0 n.toNat) hroots (by rw [length_argSlots]; exact hn)
    refine ⟨u, turn_of_throw E hat rfl ?_⟩
    rw [callArray_eq hcode htop hhigh]
    exact exec_bind_of_error hu
  | @sexp t n name ptr hash hcode hlit hhash htop hhigh =>
    rw [length_operands] at hn
    have hat : At M s .sexp := type_sexpInstruction t n ▸ at_of_placed hcode
    obtain ⟨u, hu⟩ := roots_overflow (s := hashedState s n.toNat hash)
      (argSlots s.top 1 n.toNat) hroots (by rw [length_argSlots]; exact hn)
    have hsize : (M.maxStack : ℤ) < 2 ^ 32 := by
      rw [hstack]
      decide
    refine ⟨u, turn_of_throw E hat rfl ?_⟩
    rw [boxingSexp_eq hlit hhash hcode (toU32_of_lt (show n.toNat + 1 < 2 ^ 32 by omega)) htop hhigh]
    exact exec_bind_of_error hu
  | @closure f xs hs hcaptures htop hM =>
    obtain ⟨i, count, hplaced, htype, -, -⟩ := id hcaptures
    have hat : At M s .closure := htype ▸ at_of_placed hplaced
    obtain ⟨t, hpushes⟩ := pushOps_total (M := M) (ws.reverse ++ [boxInt f.toNat])
      (t := { s with codePtr := s.codePtr + (9 + 5 * ws.length : ℕ) })
      (by rw [List.length_append, List.length_reverse, List.length_singleton]; dsimp only; omega) hM
    obtain ⟨stack, hstate⟩ := (pushOps_ok hpushes).state
    have hempty : t.extraRoots = [] := by
      rw [hstate]
      exact hroots
    obtain ⟨u, hu⟩ := roots_overflow (argSlots (t.top + 1) 1 ws.length) hempty
      (by rw [length_argSlots]; exact hn)
    refine ⟨u, turn_of_throw E hat rfl ?_⟩
    rw [closuresCreate_eq hs hcaptures hpushes]
    exact exec_bind_of_error hu

end Pool

/-- `main` pushes 33 words and makes an array of them. -/
def rootsFile : Bytefile := .ofMain 0
  ([0x52, 0, 0, 0, 0, 0, 0, 0, 0, 0x10, 7, 0, 0, 0] ++ List.replicate 32 0x19 ++
    [0x74, 33, 0, 0, 0, 0x16, 0xFF])

def rootsVerified : Bytefile := rootsFile.withBytes (rootsFile.bytes.set 28 33)

theorem verify_rootsFile : verify 60 rootsFile = .ok rootsVerified := by decide +kernel

def rootsMachine : Machine := Machine.layout rootsVerified stackSize (by decide) stackSize_le

def rootsEnv : Env rootsMachine := Env.bump rootsMachine fun k => BitVec.ofNat 64 (2 ^ 50 + 64 * k)

/-- The state of `rootsFile` after `n` turns. -/
def rootsState : ℕ → State
  | 0 => startState rootsEnv
  | n + 1 => nextState rootsEnv (rootsState n)

/-- A file with one global variable and no string: nothing is allocated before its code makes an array
    of one word. -/
def nullFile : Bytefile := .ofBytes
  [0, 0, 0, 0, 1, 0, 0, 0, 0, 0, 0, 0,
    0x52, 0, 0, 0, 0, 0, 0, 0, 0, 0x10, 7, 0, 0, 0, 0x74, 1, 0, 0, 0, 0x16, 0xFF]

def nullMachine : Machine := Machine.layout nullFile stackSize (by decide) stackSize_le

def nullEnv : Env nullMachine := Env.bump nullMachine fun k => BitVec.ofNat 64 (2 ^ 50 + 64 * k)

/-- The state of `nullFile` after `n` turns. -/
def nullState : ℕ → State
  | 0 => startState nullEnv
  | n + 1 => nextState nullEnv (nullState n)

/-- The collection before the first object takes a null word of the outermost frame for an object. -/
theorem nullFile_crashes : verify 30 nullFile = .ok nullFile ∧ Starts nullEnv (nullState 0) ∧
    (∀ k < 2, Step nullEnv (nullState k) (nullState (k + 1))) ∧
    Builds nullMachine (nullState 2) (operands (nullState 2) 1) ∧ (nullState 2).extraRoots = [] ∧
    ¬ Balanced nullEnv (nullState 2) := by
  have hturns : ∀ k < 2, turnResult nullEnv (nullState k) = some false := by decide +kernel
  have hbuilds : Builds nullMachine (nullState 2) (operands (nullState 2) 1) :=
    .array (n := 1) (by decide +kernel) (by decide +kernel) (by decide +kernel) (by decide +kernel)
  have hroots : (nullState 2).extraRoots = [] := by decide +kernel
  refine ⟨by decide +kernel, starts_startState nullEnv (by decide +kernel),
    fun k hk => turn_nextState nullEnv (hturns k hk), hbuilds, hroots, fun hb => ?_⟩
  refine (hbuilds.balanced hroots (by rw [length_operands]; decide)).mp hb ⟨by decide +kernel, .inl ?_⟩
  exact ⟨(nullState 2).fp + 2, by decide +kernel, by decide +kernel, by decide +kernel⟩

end LamaSM
