import LamaSM.Aside

/-! The extra roots between the instructions: what the runtime pushes it pops again, so the pool is
    empty whenever a turn begins. -/

namespace LamaSM
open Lib

/-- When it returns, the operation leaves the pool longer by `k`. -/
def Shifts {α : Type} (k : ℤ) (x : Exec α) : Prop :=
  ∀ s a s', x s = .ok a s' → (s'.extraRoots.length : ℤ) = s.extraRoots.length + k

/-- The pool is as long as before. -/
abbrev KeepsPool {α : Type} (x : Exec α) : Prop := Shifts 0 x

section Shifts

variable {α β : Type} {k l : ℤ}

theorem Shifts.bind {x : Exec α} {f : α → Exec β} (hx : Shifts k x) (hf : ∀ a, Shifts l (f a)) :
    Shifts (k + l) (x >>= f) := by
  intro s b s' h
  obtain ⟨a, s₁, h₁, h₂⟩ := exec_bind_ok.mp h
  have hlen := hx s a s₁ h₁
  have hlen' := hf a s₁ b s' h₂
  omega

/-- An operation that leaves the pool alone comes first. -/
theorem KeepsPool.then {x : Exec α} {f : α → Exec β} (hx : KeepsPool x) (hf : ∀ a, Shifts k (f a)) :
    Shifts k (x >>= f) := by
  have hall := Shifts.bind hx hf
  rwa [Int.zero_add] at hall

/-- What is pushed is popped again. -/
theorem Shifts.undo {x : Exec α} {f : α → Exec β} (hx : Shifts k x) (hf : ∀ a, Shifts (-k) (f a)) :
    KeepsPool (x >>= f) := by
  have hall := hx.bind hf
  rwa [Int.add_right_neg] at hall

/-- The rest leaves the pool alone. -/
theorem Shifts.last {x : Exec α} {f : α → Exec β} (hx : Shifts k x) (hf : ∀ a, KeepsPool (f a)) :
    Shifts k (x >>= f) := by
  have hall := hx.bind hf
  rwa [Int.add_zero] at hall

theorem KeepsPool.bind {x : Exec α} {f : α → Exec β} (hx : KeepsPool x)
    (hf : ∀ a, KeepsPool (f a)) : KeepsPool (x >>= f) := KeepsPool.then hx hf

theorem keepsPool_pure (a : α) : KeepsPool (pure a : Exec α) := by
  intro s b s' h
  cases h
  exact (Int.add_zero _).symm

theorem shifts_throw (e : Fault) : Shifts k (throw e : Exec α) := by
  intro s a s' h
  cases h

/-- An operation that fails or moves to a state with the same pool. -/
theorem keepsPool_of_same {x : Exec α} (h : ∀ s a s', x s = .ok a s' → s'.extraRoots = s.extraRoots) :
    KeepsPool x := by
  intro s a s' hs
  rw [h s a s' hs, Int.add_zero]

theorem keepsPool_modify {f : State → State} (hf : ∀ s, (f s).extraRoots = s.extraRoots) :
    KeepsPool (modify f : Exec PUnit) :=
  keepsPool_of_same fun s _ _ h => by cases h; exact hf s

/-- An operation beside the heap leaves the pool alone. -/
theorem Aside.keepsPool {x : Exec α} (hx : Aside x) : KeepsPool x :=
  keepsPool_of_same fun s a s' h => (hx s a s' h).extraRoots

theorem Aside.then {x : Exec α} {f : α → Exec β} (hx : Aside x) (hf : ∀ a, Shifts k (f a)) :
    Shifts k (x >>= f) := KeepsPool.then hx.keepsPool hf

end Shifts

section Operations

variable {M : Machine} (E : Env M)

theorem keepsPool_setObj (a : Word) (o : Obj) : KeepsPool (setObj a o) :=
  keepsPool_of_same fun _ _ _ h => by cases h; rfl

/-! ### Runtime functions -/

theorem keepsPool_storeWord (ptr w : Word) : KeepsPool (storeWord M ptr w) := by
  have hobj : KeepsPool (storeWord.storeObj ptr w) := keepsPool_of_same fun s u s' h => by
    unfold storeWord.storeObj at h
    split at h <;> cases h <;> rfl
  intro s u s' h
  rw [storeWord] at h
  cases hj : M.slotOf ptr with
  | none => rw [hj] at h; exact hobj s u s' h
  | some j =>
    rw [hj] at h
    dsimp only at h
    split_ifs at h
    · cases h; exact (Int.add_zero _).symm
    · exact hobj s u s' h

theorem keepsPool_Bsta (x i v : Word) : KeepsPool (Bsta M x i v) := by
  rw [Bsta]
  split_ifs
  · refine (aside_getObj x).then fun o => ?_
    cases o.put (unbox i) v with
    | some o' => exact (keepsPool_setObj x o').bind fun _ => keepsPool_pure v
    | none => exact shifts_throw _
  · exact (keepsPool_storeWord x v).bind fun _ => keepsPool_pure v

/-! ### Construction of objects -/

theorem shifts_pushExtraRoot (p : RootRef) : Shifts 1 (pushExtraRoot p) := by
  intro s u s' h
  rw [pushExtraRoot] at h
  split_ifs at h
  cases h
  exact Int.natCast_succ _

theorem shifts_popExtraRoot (p : RootRef) : Shifts (-1) (popExtraRoot p) := by
  intro s u s' h
  rw [popExtraRoot] at h
  cases hroots : s.extraRoots with
  | nil => rw [hroots] at h; cases h
  | cons q rest =>
    rw [hroots] at h
    dsimp only at h
    split_ifs at h
    cases h
    dsimp only
    rw [List.length_cons]
    omega

theorem shifts_pushExtraRoots (ps : List RootRef) : Shifts ps.length (pushExtraRoots ps) := by
  induction ps with
  | nil => exact keepsPool_pure ()
  | cons p ps ih =>
    have hall := (shifts_pushExtraRoot p).bind fun _ => ih
    rwa [show (1 : ℤ) + ps.length = (p :: ps).length by rw [List.length_cons]; omega] at hall

theorem shifts_popExtraRoots (ps : List RootRef) : Shifts (-ps.length) (popExtraRoots ps) := by
  induction ps with
  | nil => exact keepsPool_pure ()
  | cons p ps ih =>
    have hall := (shifts_popExtraRoot p).bind fun _ => ih
    rwa [show (-1 : ℤ) + -ps.length = -(p :: ps).length by rw [List.length_cons]; omega] at hall

theorem shifts_popSlots (slots : List ℤ) :
    Shifts (-((slots.map RootRef.slot).length : ℤ)) (popExtraRoots (slots.reverse.map .slot)) := by
  have hpop := shifts_popExtraRoots (slots.reverse.map .slot)
  rwa [List.length_map, List.length_reverse, ← List.length_map] at hpop

theorem keepsPool_alloc : KeepsPool (alloc E) := by
  intro s a s' h
  obtain ⟨_, s₁, hc, h⟩ := exec_bind_ok.mp h
  have hlen : s₁.extraRoots.length = s.extraRoots.length := by
    rw [collectGarbage] at hc
    split at hc
    · cases hc
    split at hc
    · cases hc; rfl
    · split_ifs at hc
      cases hc
      exact List.length_map ..
  split at h
  · cases h
  · cases h
    dsimp only
    omega

/-- The object is filled after the roots are popped. -/
theorem keepsPool_fill {p : Word} {o : Obj} : KeepsPool (do
    setObj p o
    return p) := (keepsPool_setObj p o).bind fun _ => keepsPool_pure p

theorem keepsPool_Bstring (id : ℕ) (bytes : List UInt8) : KeepsPool (Bstring E id bytes) :=
  (shifts_pushExtraRoot _).undo fun _ => (keepsPool_alloc E).then fun _ =>
    (shifts_popExtraRoot _).last fun _ => keepsPool_fill

theorem keepsPool_Lstring (ref : RootRef) (arg : Word) : KeepsPool (Lstring E ref arg) := by
  refine aside_get.then fun s => ?_
  cases E.printValue s.heap s.slack arg with
  | error e => exact shifts_throw e
  | ok content =>
    exact (shifts_pushExtraRoot ref).undo fun _ => (keepsPool_Bstring E 1 content).then fun r =>
      (shifts_popExtraRoot ref).last fun _ => keepsPool_pure r

theorem keepsPool_Barray (args : ℤ) (n : ℕ) : KeepsPool (Barray E args n) :=
  (shifts_pushExtraRoots _).undo fun _ => (keepsPool_alloc E).then fun _ =>
    (aside_readArgs _).then fun _ => (shifts_popSlots _).last fun _ => keepsPool_fill

theorem keepsPool_Bclosure (args : ℤ) (n : ℕ) : KeepsPool (Bclosure E args n) :=
  (shifts_pushExtraRoots _).undo fun _ => (keepsPool_alloc E).then fun _ =>
    (aside_readOperand args).then fun _ => (aside_readArgs _).then fun _ =>
      (shifts_popSlots _).last fun _ => keepsPool_fill

theorem keepsPool_Bsexp (args : ℤ) (n : ℕ) : KeepsPool (Bsexp E args n) := by
  refine (shifts_pushExtraRoots _).undo fun _ => (keepsPool_alloc E).then fun _ => ?_
  split
  · exact shifts_throw _
  · exact (aside_readArgs _).then fun _ => (aside_readOperand args).then fun _ =>
      (shifts_popSlots _).last fun _ => keepsPool_fill

/-! ### Handlers -/

section Handlers

theorem keepsPool_pop {α : Type} {f : Word → Exec α} (hf : ∀ w, KeepsPool (f w)) :
    KeepsPool (do
      let w ← peekOp M
      popOp
      f w) := aside_peekOp.then fun w => aside_popOp.then fun _ => hf w

theorem keepsPool_memStore : KeepsPool (memStore M) := by
  refine aside_consumeLowerBits1.then fun (low, index) => ?_
  dsimp only
  cases MemVar.ofByte low with
  | global | «local» | argument =>
    exact aside_peekOp.then fun w => (aside_setSlot _ w).keepsPool
  | closure =>
    exact aside_peekOp.then fun w => aside_closurePtr.then fun p =>
      (keepsPool_Bsta p _ w).bind fun _ => keepsPool_pure ()
  | other => exact shifts_throw _

theorem keepsPool_stores : KeepsPool (stackSta M) ∧ KeepsPool (stackSti M) := by
  have hcopy (i z : Word) : KeepsPool (do
      let w ← loadWord M i
      storeWord M z w
      pushOp M z) :=
    (aside_loadWord i).then fun w => (keepsPool_storeWord z w).bind fun _ =>
      (aside_pushOp z).keepsPool
  refine ⟨(aside_advance 1).then fun _ => keepsPool_pop fun z => keepsPool_pop fun i => ?_,
    (aside_advance 1).then fun _ => keepsPool_pop fun z => keepsPool_pop fun i => ?_⟩
  · split_ifs
    · exact keepsPool_pop fun x => (keepsPool_Bsta x i z).bind fun _ => (aside_pushOp z).keepsPool
    · exact hcopy i z
  · split_ifs
    · exact shifts_throw _
    · exact hcopy i z

theorem keepsPool_closuresCreate : KeepsPool (closuresCreate E) :=
  aside_consumeArgs2.then fun _ => (aside_consumeDesignations _).then fun ds =>
    (aside_pushDesignations ds.reverse).then fun _ => (aside_pushOp _).then fun _ =>
      aside_get.then fun _ => (keepsPool_Bclosure E _ _).bind fun r =>
        (aside_popOps _).then fun _ => (aside_pushOp r).keepsPool

theorem keepsPool_boxingSexp : KeepsPool (boxingSexp E) :=
  aside_consumeArgs2.then fun _ => (aside_getStringPtr _).then fun p =>
    (aside_LtagHash p).then fun w => (aside_pushOp w).then fun _ => aside_get.then fun _ =>
      (aside_touch _).then fun _ => (keepsPool_Bsexp E _ _).bind fun r =>
        (aside_popOps _).then fun _ => (aside_pushOp r).keepsPool

theorem keepsPool_callArray : KeepsPool (callArray E) :=
  aside_consumeArgs1.then fun _ => aside_get.then fun _ => (aside_touch _).then fun _ =>
    (aside_reverseSlots _ _).then fun _ => (keepsPool_Barray E _ _).bind fun r =>
      (aside_popOps _).then fun _ => (aside_pushOp r).keepsPool

theorem keepsPool_callString : KeepsPool (callString E) :=
  (aside_advance 1).then fun _ => aside_peekOp.then fun a => aside_get.then fun _ =>
    (keepsPool_Lstring E _ a).bind fun r => aside_popOp.then fun _ => (aside_pushOp r).keepsPool

/-- Every handler pops the extra roots it pushes. -/
theorem keepsPool_dispatch (type : InstructionType) : KeepsPool (dispatch E type) := by
  have go {handler : Exec Unit} (h : KeepsPool handler) : KeepsPool (do handler; return false) :=
    h.bind fun _ => keepsPool_pure false
  cases type
  case sexp => exact go (keepsPool_boxingSexp E)
  case sti => exact go keepsPool_stores.2
  case sta => exact go keepsPool_stores.1
  case st => exact go keepsPool_memStore
  case closure => exact go (keepsPool_closuresCreate E)
  case callString => exact go (keepsPool_callString E)
  case callArray => exact go (keepsPool_callArray E)
  all_goals exact (aside_dispatch E _ rfl).keepsPool

end Handlers

end Operations

/-! ### Runs -/

section Runs

variable {M : Machine} {E : Env M} {s s' : State}

/-- A turn leaves the pool as long as it was. -/
theorem turn_pool {ended : Bool} (h : turn E s = .ok ended s') :
    s'.extraRoots.length = s.extraRoots.length := by
  obtain ⟨type, -, hd⟩ := (turn_ok E).mp h
  have hlen := keepsPool_dispatch E type s ended s' hd
  omega

theorem keepsPool_poolLoop : ∀ fuel i : ℕ, KeepsPool (poolLoop E fuel i)
  | 0, _ => shifts_throw _
  | fuel + 1, i => by
    rw [poolLoop]
    split_ifs
    · exact keepsPool_pure ()
    · refine KeepsPool.bind (keepsPool_modify ?_) fun _ => ?_
      · exact fun _ => rfl
      · split
        · exact shifts_throw _
        · refine (keepsPool_Bstring E 0 _).bind fun w => KeepsPool.bind (keepsPool_modify ?_) fun _ =>
            aside_get.then fun s => (aside_writeSlot _ w).then fun _ =>
              keepsPool_poolLoop fuel _
          exact fun _ => rfl

/-- A run starts with an empty pool. -/
theorem Starts.pool (h : Starts E s) : s.extraRoots = [] := by
  have hframe : KeepsPool (frameStack E) := by
    refine KeepsPool.bind (keepsPool_poolLoop _ _) fun _ => keepsPool_modify ?_
    exact fun _ => rfl
  have hlen := (hframe.bind fun _ => (aside_pushStackFrame 0 0 0).keepsPool) (emptyState E) () s h
  rw [show (emptyState E).extraRoots = [] from rfl, List.length_nil] at hlen
  exact List.length_eq_zero_iff.mp (by omega)

/-- The pool of extra roots is empty between the instructions of a run. -/
theorem pool_empty {guard : State → Prop} {s₀ : State} (hstart : Starts E s₀)
    (hrun : Run (Step E) guard s₀ s) : s.extraRoots = [] := by
  refine Run.invariant (I := fun s => s.extraRoots = []) (fun s s' hs _ hstep => ?_) hstart.pool hrun
  have hlen := turn_pool hstep
  rw [hs, List.length_nil] at hlen
  exact List.length_eq_zero_iff.mp hlen

end Runs

end LamaSM
