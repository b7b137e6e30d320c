import LamaSM.Interpret
import LamaSM.Reading
import LamaSM.Lib.Hoare

/-! What the elementary operations leave alone.

    `Keeps` relates two states of one activation: registers and bookkeeping are the same, operands
    were touched up to slot `b` only, and every word above `b` is the old one up to the collections
    in between, apart from one slot the instruction may store to. `Track` adds the values of
    `__gc_stack_top` and `code_ptr`; the rules below say how each operation moves them, and that a
    failure happens before anything above `b` is touched. -/

namespace LamaSM
open Lib

/-- A word after the collections of `log`, the last one first. -/
def relocated (log : List (Word → Word)) (w : Word) : Word := log.foldr (fun f v => f v) w

@[simp] theorem relocated_nil (w : Word) : relocated [] w = w := rfl

theorem relocated_append (l₁ l₂ : List (Word → Word)) (w : Word) :
    relocated (l₁ ++ l₂) w = relocated l₁ (relocated l₂ w) := by
  simp [relocated, List.foldr_append]

/-- What collections do to words: one that is no address of the heap stays. -/
def Collections (M : Machine) (log : List (Word → Word)) : Prop :=
  ∀ f ∈ log, ∀ w, M.heapZone w = false → f w = w

theorem Collections.nil (M : Machine) : Collections M [] := fun _ h => (nomatch h)

theorem Collections.append {M : Machine} {l₁ l₂ : List (Word → Word)} (h₁ : Collections M l₁)
    (h₂ : Collections M l₂) : Collections M (l₁ ++ l₂) := fun f hf =>
  (List.mem_append.mp hf).elim (h₁ f) (h₂ f)

theorem Collections.cons {M : Machine} {f : Word → Word} {log : List (Word → Word)}
    (h : Collections M log) (hf : ∀ w, M.heapZone w = false → f w = w) : Collections M (f :: log) :=
  fun _ hg => (List.mem_cons.mp hg).elim (fun he => he ▸ hf) (h _)

theorem Collections.relocated_eq {M : Machine} {log : List (Word → Word)} (h : Collections M log)
    {w : Word} (hw : M.heapZone w = false) : relocated log w = w := by
  induction log with
  | nil => rfl
  | cons f log ih =>
    have hlog : relocated log w = w := ih fun g hg => h g (List.mem_cons_of_mem f hg)
    show f (relocated log w) = w
    rw [hlog, h f List.mem_cons_self w hw]

/-- Everything above slot `b` is kept, except what is stored to slot `store`. -/
structure Keeps (M : Machine) (b : ℤ) (store : Option ℤ) (s s' : State) : Prop where
  fp : s'.fp = s.fp
  argSizes : s'.argSizes = s.argSizes
  stringCounter : s'.stringCounter = s.stringCounter
  activations : s'.activations = s.activations
  touched : s'.touched ≤ max s.touched b
  words : ∃ log, s'.collections = log ++ s.collections ∧ Collections M log ∧
    ∀ i, b < i → i < M.maxStack → store ≠ some i → s'.stack i = relocated log (s.stack i)

theorem Keeps.refl (M : Machine) (b : ℤ) (store : Option ℤ) (s : State) : Keeps M b store s s :=
  ⟨rfl, rfl, rfl, rfl, Int.le_max_left _ _, [], rfl, Collections.nil M, fun _ _ _ _ => rfl⟩

theorem Keeps.trans {M : Machine} {b : ℤ} {store : Option ℤ} {s s' s'' : State}
    (h : Keeps M b store s s') (h' : Keeps M b store s' s'') : Keeps M b store s s'' := by
  obtain ⟨log, hlog, hc, hw⟩ := h.words
  obtain ⟨log', hlog', hc', hw'⟩ := h'.words
  refine ⟨h'.fp.trans h.fp, h'.argSizes.trans h.argSizes, h'.stringCounter.trans h.stringCounter,
    h'.activations.trans h.activations, ?_, log' ++ log, ?_, hc'.append hc, fun i hb hM hs => ?_⟩
  · have := h.touched
    have := h'.touched
    omega
  · rw [hlog', hlog, List.append_assoc]
  · rw [hw' i hb hM hs, hw i hb hM hs, relocated_append]

/-- The state `s` reached from `s₀`, with the top at `t` and `code_ptr` at `pc`. -/
def Track (M : Machine) (b : ℤ) (store : Option ℤ) (s₀ : State) (t pc : ℤ) (s : State) : Prop :=
  Keeps M b store s₀ s ∧ s.top = t ∧ s.codePtr = pc

/-- No operand above slot `b` was touched. -/
def Within (b : ℤ) (s₀ s : State) : Prop := s.touched ≤ max s₀.touched b

theorem Track.within {M : Machine} {b : ℤ} {store : Option ℤ} {s₀ s : State} {t pc : ℤ}
    (h : Track M b store s₀ t pc s) : Within b s₀ s := h.1.touched

/-! ### Operations that move neither the stack nor a register -/

/-- The two states differ at most in the heap, the extra roots, the map of strings and the input and
    output. -/
structure Still (s s' : State) : Prop where
  codePtr : s'.codePtr = s.codePtr
  fp : s'.fp = s.fp
  stringCounter : s'.stringCounter = s.stringCounter
  argSizes : s'.argSizes = s.argSizes
  stack : s'.stack = s.stack
  top : s'.top = s.top
  activations : s'.activations = s.activations
  collections : s'.collections = s.collections
  touched : s'.touched = s.touched

theorem Still.refl (s : State) : Still s s := ⟨rfl, rfl, rfl, rfl, rfl, rfl, rfl, rfl, rfl⟩

theorem Still.trans {s s' s'' : State} (h : Still s s') (h' : Still s' s'') : Still s s'' :=
  ⟨h'.codePtr.trans h.codePtr, h'.fp.trans h.fp, h'.stringCounter.trans h.stringCounter,
    h'.argSizes.trans h.argSizes, h'.stack.trans h.stack, h'.top.trans h.top,
    h'.activations.trans h.activations, h'.collections.trans h.collections,
    h'.touched.trans h.touched⟩

/-- The operation leaves every state still, also when it fails. -/
def Quiet {α : Type} (x : Exec α) : Prop :=
  ∀ s₀, Triple (Still s₀) x (fun _ => Still s₀) (Still s₀)

section Quiet

variable {α β : Type}

theorem quiet_of_still {x : Exec α} (h : ∀ s, Still s (finalState (x s))) : Quiet x := by
  intro s₀ s hs
  have hx := h s
  cases hxs : x s with
  | ok a s' => rw [hxs] at hx; exact hs.trans hx
  | error e s' => rw [hxs] at hx; exact hs.trans hx

theorem quiet_pure (a : α) : Quiet (pure a : Exec α) := fun _ => triple_pure fun _ h => h

theorem quiet_throw (e : Fault) : Quiet (throw e : Exec α) := fun _ => triple_throw fun _ h => h

theorem Quiet.bind {x : Exec α} {f : α → Exec β} (hx : Quiet x) (hf : ∀ a, Quiet (f a)) :
    Quiet (x >>= f) := fun s₀ => (hx s₀).bind fun a => hf a s₀

theorem quiet_readFileByte (r : Result α) : Quiet (readFileByte r) := by
  cases r with
  | ok a => exact quiet_pure a
  | error e => exact quiet_throw e

theorem quiet_getObj (a : Word) : Quiet (getObj a) := quiet_of_still fun s => by
  unfold getObj
  split <;> exact Still.refl s

theorem quiet_setObj (a : Word) (o : Obj) : Quiet (setObj a o) :=
  quiet_of_still fun _ => ⟨rfl, rfl, rfl, rfl, rfl, rfl, rfl, rfl, rfl⟩

theorem quiet_readSlot (M : Machine) (i : ℤ) : Quiet (readSlot M i) := quiet_of_still fun s => by
  unfold readSlot
  split <;> exact Still.refl s

theorem quiet_get_bind {f : State → Exec β} (hf : ∀ s, Quiet (f s)) :
    Quiet ((get : Exec State) >>= f) :=
  Quiet.bind (fun _ _ hs => hs) hf

theorem quiet_Llength (p : Word) : Quiet (Llength p) := (quiet_getObj p).bind fun _ => quiet_pure _

theorem quiet_Belem (p i : Word) : Quiet (Belem p i) := by
  refine (quiet_getObj p).bind fun o => ?_
  split
  · exact quiet_pure _
  · exact quiet_throw _

theorem quiet_LtagHash (p : Word) : Quiet (LtagHash p) := by
  refine (quiet_getObj p).bind fun o => ?_
  split
  · exact quiet_throw _
  · split
    · exact quiet_pure _
    · exact quiet_throw _

theorem quiet_Btag (d t n : Word) : Quiet (Btag d t n) := by
  unfold Btag
  split
  · exact quiet_pure _
  · exact (quiet_getObj d).bind fun o => by cases o <;> exact quiet_pure _

theorem quiet_BarrayPatt (d n : Word) : Quiet (BarrayPatt d n) := by
  unfold BarrayPatt
  split
  · exact quiet_pure _
  · exact (quiet_getObj d).bind fun o => by cases o <;> exact quiet_pure _

theorem quiet_BstringPatt (x y : Word) : Quiet (BstringPatt x y) := by
  unfold BstringPatt
  split
  · exact quiet_pure _
  · refine (quiet_getObj x).bind fun o => ?_
    cases o
    case string contents =>
      refine (quiet_getObj y).bind fun r => ?_
      split
      · exact quiet_pure _
      · exact quiet_throw _
    all_goals exact quiet_pure _

theorem quiet_tagPatt (test : Obj → Bool) (x : Word) : Quiet (tagPatt test x) := by
  unfold tagPatt
  split
  · exact quiet_pure _
  · exact (quiet_getObj x).bind fun _ => quiet_pure _

theorem quiet_pushExtraRoot (p : RootRef) : Quiet (pushExtraRoot p) := quiet_of_still fun s => by
  unfold pushExtraRoot
  split
  · exact Still.refl s
  · exact ⟨rfl, rfl, rfl, rfl, rfl, rfl, rfl, rfl, rfl⟩

theorem quiet_popExtraRoot (p : RootRef) : Quiet (popExtraRoot p) := quiet_of_still fun s => by
  unfold popExtraRoot
  split
  · exact Still.refl s
  · split <;> exact ⟨rfl, rfl, rfl, rfl, rfl, rfl, rfl, rfl, rfl⟩

theorem quiet_pushExtraRoots (ps : List RootRef) : Quiet (pushExtraRoots ps) := by
  induction ps with
  | nil => exact quiet_pure ()
  | cons p ps ih => exact (quiet_pushExtraRoot p).bind fun _ => ih

theorem quiet_popExtraRoots (ps : List RootRef) : Quiet (popExtraRoots ps) := by
  induction ps with
  | nil => exact quiet_pure ()
  | cons p ps ih => exact (quiet_popExtraRoot p).bind fun _ => ih

theorem quiet_Lread {M : Machine} (E : Env M) : Quiet (Lread E) :=
  quiet_of_still fun _ => ⟨rfl, rfl, rfl, rfl, rfl, rfl, rfl, rfl, rfl⟩

theorem quiet_Lwrite (n : Word) : Quiet (Lwrite n) :=
  quiet_of_still fun _ => ⟨rfl, rfl, rfl, rfl, rfl, rfl, rfl, rfl, rfl⟩

theorem quiet_getStringPtr (M : Machine) (index : ℕ) : Quiet (getStringPtr M index) := by
  refine quiet_get_bind fun s => ?_
  split
  · exact quiet_readSlot M _
  · exact Quiet.bind (quiet_of_still fun _ => ⟨rfl, rfl, rfl, rfl, rfl, rfl, rfl, rfl, rfl⟩)
      fun _ => quiet_readSlot M _

theorem quiet_getGlobal (M : Machine) (index : ℕ) : Quiet (getGlobal M index) :=
  quiet_get_bind fun _ => quiet_readSlot M _

theorem quiet_getLocal (M : Machine) (index : ℕ) : Quiet (getLocal M index) :=
  quiet_get_bind fun _ => quiet_readSlot M _

theorem quiet_getArg (M : Machine) (index : ℕ) : Quiet (getArg M index) :=
  quiet_get_bind fun _ => quiet_readSlot M _

theorem quiet_closurePtr (M : Machine) : Quiet (closurePtr M) := quiet_get_bind fun s => by
  cases s.argSizes with
  | nil => exact quiet_throw _
  | cons n ns => exact quiet_readSlot M _

theorem quiet_getClosure (M : Machine) (index : ℕ) : Quiet (getClosure M index) :=
  (quiet_closurePtr M).bind fun _ => quiet_Belem _ _

theorem quiet_loadWord (M : Machine) (ptr : Word) : Quiet (loadWord M ptr) :=
  quiet_of_still fun s => by
    have hobj : Still s (finalState (loadWord.loadObj ptr s)) := by
      unfold loadWord.loadObj
      split <;> exact Still.refl s
    unfold loadWord
    split
    · split
      · exact Still.refl s
      · exact hobj
    · exact hobj

end Quiet

/-! ### Rules for the operations that move the stack -/

section Track

variable {α β : Type} {M : Machine} {b : ℤ} {store : Option ℤ} {s₀ : State} {t pc : ℤ}

/-- The program leads from top `t` and offset `pc` to `t'` and `pc'`, and what it returns has the
    property `A`. -/
def Tracks (M : Machine) (b : ℤ) (store : Option ℤ) (s₀ : State) (t pc : ℤ) (x : Exec α)
    (t' pc' : ℤ) (A : α → Prop) : Prop :=
  Triple (Track M b store s₀ t pc) x (fun a s => A a ∧ Track M b store s₀ t' pc' s) (Within b s₀)

theorem Tracks.bind {t' t'' pc' pc'' : ℤ} {x : Exec α} {f : α → Exec β} {A : α → Prop}
    {B : β → Prop} (hx : Tracks M b store s₀ t pc x t' pc' A)
    (hf : ∀ a, A a → Tracks M b store s₀ t' pc' (f a) t'' pc'' B) :
    Tracks M b store s₀ t pc (x >>= f) t'' pc'' B :=
  Triple.bind hx fun a => triple_of_fact (hf a)

theorem tracks_pure {a : α} {A : α → Prop} (h : A a) :
    Tracks M b store s₀ t pc (pure a) t pc A := triple_pure fun _ hs => ⟨h, hs⟩

theorem tracks_throw {e : Fault} {u q : ℤ} {A : α → Prop} :
    Tracks M b store s₀ t pc (throw e : Exec α) u q A := triple_throw fun _ hs => hs.within

theorem Tracks.weaken {t' pc' : ℤ} {x : Exec α} {A B : α → Prop}
    (hx : Tracks M b store s₀ t pc x t' pc' A) (h : ∀ a, A a → B a) :
    Tracks M b store s₀ t pc x t' pc' B := Triple.post hx fun a _ hs => ⟨h a hs.1, hs.2⟩

theorem Tracks.congr {t' t'' pc' pc'' : ℤ} {x : Exec α} {A : α → Prop}
    (hx : Tracks M b store s₀ t pc x t' pc' A) (ht : t' = t'') (hpc : pc' = pc'') :
    Tracks M b store s₀ t pc x t'' pc'' A := ht ▸ hpc ▸ hx

theorem tracks_get_bind {t' pc' : ℤ} {f : State → Exec β} {B : β → Prop}
    (hf : ∀ s, s.top = t → s.codePtr = pc → s.fp = s₀.fp → s.stringCounter = s₀.stringCounter →
      Tracks M b store s₀ t pc (f s) t' pc' B) :
    Tracks M b store s₀ t pc ((get : Exec State) >>= f) t' pc' B :=
  fun s hs => hf s hs.2.1 hs.2.2 hs.1.fp hs.1.stringCounter s hs

/-- A quiet operation whose failures and results need not be told apart. -/
theorem Quiet.tracks {x : Exec α} (hx : Quiet x) :
    Tracks M b store s₀ t pc x t pc (fun _ => True) := by
  intro s hs
  have h := hx s s (Still.refl s)
  cases hxs : x s with
  | ok a s' =>
    rw [hxs] at h
    refine ⟨trivial, hs.1.trans ⟨h.fp, h.argSizes, h.stringCounter, h.activations, ?_, [], ?_, Collections.nil M, ?_⟩,
      h.top.trans hs.2.1, h.codePtr.trans hs.2.2⟩
    · rw [h.touched]
      exact Int.le_max_left _ _
    · rw [h.collections, List.nil_append]
    · intro i _ _ _
      rw [h.stack, relocated_nil]
  | error e s' =>
    rw [hxs] at h
    exact (show s'.touched ≤ _ by rw [h.touched]; exact hs.within)

theorem readFileByte_tracks {r : Result α} :
    Tracks M b store s₀ t pc (readFileByte r) t pc (fun a => r = .ok a) := by
  cases r with
  | ok a => exact tracks_pure rfl
  | error e => exact tracks_throw

theorem operand_tracks (k : ℕ) : Tracks M b store s₀ t pc (operand M k) t pc
    (fun a => M.bf.code32 (pc + 1 + 4 * k) = .ok a) :=
  tracks_get_bind fun _ _ hpc _ _ => by rw [hpc]; exact readFileByte_tracks

theorem advance_tracks (n : ℕ) :
    Tracks M b store s₀ t pc (advance n) t (pc + n) (fun _ => True) := fun s hs =>
  ⟨trivial, ⟨hs.1.fp, hs.1.argSizes, hs.1.stringCounter, hs.1.activations, hs.1.touched, hs.1.words⟩,
    hs.2.1, by rw [← hs.2.2]⟩

theorem jumpTo_tracks (o : ℤ) :
    Tracks M b store s₀ t pc (jumpTo o) t o (fun _ => True) := fun _ hs =>
  ⟨trivial, ⟨hs.1.fp, hs.1.argSizes, hs.1.stringCounter, hs.1.activations, hs.1.touched, hs.1.words⟩,
    hs.2.1, rfl⟩

theorem touch_tracks {i : ℤ} (hi : i ≤ b) :
    Tracks M b store s₀ t pc (touch i) t pc (fun _ => True) := fun s hs => by
  refine ⟨trivial, ⟨hs.1.fp, hs.1.argSizes, hs.1.stringCounter, hs.1.activations, ?_, hs.1.words⟩,
    hs.2.1, hs.2.2⟩
  have := hs.1.touched
  show max s.touched i ≤ _
  omega

theorem readOperand_tracks {i : ℤ} (hi : i ≤ b) :
    Tracks M b store s₀ t pc (readOperand M i) t pc (fun _ => True) :=
  (touch_tracks hi).bind fun _ _ => (quiet_readSlot M i).tracks

theorem peekOp_tracks (h : t + 1 ≤ b) :
    Tracks M b store s₀ t pc (peekOp M) t pc (fun _ => True) :=
  tracks_get_bind fun _ ht _ _ _ => by rw [ht]; exact readOperand_tracks h

theorem popOps_tracks {n : ℕ} (h : t + n ≤ b) :
    Tracks M b store s₀ t pc (popOps n) (t + n) pc (fun _ => True) := fun s hs => by
  refine ⟨trivial, ⟨hs.1.fp, hs.1.argSizes, hs.1.stringCounter, hs.1.activations, ?_, hs.1.words⟩,
    by rw [← hs.2.1], hs.2.2⟩
  have := hs.1.touched
  have := hs.2.1
  show max s.touched (s.top + n) ≤ _
  omega

theorem popOp_tracks (h : t + 1 ≤ b) :
    Tracks M b store s₀ t pc popOp (t + 1) pc (fun _ => True) := popOps_tracks h

theorem writeSlot_tracks {i : ℤ} {w : Word} (hi : i ≤ b ∨ store = some i) :
    Tracks M b store s₀ t pc (writeSlot M i w) t pc (fun _ => True) := fun s hs => by
  unfold writeSlot
  by_cases hr : 0 ≤ i ∧ i < M.maxStack
  · rw [if_pos hr]
    obtain ⟨log, hlog, hc, hw⟩ := hs.1.words
    refine ⟨trivial, ⟨hs.1.fp, hs.1.argSizes, hs.1.stringCounter, hs.1.activations, hs.1.touched,
      log, hlog, hc, fun j hb hM hst => ?_⟩, hs.2.1, hs.2.2⟩
    have hne : j ≠ i := by
      rintro rfl
      rcases hi with hi | hi
      · omega
      · exact hst hi
    simpa only [Function.update_of_ne hne] using hw j hb hM hst
  · rw [if_neg hr]
    exact hs.within

theorem pushOp_tracks {w : Word} (h : t ≤ b) :
    Tracks M b store s₀ t pc (pushOp M w) (t - 1) pc (fun _ => True) :=
  tracks_get_bind fun _ ht _ _ _ => by
    rw [ht]
    refine (writeSlot_tracks (.inl h)).bind fun _ _ => ?_
    intro s hs
    exact ⟨trivial, ⟨hs.1.fp, hs.1.argSizes, hs.1.stringCounter, hs.1.activations, hs.1.touched,
      hs.1.words⟩, by rw [← hs.2.1], hs.2.2⟩

theorem reverseSlots_tracks {a : ℤ} {n : ℕ} (h : a + n - 1 ≤ b) :
    Tracks M b store s₀ t pc (reverseSlots M a n) t pc (fun _ => True) := fun s hs => by
  unfold reverseSlots
  split_ifs
  · exact ⟨trivial, hs⟩
  · exact hs.within
  · exact hs.within
  · obtain ⟨log, hlog, hc, hw⟩ := hs.1.words
    refine ⟨trivial, ⟨hs.1.fp, hs.1.argSizes, hs.1.stringCounter, hs.1.activations, hs.1.touched,
      log, hlog, hc, fun j hb hM hst => ?_⟩, hs.2.1, hs.2.2⟩
    dsimp only
    rw [if_neg (by omega)]
    exact hw j hb hM hst

/-- A collection rewrites only words above the top, and all of these in the same way. -/
theorem collectGarbage_tracks (E : Env M) (h : t ≤ b) :
    Tracks M b store s₀ t pc (collectGarbage E) t pc (fun _ => True) := fun s hs => by
  unfold collectGarbage
  by_cases hfault : s.allocs = 0 ∧ 0 ∈ rootWords M s
  · rw [if_pos hfault]
    exact hs.within
  rw [if_neg hfault]
  cases E.collect s.allocs s.heap (rootWords M s) with
  | none => exact ⟨trivial, hs⟩
  | some c =>
    dsimp only
    by_cases hneg : s.top + 1 < 0
    · rw [if_pos hneg]
      exact hs.within
    · rw [if_neg hneg]
      obtain ⟨log, hlog, hc, hw⟩ := hs.1.words
      refine ⟨trivial, ⟨hs.1.fp, hs.1.argSizes, hs.1.stringCounter, hs.1.activations, hs.1.touched,
        relocateWord M.heapZone s.heap c.2 :: log, by rw [hlog, List.cons_append], hc.cons ?_,
        fun j hb hM hst => ?_⟩, hs.2.1, hs.2.2⟩
      · intro w hz
        simp [relocateWord, hz]
      · have htop := hs.2.1
        dsimp only
        rw [if_pos ⟨by omega, hM⟩, hw j hb hM hst]
        rfl

theorem alloc_tracks (E : Env M) (h : t ≤ b) :
    Tracks M b store s₀ t pc (alloc E) t pc (fun _ => True) := by
  refine (collectGarbage_tracks E h).bind fun _ _ => fun s hs => ?_
  cases E.place s.allocs s.heap with
  | none => exact hs.within
  | some a => exact ⟨trivial, ⟨hs.1.fp, hs.1.argSizes, hs.1.stringCounter, hs.1.activations,
      hs.1.touched, hs.1.words⟩, hs.2.1, hs.2.2⟩

theorem readArgs_tracks {is : List ℤ} (h : ∀ i ∈ is, i ≤ b) :
    Tracks M b store s₀ t pc (readArgs M is) t pc (fun _ => True) := by
  induction is with
  | nil => exact tracks_pure trivial
  | cons i is ih =>
    exact (readOperand_tracks (h i List.mem_cons_self)).bind fun _ _ =>
      (ih fun j hj => h j (List.mem_cons_of_mem i hj)).bind fun _ _ => tracks_pure trivial

theorem argSlots_le {args : ℤ} {i n : ℕ} (h : args + i + n ≤ b + 1) :
    ∀ j ∈ argSlots args i n, j ≤ b := by
  intro j hj
  obtain ⟨k, hk, rfl⟩ := List.mem_map.mp hj
  have := List.mem_range.mp hk
  omega

/-- Roots are registered only while the pool has room for them. -/
theorem pushExtraRoots_length : ∀ (ps : List RootRef) {s s' : State},
    pushExtraRoots ps s = .ok () s' → s'.extraRoots.length = s.extraRoots.length + ps.length ∧
      (ps = [] ∨ s'.extraRoots.length ≤ maxExtraRootsNumber)
  | [], s, s', h => by cases h; exact ⟨rfl, .inl rfl⟩
  | p :: ps, s, s', h => by
    obtain ⟨⟨⟩, s₁, hp, h⟩ := exec_bind_ok.mp h
    obtain ⟨hlen, hle⟩ := pushExtraRoots_length ps h
    unfold pushExtraRoot at hp
    split at hp
    · cases hp
    · rename_i hroom
      cases hp
      dsimp only at hlen
      rw [List.length_cons] at hlen
      refine ⟨by rw [hlen, List.length_cons]; omega, .inr ?_⟩
      rcases hle with rfl | hle
      · rw [hlen, List.length_nil]; omega
      · exact hle

theorem pushExtraRoots_tracks (ps : List RootRef) : Tracks M b store s₀ t pc (pushExtraRoots ps) t pc
    (fun _ => ps.length ≤ maxExtraRootsNumber) := by
  intro s hs
  have hq := (quiet_pushExtraRoots ps).tracks s hs
  cases hps : pushExtraRoots ps s with
  | ok _ s' =>
    rw [hps] at hq
    obtain ⟨hlen, rfl | hle⟩ := pushExtraRoots_length ps hps
    · exact ⟨Nat.zero_le _, hq.2⟩
    · exact ⟨by omega, hq.2⟩
  | error e s' => rwa [hps] at hq

/-! ### Rules for the runtime's constructors -/

variable (E : Env M)

theorem Bstring_tracks (id : ℕ) (bytes : List UInt8) (h : t ≤ b) :
    Tracks M b store s₀ t pc (Bstring E id bytes) t pc (fun _ => True) :=
  (quiet_pushExtraRoot _).tracks.bind fun _ _ => (alloc_tracks E h).bind fun _ _ =>
    (quiet_popExtraRoot _).tracks.bind fun _ _ => (quiet_setObj _ _).tracks.bind fun _ _ =>
    tracks_pure trivial

theorem Lstring_tracks (ref : RootRef) (arg : Word) (h : t ≤ b) :
    Tracks M b store s₀ t pc (Lstring E ref arg) t pc (fun _ => True) := by
  refine tracks_get_bind fun s _ _ _ _ => ?_
  cases E.printValue s.heap s.slack arg with
  | error e => exact tracks_throw
  | ok content =>
    exact (quiet_pushExtraRoot _).tracks.bind fun _ _ => (Bstring_tracks E 1 content h).bind fun _ _ =>
      (quiet_popExtraRoot _).tracks.bind fun _ _ => tracks_pure trivial

theorem Barray_tracks {args : ℤ} {n : ℕ} (h : t ≤ b) (hargs : args + n ≤ b + 1) :
    Tracks M b store s₀ t pc (Barray E args n) t pc (fun _ => True) :=
  (quiet_pushExtraRoots _).tracks.bind fun _ _ => (alloc_tracks E h).bind fun _ _ =>
    (readArgs_tracks (argSlots_le (by omega))).bind fun _ _ =>
    (quiet_popExtraRoots _).tracks.bind fun _ _ => (quiet_setObj _ _).tracks.bind fun _ _ =>
    tracks_pure trivial

theorem Bclosure_tracks {args : ℤ} {n : ℕ} (h : t ≤ b) (hargs : args + 1 + n ≤ b + 1) :
    Tracks M b store s₀ t pc (Bclosure E args n) t pc (fun _ => n ≤ maxExtraRootsNumber) := by
  refine (pushExtraRoots_tracks _).bind fun _ hn => (alloc_tracks E h).bind fun _ _ =>
    (readOperand_tracks (by omega)).bind fun _ _ =>
    (readArgs_tracks (argSlots_le (by omega))).bind fun _ _ =>
    (quiet_popExtraRoots _).tracks.bind fun _ _ => (quiet_setObj _ _).tracks.bind fun _ _ =>
    tracks_pure ?_
  simpa [argSlots] using hn

theorem Bsexp_tracks {args : ℤ} {n : ℕ} (h : t ≤ b) (hargs : args + n ≤ b + 1) :
    Tracks M b store s₀ t pc (Bsexp E args n) t pc (fun _ => 0 < n) := by
  refine (quiet_pushExtraRoots _).tracks.bind fun _ _ => (alloc_tracks E h).bind fun _ _ => ?_
  split
  · exact tracks_throw
  · exact (readArgs_tracks (argSlots_le (by omega))).bind fun _ _ =>
      (readOperand_tracks (by omega)).bind fun _ _ =>
      (quiet_popExtraRoots _).tracks.bind fun _ _ => (quiet_setObj _ _).tracks.bind fun _ _ =>
      tracks_pure (by omega)

end Track

end LamaSM
