import LamaSM.Accesses
import LamaSM.Patches

/-! Reading and verifying a file without an access outside.

    The two passes of `verify` are followed turn by turn. What a turn needs is a condition on its own
    state: `VisitInside` on the instruction `collect_marks` handles, `SweepInside` on the one the second
    pass comes to. A file is loaded without an access outside exactly when its header and its public
    symbols can be read and every turn meets its condition (`load_defined_iff`). -/

namespace LamaSM
open Lib

/-! ### A turn of `collect_marks` -/

/-- The offsets lie inside `visited`, up to the first one that is marked with another depth. -/
def TargetsInside (m : Marks) : List (ℕ × ℤ) → Prop
  | [] => True
  | a :: as => a.1 < m.visited.length ∧ ((∀ v, Marked m (a.1, v) → v = a.2) → TargetsInside m as)

/-- The instruction has the offset it jumps to behind its opcode. -/
def HasLabel (type : InstructionType) : Prop :=
  type = .jmp ∨ type = .cjmpz ∨ type = .cjmpnz ∨ type = .call

/-- What `collect_marks` reads of the instruction it handles lies in the file. When the instruction
    passes the tests, the offset it jumps to and the next one lie inside the code. -/
structure VisitInside (bf : Bytefile) (m : Marks) (a : ℕ × ℤ) : Prop where
  opcode : Mapped bf a.1 1
  count : ∀ type, bf.typeAt a.1 = .ok type → CountInside bf a.1 type
  label : ∀ type, bf.typeAt a.1 = .ok type → HasLabel type → Passes bf a → Mapped bf (a.1 + 1) 4
  targets : Passes bf a → ∀ l, successors bf a.1 a.2 = .ok l → TargetsInside m l

section Visit

variable {bf : Bytefile} {m : Marks} {o nxt x y : ℕ} {c d : ℤ} {type : InstructionType}

theorem defined_performStep : Defined (performStep x y m) ↔ x < m.visited.length := by
  unfold performStep
  cases hv : m.visited[x]? with
  | none =>
    have hout := List.getElem?_eq_none_iff.mp hv
    exact ⟨fun h => absurd h (not_defined_throw _), fun h => absurd h (Nat.not_lt.mpr hout)⟩
  | some v =>
    obtain ⟨hlt, -⟩ := List.getElem?_eq_some_iff.mp hv
    refine ⟨fun _ => hlt, fun _ => ?_⟩
    dsimp only
    split
    · exact defined_pure _
    · exact (defined_ite_throw fun a h => by cases h).mpr fun _ => defined_pure _

theorem defined_fallThrough : Defined (fallThrough x d m) ↔ x < m.visited.length := by
  unfold fallThrough
  cases hv : m.visited[x]? with
  | none =>
    have hout := List.getElem?_eq_none_iff.mp hv
    exact ⟨fun h => absurd h (not_defined_throw _), fun h => absurd h (Nat.not_lt.mpr hout)⟩
  | some v =>
    obtain ⟨hlt, -⟩ := List.getElem?_eq_some_iff.mp hv
    refine ⟨fun _ => hlt, fun _ => ?_⟩
    dsimp only
    split
    · exact defined_pure _
    · exact (defined_ite_throw fun a h => by cases h).mpr fun _ => defined_pure _

/-- Marking an offset inside succeeds exactly when it is not marked with another depth. -/
theorem performStep_ok_iff (hb : Bounded m) (h0 : 0 ≤ d) (h1 : d < 2 ^ 31) (hlt : x < m.visited.length) :
    (∃ m', performStep x (toU32 d) m = .ok m') ↔ ∀ v, Marked m (x, v) → v = d := by
  constructor
  · rintro ⟨m', h⟩ v hv
    have hm := performStep_ok hb h0 h1 h
    have hnew := (hm.marks (x, d) List.mem_cons_self).1
    rw [(hm.keeps _ hv).1] at hnew
    exact Option.some.inj hnew
  · intro hsame
    cases h : performStep x (toU32 d) m with
    | ok m' => exact ⟨m', rfl⟩
    | error e =>
      rcases (performStep_error h).2 with hout | ⟨v, hv, hne⟩
      · exact absurd hlt (Nat.not_lt.mpr hout)
      · exact absurd (hsame v hv) hne

/-- Two successors are marked one after the other. -/
theorem defined_performSteps (hb : Bounded m) (h0 : 0 ≤ c) (h1 : c < 2 ^ 31) :
    Defined (do let m ← performStep x (toU32 c) m
                let m ← performStep y (toU32 d) m
                return (m, (none : Option (ℕ × ℤ)))) ↔ TargetsInside m [(x, c), (y, d)] := by
  have hlast : ∀ m' : Marks, Defined (do
      let m ← performStep y (toU32 d) m'
      return (m, (none : Option (ℕ × ℤ)))) ↔ y < m'.visited.length := by
    intro m'
    rw [defined_bind, defined_performStep]
    exact ⟨fun h => h.1, fun h => ⟨h, fun _ _ => defined_pure _⟩⟩
  rw [defined_bind, defined_performStep]
  refine and_congr_right fun hlt => ⟨fun h hsame => ?_, fun h m' hm' => (hlast m').mpr ?_⟩
  · obtain ⟨m', hm'⟩ := (performStep_ok_iff hb h0 h1 hlt).mpr hsame
    have hy := (hlast m').mp (h m' hm')
    rw [(performStep_ok hb h0 h1 hm').length] at hy
    exact ⟨hy, fun _ => trivial⟩
  · rw [(performStep_ok hb h0 h1 hm').length]
    exact (h ((performStep_ok_iff hb h0 h1 hlt).mp ⟨m', hm'⟩)).1

/-- The successors are marked without an access outside when the offset to jump to can be read and
    they lie inside. -/
theorem defined_markSuccessors (hb : Bounded m) (h0 : 0 ≤ d) (h1 : d < 2 ^ 31) (hr : type ≠ .ret) :
    Defined (markSuccessors bf o nxt type d m) ↔ (HasLabel type → Mapped bf (o + 1) 4) ∧
      ∀ l, successorsOf bf o nxt type d = .ok l → TargetsInside m l := by
  -- an instruction with a label reads it and marks the list it gives
  have labelled : ∀ {f : ℕ → Result (Marks × Option (ℕ × ℤ))} {g : ℕ → List (ℕ × ℤ)}, HasLabel type →
      (∀ w, Defined (f w) ↔ TargetsInside m (g w)) →
      (Defined (bf.code32 (o + 1) >>= f) ↔ (HasLabel type → Mapped bf (o + 1) 4) ∧
        ∀ l, (do let w ← bf.code32 (o + 1); return g w : Result _) = .ok l → TargetsInside m l) := by
    intro f g hlabel hfg
    rw [defined_bind, defined_code32]
    constructor
    · rintro ⟨hmapped, hrest⟩
      refine ⟨fun _ => hmapped, fun l hl => ?_⟩
      obtain ⟨w, hw, hl⟩ := except_bind_ok.mp hl
      rw [← except_pure_ok.mp hl]
      exact (hfg w).mp (hrest w hw)
    · rintro ⟨hmapped, hrest⟩
      refine ⟨hmapped hlabel, fun w hw => (hfg w).mpr (hrest _ ?_)⟩
      rw [hw]
      rfl
  -- one without a label marks the list at hand
  have unlabelled : ∀ {x : Result (Marks × Option (ℕ × ℤ))} {l : List (ℕ × ℤ)}, ¬ HasLabel type →
      (Defined x ↔ TargetsInside m l) →
      (Defined x ↔ (HasLabel type → Mapped bf (o + 1) 4) ∧
        ∀ l', (.ok l : Result _) = .ok l' → TargetsInside m l') := by
    intro x l hno hx
    rw [hx]
    exact ⟨fun h => ⟨fun hl => absurd hl hno, fun l' hl' => Except.ok.inj hl' ▸ h⟩, fun h => h.2 l rfl⟩
  have hjump : ∀ w, Defined (do
      let m ← performStep w (toU32 d) m
      return (m, (none : Option (ℕ × ℤ)))) ↔ TargetsInside m [(w, d)] := by
    intro w
    rw [defined_bind, defined_performStep]
    exact ⟨fun h => ⟨h.1, fun _ => trivial⟩, fun h => ⟨h.1, fun _ _ => defined_pure _⟩⟩
  cases type
  case cjmpz => exact labelled (.inr (.inl rfl)) fun _ => defined_performSteps hb h0 h1
  case cjmpnz => exact labelled (.inr (.inr (.inl rfl))) fun _ => defined_performSteps hb h0 h1
  case call =>
    refine labelled (.inr (.inr (.inr rfl))) fun w => ?_
    have hzero : toU32 0 = 0 := rfl
    have hsteps := defined_performSteps (x := w) (y := nxt) (c := 0) (d := d) hb (Int.le_refl 0) (by decide)
    rwa [hzero] at hsteps
  case jmp => exact labelled (.inl rfl) hjump
  case «end» | fail =>
    exact unlabelled (by simp [HasLabel]) ⟨fun _ => trivial, fun _ => defined_pure _⟩
  case ret => exact absurd rfl hr
  all_goals
    refine unlabelled (by simp [HasLabel]) (defined_fallThrough.trans ?_)
    exact ⟨fun h => ⟨h, fun _ => trivial⟩, fun h => h.1⟩

/-- What is decoded when the bytes lie inside and the type is known. -/
theorem generalByterun_total (hd : Defined (generalByterun bf o)) (htype : bf.typeAt o = .ok type)
    (hknown : type.isOther = false) : ∃ nxt, generalByterun bf o = .ok (nxt, type) := by
  have hcount := (defined_generalByterun.mp hd).2
  rw [generalByterun, htype, except_ok_bind]
  cases type
  case closure =>
    obtain ⟨w, hw⟩ := (hcount htype).code32
    dsimp only
    rw [hw]
    exact ⟨_, rfl⟩
  case other => cases hknown
  all_goals exact ⟨_, rfl⟩

/-- A turn of `collect_marks` makes no access outside exactly when its instruction lies inside. -/
theorem defined_visitInstruction (hb : Bounded m) :
    Defined (visitInstruction bf o d m) ↔ VisitInside bf m (o, d) := by
  have hdecoded : ∀ {nxt type}, generalByterun bf o = .ok (nxt, type) → bf.typeAt o = .ok type :=
    fun h => (generalByterun_typeAt h).1
  have hne : ∀ {type n}, getNewStack bf (toU32 d) o type = .ok n → type ≠ .ret := by
    rintro type n hn rfl
    cases hn
  -- what is left of the turn when the instruction has been decoded
  have htail : ∀ {nxt type}, Mapped bf o 1 → (Defined (do
      checkArgNumber bf o d type
      let newStack ← getNewStack bf (toU32 d) o type
      let curStack := toI32 newStack
      if curStack < 0 then throw (.runtimeError s!"Stack is exhausted at {o}")
      else markSuccessors bf o nxt type curStack m) ↔ (type ≠ .closure → CountInside bf o type) ∧
        ∀ n, checkArgNumber bf o d type = .ok () → getNewStack bf (toU32 d) o type = .ok n →
          0 ≤ toI32 n → Defined (markSuccessors bf o nxt type (toI32 n) m)) := by
    intro nxt type hopcode
    rw [defined_bind, ← defined_depth (d := d) hopcode]
    constructor
    · rintro ⟨hcheck, hrest⟩
      refine ⟨⟨hcheck, fun u hu => (defined_bind.mp (hrest u hu)).1⟩, fun n hc hn h0 => ?_⟩
      have hmark := (defined_bind.mp (hrest () hc)).2 n hn
      exact (defined_ite_throw fun a h => by cases h).mp hmark (Int.not_lt.mpr h0)
    · rintro ⟨⟨hcheck, hstack⟩, hrest⟩
      refine ⟨hcheck, fun u hu => defined_bind.mpr ⟨hstack u hu, fun n hn => ?_⟩⟩
      exact (defined_ite_throw fun a h => by cases h).mpr fun h0 => hrest n hu hn (Int.not_lt.mp h0)
  rw [visitInstruction, defined_bind]
  constructor
  · rintro ⟨hgen, hrest⟩
    obtain ⟨hopcode, hclosure⟩ := defined_generalByterun.mp hgen
    have hmarks : ∀ {nxt type n}, generalByterun bf o = .ok (nxt, type) →
        checkArgNumber bf o d type = .ok () → getNewStack bf (toU32 d) o type = .ok n →
        0 ≤ toI32 n → (HasLabel type → Mapped bf (o + 1) 4) ∧
          ∀ l, successorsOf bf o nxt type (toI32 n) = .ok l → TargetsInside m l :=
      fun hg hc hn h0 => (defined_markSuccessors hb h0 (toI32_lt _) (hne hn)).mp
        (((htail hopcode).mp (hrest _ hg)).2 _ hc hn h0)
    refine ⟨hopcode, fun type htype => ?_, ?_, ?_⟩
    · by_cases hc : type = .closure
      · subst hc
        rw [countInside_iff (k := 5) rfl]
        exact (hclosure htype).part (by omega) (by omega)
      · cases hknown : type.isOther with
        | true =>
          cases type
          case other => exact fun k hk => by cases hk
          all_goals cases hknown
        | false =>
          obtain ⟨nxt, hg⟩ := generalByterun_total hgen htype hknown
          exact ((htail hopcode).mp (hrest _ hg)).1 hc
    · rintro type htype hlabel ⟨nxt, type', n, hg, hc, hn, h0⟩
      obtain rfl : type = type' := Except.ok.inj (htype.symm.trans (hdecoded hg))
      exact (hmarks hg hc hn h0).1 hlabel
    · rintro ⟨nxt, type, n, hg, hc, hn, h0⟩ l hl
      refine (hmarks hg hc hn h0).2 l ?_
      rw [← hl, successors, hg, except_ok_bind]
      dsimp only
      rw [hn, except_ok_bind]
  · rintro ⟨hopcode, hcount, hlabel, htargets⟩
    have hgen : Defined (generalByterun bf o) := defined_generalByterun.mpr ⟨hopcode, fun hclosure =>
      Mapped.part ((countInside_iff (k := 5) rfl).mp (hcount _ hclosure)) (by omega) (by omega)⟩
    refine ⟨hgen, ?_⟩
    rintro ⟨nxt, type⟩ hg
    refine (htail hopcode).mpr ⟨fun _ => hcount type (hdecoded hg), fun n hc hn h0 => ?_⟩
    have hpass : Passes bf (o, d) := ⟨nxt, type, n, hg, hc, hn, h0⟩
    refine (defined_markSuccessors hb h0 (toI32_lt _) (hne hn)).mpr
      ⟨fun hl => hlabel type (hdecoded hg) hl hpass, fun l hl => htargets hpass l ?_⟩
    rw [← hl, successors, hg, except_ok_bind]
    dsimp only
    rw [hn, except_ok_bind]

end Visit

/-! ### The turns of `collect_marks` -/

/-- A turn of the loops of `collect_marks`, at an instruction or at the queue. -/
inductive MarksTurn (bf : Bytefile) : Marks × Option (ℕ × ℤ) → Marks × Option (ℕ × ℤ) → Prop
  | visit {o : ℕ} {d : ℤ} {m m' : Marks} {cur : Option (ℕ × ℤ)} :
      visitInstruction bf o d m = .ok (m', cur) → MarksTurn bf (m, some (o, d)) (m', cur)
  | take {o : ℕ} {d : ℤ} {m : Marks} {rest : List ℕ} : m.labels = o :: rest → m.visited[o]? = some d →
      MarksTurn bf (m, none) ({ m with labels := rest }, some (o, d))

/-- `collect_marks` comes to handle this instruction, with these marks. -/
def Handles (bf : Bytefile) (m : Marks) (a : ℕ × ℤ) : Prop :=
  ∃ m₀, seedMarks bf (List.range bf.publicSymbolsNumber.toNat) (noMarks bf) = .ok m₀ ∧
    Run (MarksTurn bf) (fun _ => True) (m₀, none) (m, some a)

section Turns

variable {bf : Bytefile} {m m₀ : Marks} {cur : Option (ℕ × ℤ)} {fuel : ℕ}

theorem MarksTurn.inv {p q : Marks × Option (ℕ × ℤ)} (ht : MarksTurn bf p q) (h : MarksInv bf p.1 p.2) :
    MarksInv bf q.1 q.2 ∧ turns q.1 q.2 < turns p.1 p.2 := by
  cases ht with
  | visit hvisit => exact h.visit hvisit
  | take hlabels hd => exact h.pop (by rw [hlabels]) hd

/-- The loop has turns left for what it comes to. -/
theorem marksLoop_run (hinv : MarksInv bf m₀ none) (hfuel : turns m₀ none < fuel)
    (hrun : Run (MarksTurn bf) (fun _ => True) (m₀, none) (m, cur)) :
    MarksInv bf m cur ∧ ∃ fuel', turns m cur < fuel' ∧
      marksLoop id bf fuel m₀ none = marksLoop id bf fuel' m cur := by
  refine Run.invariant (I := fun p => MarksInv bf p.1 p.2 ∧ ∃ fuel', turns p.1 p.2 < fuel' ∧
    marksLoop id bf fuel m₀ none = marksLoop id bf fuel' p.1 p.2) ?_ ⟨hinv, fuel, hfuel, rfl⟩ hrun
  rintro p q ⟨hp, fuel', hlt, heq⟩ - ht
  obtain ⟨hq, hless⟩ := ht.inv hp
  refine ⟨hq, fuel' - 1, by omega, ?_⟩
  obtain ⟨fuel', rfl⟩ : ∃ k, fuel' = k + 1 := ⟨fuel' - 1, by omega⟩
  rw [heq, Nat.add_sub_cancel]
  cases ht with
  | visit hvisit => rw [marksLoop, hvisit, except_ok_bind]
  | take hlabels hd =>
    rw [marksLoop]
    dsimp only [id]
    rw [hlabels]
    dsimp only
    rw [hd]

/-- The loop makes no access outside when every instruction it comes to handle lies inside. -/
theorem defined_marksLoop (hinv : MarksInv bf m cur)
    (hinside : ∀ m' a, Run (MarksTurn bf) (fun _ => True) (m, cur) (m', some a) → VisitInside bf m' a) :
    Defined (marksLoop id bf fuel m cur) := by
  induction fuel generalizing m cur with
  | zero => exact defined_throw fun a h => by cases h
  | succ fuel ih =>
    have hnext : ∀ {q : Marks × Option (ℕ × ℤ)}, MarksTurn bf (m, cur) q →
        Defined (marksLoop id bf fuel q.1 q.2) := fun {q} ht => ih (ht.inv hinv).1 fun m' a hrun =>
      hinside m' a ((Run.single trivial ht).trans hrun)
    cases cur with
    | some a =>
      obtain ⟨o, d⟩ := a
      rw [marksLoop, defined_bind]
      refine ⟨(defined_visitInstruction hinv.bounded).mpr (hinside m (o, d) (Run.refl _)), ?_⟩
      rintro ⟨m', cur⟩ hvisit
      exact hnext (.visit hvisit)
    | none =>
      rw [marksLoop]
      dsimp only [id]
      cases hlabels : m.labels with
      | nil => exact defined_pure _
      | cons o rest =>
        obtain ⟨d, hd, -⟩ := hinv.labels o (by rw [hlabels]; exact List.mem_cons_self)
        dsimp only at hd ⊢
        rw [hd]
        exact hnext (.take hlabels hd)

end Turns

/-! ### The public symbols -/

/-- The entry of the public symbol and the part of its name that is compared with main lie in the file,
    and so does the code at its offset when it is main. -/
structure SymbolInside (bf : Bytefile) (i : ℕ) : Prop where
  entry : InBuffer bf (bf.publicPtr + 4 * (i * 2)) 8
  name : ∀ pos, bf.publicWord (i * 2) = .ok pos → NameInside bf pos [109, 97, 105, 110]
  offset : bf.isMain i = .ok true → ∀ o, bf.getPublicOffset i = .ok o → 0 ≤ o ∧ o < bf.codeSize

section Symbols

variable {bf : Bytefile} {i : ℤ}

theorem defined_publicWord : Defined (bf.publicWord i) ↔ InBuffer bf (bf.publicPtr + 4 * i) 4 := by
  rw [Bytefile.publicWord, defined_bind, defined_uint32]
  exact ⟨fun h => h.1, fun h => ⟨h, fun _ _ => defined_pure _⟩⟩

theorem InBuffer.publicWord (h : InBuffer bf (bf.publicPtr + 4 * i) 4) : ∃ x, bf.publicWord i = .ok x := by
  obtain ⟨w, hw⟩ := Bytefile.uint32_of_lt h.1 h.2
  exact ⟨toI32 w, by rw [Bytefile.publicWord, hw]; rfl⟩

theorem stringIs_total (name : List ℕ) (pos : ℤ) (h : Defined (bf.stringIs pos name)) :
    ∃ b, bf.stringIs pos name = .ok b := by
  induction name generalizing pos with
  | nil =>
    obtain ⟨b, hb⟩ := (defined_byte.mp (defined_bind.mp h).1).byte
    exact ⟨b == 0, by rw [Bytefile.stringIs, hb]; rfl⟩
  | cons c cs ih =>
    obtain ⟨hbyte, hrest⟩ := defined_bind.mp h
    obtain ⟨b, hb⟩ := (defined_byte.mp hbyte).byte
    have hnext := hrest b hb
    rw [Bytefile.stringIs, hb, except_ok_bind]
    split
    · rename_i hbc
      rw [if_pos hbc] at hnext
      exact ih (pos + 1) hnext
    · exact ⟨false, rfl⟩

/-- The comparison of a name with main gives an answer or leaves the file. -/
theorem isMain_total {i : ℕ} (h : Defined (bf.isMain i)) : ∃ b, bf.isMain i = .ok b := by
  obtain ⟨hword, hname⟩ := defined_bind.mp h
  obtain ⟨pos, hpos⟩ := (defined_publicWord.mp hword).publicWord
  obtain ⟨b, hb⟩ := stringIs_total _ pos (hname pos hpos)
  exact ⟨b, by rw [Bytefile.isMain, hpos, except_ok_bind, hb]⟩

/-- What is read of an entry and of its name. -/
theorem defined_symbol (bf : Bytefile) (i : ℕ) : (Defined (bf.getPublicOffset i) ∧
      ∀ o, bf.getPublicOffset i = .ok o → Defined (bf.isMain i)) ↔
    InBuffer bf (bf.publicPtr + 4 * (i * 2)) 8 ∧
      ∀ pos, bf.publicWord (i * 2) = .ok pos → NameInside bf pos [109, 97, 105, 110] := by
  have hmain : Defined (bf.isMain i) ↔ InBuffer bf (bf.publicPtr + 4 * (i * 2)) 4 ∧
      ∀ pos, bf.publicWord (i * 2) = .ok pos → NameInside bf pos [109, 97, 105, 110] := by
    rw [Bytefile.isMain, defined_bind, defined_publicWord]
    exact and_congr_right fun _ => forall_congr' fun pos => imp_congr_right fun _ => defined_stringIs _ pos
  rw [Bytefile.getPublicOffset, defined_publicWord]
  constructor
  · rintro ⟨hoffset, h⟩
    obtain ⟨o, ho⟩ := hoffset.publicWord
    obtain ⟨hlow, hname⟩ := hmain.mp (h o ho)
    exact ⟨⟨hlow.1, by have := hoffset.2; omega⟩, hname⟩
  · rintro ⟨⟨h0, hle⟩, hname⟩
    exact ⟨⟨by omega, by omega⟩, fun _ _ => hmain.mpr ⟨⟨h0, by omega⟩, hname⟩⟩

/-- What follows an entry that has been read. -/
theorem seedMarks_read {i : ℕ} {is : List ℕ} {m : Marks} {o : ℤ} {main : Bool} (ho : bf.getPublicOffset i = .ok o)
    (hmain : bf.isMain i = .ok main) (hlen : (m.visited.length : ℤ) = bf.codeSize)
    (ih : ∀ m' : Marks, (m'.visited.length : ℤ) = bf.codeSize →
      (Defined (seedMarks bf is m') ↔ ∀ j ∈ is, SymbolInside bf j)) :
    Defined (seedMarks bf (i :: is) m) ↔
      (main = true → 0 ≤ o ∧ o < bf.codeSize) ∧ ∀ j ∈ is, SymbolInside bf j := by
  rw [seedMarks, ho, except_ok_bind, hmain, except_ok_bind]
  cases main with
  | false => exact (ih m hlen).trans ⟨fun h => ⟨fun hno => (by cases hno), h⟩, fun h => h.2⟩
  | true =>
    rw [if_neg (by decide)]
    split
    · rename_i hneg
      exact ⟨fun h => absurd h (not_defined_throw _), fun h => absurd (h.1 rfl).1 (Int.not_le.mpr hneg)⟩
    · rename_i h0
      split
      · rename_i hnone
        have hout := List.getElem?_eq_none_iff.mp hnone
        refine ⟨fun h => absurd h (not_defined_throw _), fun h => ?_⟩
        have hlt := (h.1 rfl).2
        omega
      · rename_i v hv
        obtain ⟨hlt, -⟩ := List.getElem?_eq_some_iff.mp hv
        have hin : 0 ≤ o ∧ o < bf.codeSize := by omega
        have hboth : ∀ m' : Marks, (m'.visited.length : ℤ) = bf.codeSize → (Defined (seedMarks bf is m') ↔
            (true = true → 0 ≤ o ∧ o < bf.codeSize) ∧ ∀ j ∈ is, SymbolInside bf j) :=
          fun m' hlen' => (ih m' hlen').trans ⟨fun h => ⟨fun _ => hin, h⟩, fun h => h.2⟩
        split
        · exact hboth _ (by simpa using hlen)
        · exact hboth m hlen

/-- The first loop makes no access outside exactly when every public symbol lies inside. -/
theorem defined_seedMarks : ∀ (is : List ℕ) (m : Marks), (m.visited.length : ℤ) = bf.codeSize →
    (Defined (seedMarks bf is m) ↔ ∀ i ∈ is, SymbolInside bf i)
  | [], m, _ => ⟨fun _ i hi => (by cases hi), fun _ => defined_pure m⟩
  | i :: is, m, hlen => by
    have hread := defined_symbol bf i
    rw [List.forall_mem_cons]
    constructor
    · intro h
      obtain ⟨hoffset, hrest⟩ := defined_bind.mp h
      obtain ⟨hentry, hname⟩ := hread.mp ⟨hoffset, fun o ho => (defined_bind.mp (hrest o ho)).1⟩
      obtain ⟨o, ho⟩ : ∃ o, bf.getPublicOffset i = .ok o :=
        InBuffer.publicWord (defined_publicWord.mp hoffset)
      obtain ⟨main, hmain⟩ := isMain_total (defined_bind.mp (hrest o ho)).1
      obtain ⟨hin, his⟩ := (seedMarks_read ho hmain hlen (defined_seedMarks is)).mp h
      refine ⟨⟨hentry, hname, fun htrue o' ho' => ?_⟩, his⟩
      obtain rfl : o = o' := Except.ok.inj (ho.symm.trans ho')
      exact hin (Except.ok.inj (hmain.symm.trans htrue))
    · rintro ⟨hsymbol, his⟩
      obtain ⟨hoffset, hmain⟩ := hread.mpr ⟨hsymbol.entry, hsymbol.name⟩
      obtain ⟨o, ho⟩ : ∃ o, bf.getPublicOffset i = .ok o :=
        InBuffer.publicWord (defined_publicWord.mp hoffset)
      obtain ⟨main, hm⟩ := isMain_total (hmain o ho)
      exact (seedMarks_read ho hm hlen (defined_seedMarks is)).mpr
        ⟨fun htrue => hsymbol.offset (htrue ▸ hm) o ho, his⟩

end Symbols

/-! ### A turn of the second pass -/

/-- The checks of a marked instruction read an operand of it. -/
def ChecksOperand (type : InstructionType) : Prop :=
  HasLabel type ∨ type = .ld ∨ type = .st ∨ type = .lda

/-- The checks of a marked instruction look at the BEGIN opened last. -/
def NeedsBegin (type : InstructionType) : Prop :=
  type = .end ∨ type = .ld ∨ type = .st ∨ type = .lda ∨ type = .closure

/-- The captured variables from `ptr` on lie in the file, up to the first one that is rejected. -/
def CapturesInside (bf : Bytefile) (args locals n : ℕ) (ptr : ℤ) : Prop :=
  ∀ k < n, (∀ j < k, ∃ c, bf.designation (ptr + 5 * (j : ℕ)) = .ok c ∧
    validateVariable bf c.memVar c.value args locals = .ok ()) → Mapped bf (ptr + 5 * (k : ℕ)) 5

/-- `collect_marks` has reached the offset. -/
def MarkedAt (visited : List ℤ) (o : ℕ) : Prop := ∃ v, visited[o]? = some v ∧ v ≠ -1

/-- What the checks of a marked instruction need: a function that is open, an operand inside, captured
    variables inside. -/
structure ChecksInside (type : InstructionType) (st : Sweep) : Prop where
  opened : NeedsBegin type → st.beginOffsets ≠ []
  operand : ChecksOperand type → Mapped st.bf (st.symbolOffset + 1) 4
  captured : type = .closure → ∀ b bs, st.beginOffsets = b :: bs → ∀ args locals n,
    st.bf.code32 (b + 1) = .ok args → st.bf.code32 (b + 1 + 4) = .ok locals →
      st.bf.code32 (st.symbolOffset + 1 + 4) = .ok n →
        CapturesInside st.bf args locals n (st.symbolOffset + 1 + 4 + 4)

/-- What the second pass reads of the instruction it comes to lies in the file, and a marked one has what
    its checks need. -/
structure SweepInside (visited : List ℤ) (st : Sweep) : Prop where
  opcode : st.symbolOffset < toU32 st.bf.codeSize → Mapped st.bf st.symbolOffset 1
  count : InLoop st → st.bf.typeAt st.symbolOffset = .ok .closure →
    Mapped st.bf (st.symbolOffset + 1 + 4) 4
  checks : InLoop st → MarkedAt visited st.symbolOffset →
    ∀ type, st.bf.typeAt st.symbolOffset = .ok type → ChecksInside type st

section SweepTurn

variable {bf : Bytefile} {st st' : Sweep} {visited : List ℤ} {type : InstructionType} {args locals : ℕ}

theorem defined_validateVariable {d : MemVar} {index : ℕ} :
    Defined (validateVariable bf d index args locals) := by
  have hcheck : ∀ (p : Prop) [Decidable p] (what : String), Defined
      (if p then throw (Fault.runtimeError what) else (pure () : Result Unit)) :=
    fun p _ what => (defined_ite_throw fun a h => by cases h).mpr fun _ => defined_pure _
  cases d
  case closure => exact defined_pure _
  case other => exact defined_throw fun a h => by cases h
  all_goals exact hcheck _ _

theorem defined_validateDesignations (n : ℕ) (ptr : ℤ) :
    Defined (validateDesignations bf args locals n ptr) ↔ CapturesInside bf args locals n ptr := by
  induction n generalizing ptr with
  | zero => exact ⟨fun _ k hk => absurd hk (Nat.not_lt_zero k), fun _ => defined_pure _⟩
  | succ n ih =>
    have hnext : ∀ k : ℕ, ptr + 5 * ((k + 1 : ℕ) : ℤ) = ptr + 5 + 5 * (k : ℕ) := fun k => by omega
    have hfirst : ptr + 5 * ((0 : ℕ) : ℤ) = ptr := by omega
    rw [validateDesignations, defined_bind, defined_designation]
    constructor
    · rintro ⟨hmapped, hrest⟩ k hk hvalid
      cases k with
      | zero => rwa [hfirst]
      | succ k =>
        obtain ⟨c, hc, hv⟩ := hvalid 0 (Nat.zero_lt_succ k)
        rw [hfirst] at hc
        have htail := (defined_bind.mp (hrest c hc)).2 () hv
        rw [hnext]
        refine (ih (ptr + 5)).mp htail k (Nat.lt_of_succ_lt_succ hk) fun j hj => ?_
        rw [← hnext]
        exact hvalid (j + 1) (Nat.succ_lt_succ hj)
    · intro h
      have hmapped := h 0 (Nat.zero_lt_succ n) fun j hj => absurd hj (Nat.not_lt_zero j)
      rw [hfirst] at hmapped
      refine ⟨hmapped, fun c hc => defined_bind.mpr ⟨defined_validateVariable, fun _ hv => ?_⟩⟩
      refine (ih (ptr + 5)).mpr fun k hk hvalid => ?_
      rw [← hnext]
      refine h (k + 1) (Nat.succ_lt_succ hk) fun j hj => ?_
      cases j with
      | zero =>
        rw [hfirst]
        exact ⟨c, hc, hv⟩
      | succ j =>
        rw [hnext]
        exact hvalid j (Nat.lt_of_succ_lt_succ hj)

theorem defined_back : Defined st.back ↔ st.beginOffsets ≠ [] := by
  unfold Sweep.back
  cases st.beginOffsets with
  | nil => exact ⟨fun h => absurd h (not_defined_throw _), fun h => absurd rfl h⟩
  | cons b bs => exact ⟨fun _ h => (by cases h), fun _ => defined_pure b⟩

theorem back_ok {b : ℕ} (h : st.back = .ok b) : ∃ bs, st.beginOffsets = b :: bs := by
  unfold Sweep.back at h
  split at h
  · cases h
  · rename_i c bs hback
    cases h
    exact ⟨bs, hback⟩

/-- The two operands of the BEGIN opened last can be read when there is one. -/
theorem defined_header {α : Type} {f : ℕ → ℕ → Result α}
    (hheader : ∀ b ∈ st.beginOffsets, Mapped st.bf b 9) : Defined (do
      let b ← st.back
      let args ← st.bf.code32 (b + 1)
      let locals ← st.bf.code32 (b + 1 + 4)
      f args locals) ↔ st.beginOffsets ≠ [] ∧ ∀ b bs, st.beginOffsets = b :: bs → ∀ args locals,
        st.bf.code32 (b + 1) = .ok args → st.bf.code32 (b + 1 + 4) = .ok locals →
          Defined (f args locals) := by
  rw [defined_bind, defined_back]
  refine and_congr_right fun _ => ⟨fun h b bs hback args locals hargs hlocals => ?_, fun h b hb => ?_⟩
  · have hb : st.back = .ok b := by rw [Sweep.back, hback]; rfl
    have hrest := (defined_bind.mp (h b hb)).2 args hargs
    exact (defined_bind.mp hrest).2 locals hlocals
  · obtain ⟨bs, hback⟩ := back_ok hb
    have hmapped := hheader b (by rw [hback]; exact List.mem_cons_self)
    refine defined_bind.mpr ⟨defined_code32.mpr (hmapped.part (by omega) (by omega)), fun args hargs => ?_⟩
    refine defined_bind.mpr ⟨defined_code32.mpr (hmapped.part (by omega) (by omega)), fun locals hl => ?_⟩
    exact h b bs hback args locals hargs hl

/-- The checks of a marked instruction make no access outside exactly when it has what they need. -/
theorem defined_sweepChecks (hheader : ∀ b ∈ st.beginOffsets, Mapped st.bf b 9)
    (hopcode : Mapped st.bf st.symbolOffset 1)
    (hcount : type = .closure → Mapped st.bf (st.symbolOffset + 1 + 4) 4) :
    Defined (sweepChecks type st) ↔ ChecksInside type st := by
  have operands : ∀ {b bs}, st.beginOffsets = b :: bs →
      (∃ args, st.bf.code32 (b + 1) = .ok args) ∧ ∃ locals, st.bf.code32 (b + 1 + 4) = .ok locals := by
    intro b bs hback
    have hmapped := hheader b (by rw [hback]; exact List.mem_cons_self)
    exact ⟨(hmapped.part (by omega) (by omega)).code32, (hmapped.part (by omega) (by omega)).code32⟩
  have quiet : ¬ NeedsBegin type → ¬ ChecksOperand type → type ≠ .closure → ChecksInside type st :=
    fun hn ho hc => ⟨fun h => absurd h hn, fun h => absurd h ho, fun h => absurd h hc⟩
  -- LD, ST and LDA
  have access : type = .ld ∨ type = .st ∨ type = .lda → (Defined (do
      let beginOffset ← st.back
      let nArgs ← st.bf.code32 (beginOffset + 1)
      let nLocals ← st.bf.code32 (beginOffset + 1 + 4)
      let arg ← st.bf.code32 (st.symbolOffset + 1)
      let lowBits ← st.bf.lowBitsAt st.symbolOffset
      validateVariable st.bf (MemVar.ofByte lowBits) arg nArgs nLocals
      return st) ↔ ChecksInside type st) := by
    intro htype
    have hneeds : NeedsBegin type := .inr (htype.imp id fun h => h.imp id .inl)
    have hnot : type ≠ .closure := by rcases htype with rfl | rfl | rfl <;> decide
    rw [defined_header hheader]
    constructor
    · rintro ⟨hopen, hrest⟩
      obtain ⟨b, bs, hback⟩ := List.exists_cons_of_ne_nil hopen
      obtain ⟨⟨args, hargs⟩, locals, hlocals⟩ := operands hback
      have hread := (defined_bind.mp (hrest b bs hback args locals hargs hlocals)).1
      exact ⟨fun _ => hopen, fun _ => defined_code32.mp hread, fun hc => absurd hc hnot⟩
    · intro h
      refine ⟨h.opened hneeds, fun b bs _ args locals _ _ => ?_⟩
      refine defined_bind.mpr ⟨defined_code32.mpr (h.operand (.inr htype)), fun arg _ => ?_⟩
      refine defined_bind.mpr ⟨defined_lowBitsAt.mpr hopcode, fun low _ => ?_⟩
      exact defined_bind.mpr ⟨defined_validateVariable, fun _ _ => defined_pure _⟩
  -- CALL and the jumps
  have jump : HasLabel type → (Defined (do
      let jump ← st.bf.code32 (st.symbolOffset + 1)
      if toU32 st.bf.codeSize ≤ jump then throw (.runtimeError
        s!"Jump at {jump} outside of code section {st.bf.codeSize}")
      return st) ↔ ChecksInside type st) := by
    intro hlabel
    have hneeds : ¬ NeedsBegin type := by rcases hlabel with rfl | rfl | rfl | rfl <;> simp [NeedsBegin]
    have hnot : type ≠ .closure := by rcases hlabel with rfl | rfl | rfl | rfl <;> decide
    rw [defined_bind, defined_code32]
    constructor
    · rintro ⟨hread, -⟩
      exact ⟨fun h => absurd h hneeds, fun _ => hread, fun h => absurd h hnot⟩
    · intro h
      refine ⟨h.operand (.inl hlabel), fun jump _ => ?_⟩
      dsimp only
      split
      · exact defined_bind.mpr ⟨defined_throw fun a h => (by cases h), fun _ _ => defined_pure _⟩
      · exact defined_pure _
  cases type
  case «end» =>
    rw [sweepChecks, defined_bind, defined_back]
    constructor
    · rintro ⟨hopen, -⟩
      exact ⟨fun _ => hopen, fun h => by simp [ChecksOperand, HasLabel] at h, fun h => by cases h⟩
    · intro h
      refine ⟨h.opened (.inl rfl), fun b hb => ?_⟩
      obtain ⟨bs, hback⟩ := back_ok hb
      have hmapped := hheader b (by rw [hback]; exact List.mem_cons_self)
      refine defined_bind.mpr ⟨defined_code16.mpr (hmapped.part (by omega) (by omega)), fun w _ => ?_⟩
      dsimp only
      split
      · exact defined_bind.mpr ⟨defined_throw fun a h => (by cases h), fun _ _ => defined_pure _⟩
      · exact defined_pure _
  case ld | st | lda => exact access (by simp)
  case call | jmp | cjmpz | cjmpnz => exact jump (by simp [HasLabel])
  case closure =>
    rw [sweepChecks, defined_header hheader]
    constructor
    · rintro ⟨hopen, hrest⟩
      refine ⟨fun _ => hopen, fun h => by simp [ChecksOperand, HasLabel] at h, ?_⟩
      intro _ b bs hback args locals n hargs hlocals hn
      have hread := (defined_bind.mp (hrest b bs hback args locals hargs hlocals)).2 n hn
      exact (defined_validateDesignations n _).mp (defined_bind.mp hread).1
    · intro h
      refine ⟨h.opened (by simp [NeedsBegin]), fun b bs hback args locals hargs hlocals => ?_⟩
      refine defined_bind.mpr ⟨defined_code32.mpr (hcount rfl), fun n hn => ?_⟩
      refine defined_bind.mpr ⟨?_, fun _ _ => defined_pure _⟩
      exact (defined_validateDesignations n _).mpr (h.captured rfl b bs hback args locals n hargs hlocals hn)
  all_goals
    refine ⟨fun _ => quiet ?_ ?_ ?_, fun _ => defined_pure _⟩ <;> simp [NeedsBegin, ChecksOperand, HasLabel]

end SweepTurn

/-! ### The turns of the second pass -/

/-- What every state of the second pass satisfies: the operands of an open BEGIN lie in the file as soon
    as the instruction behind it does. -/
structure SweepInv (visited : List ℤ) (st : Sweep) : Prop where
  length : (visited.length : ℤ) = st.bf.codeSize
  begins : ∀ b ∈ st.beginOffsets, Mapped st.bf b 9 ∨ Mapped st.bf b 1 ∧ b + 9 = st.symbolOffset

section SweepTurns

variable {st st' : Sweep} {visited : List ℤ}

theorem InLoop.mapped (h : InLoop st) : Mapped st.bf st.symbolOffset 1 := by
  obtain ⟨b, hb, -⟩ := h.byte
  exact mapped_of_code hb

theorem SweepInv.header (h : SweepInv visited st) (hin : InLoop st) :
    ∀ b ∈ st.beginOffsets, Mapped st.bf b 9 := by
  intro b hb
  rcases h.begins b hb with hmapped | ⟨⟨h0, -⟩, hnext⟩
  · exact hmapped
  · obtain ⟨-, hle⟩ := hin.mapped
    exact ⟨h0, by omega⟩

theorem SweepInv.offset_lt (h : SweepInv visited st) (hin : InLoop st) :
    (st.symbolOffset : ℤ) < st.bf.codeSize :=
  AtInstruction.lt_codeSize hin (by have := h.length; omega)

theorem SweepInv.step (h : SweepInv visited st) (hin : InLoop st) (hs : SweepStep visited st st') :
    SweepInv visited st' := by
  obtain ⟨nxt, type, hgen, v, -, hmove⟩ := sweepInstruction_ok hs
  have hheader := h.header hin
  obtain ⟨-, rfl⟩ | ⟨-, u, hu, rfl⟩ := hmove
  · exact ⟨h.length, fun b hb => .inl (hheader b hb)⟩
  · have hchecked := sweepChecks_ok hu
    -- a write changes neither the place of the code nor its length
    have hmapped : ∀ {o n}, Mapped st.bf o n → Mapped u.bf o n := by
      intro o n hmapped
      rcases hchecked.bf with hbf | ⟨b, -, w, -, hbf⟩
      · rw [hbf]
        exact hmapped
      · rw [hbf]
        refine ⟨hmapped.1, ?_⟩
        simp only [Bytefile.setCode16_bytes, Bytefile.setCode16_codePtr, List.length_set]
        exact hmapped.2
    refine ⟨?_, fun b hb => ?_⟩
    · have hsame := sweepStep_codeSize hs
      dsimp only at hsame ⊢
      rw [hsame]
      exact h.length
    · rcases hchecked.begins b hb with hold | ⟨htype, rfl⟩
      · exact .inl (hmapped (hheader b hold))
      · have hnext := generalByterun_opens hgen htype (h.offset_lt hin)
        exact .inr ⟨hmapped hin.mapped, hnext.symm⟩

/-- A turn of the second pass makes no access outside exactly when its instruction lies inside. -/
theorem defined_sweepInstruction (h : SweepInv visited st) (hin : InLoop st) :
    Defined (sweepInstruction visited st) ↔
      (st.bf.typeAt st.symbolOffset = .ok .closure → Mapped st.bf (st.symbolOffset + 1 + 4) 4) ∧
        (MarkedAt visited st.symbolOffset →
          ∀ type, st.bf.typeAt st.symbolOffset = .ok type → ChecksInside type st) := by
  have hlt := h.offset_lt hin
  have hlen := h.length
  have hdecoded : ∀ {nxt type}, generalByterun st.bf st.symbolOffset = .ok (nxt, type) →
      st.bf.typeAt st.symbolOffset = .ok type := fun hg => (generalByterun_typeAt hg).1
  obtain ⟨v, hv⟩ : ∃ v, visited[st.symbolOffset]? = some v :=
    ⟨_, List.getElem?_eq_getElem (show st.symbolOffset < visited.length by omega)⟩
  have hmarked : MarkedAt visited st.symbolOffset ↔ v ≠ -1 := by
    constructor
    · rintro ⟨w, hw, hne⟩
      rw [hv] at hw
      exact Option.some.inj hw ▸ hne
    · exact fun hne => ⟨v, hv, hne⟩
  -- the depth recorded before the checks does not matter to them
  have hchecks : ∀ {type}, (type = .closure → Mapped st.bf (st.symbolOffset + 1 + 4) 4) →
      (Defined (sweepChecks type { st with maxStack := max st.maxStack v }) ↔ ChecksInside type st) := by
    intro type hcount
    have hsame : Defined (sweepChecks type { st with maxStack := max st.maxStack v }) ↔
        ChecksInside type { st with maxStack := max st.maxStack v } :=
      defined_sweepChecks (h.header hin) hin.mapped hcount
    rw [hsame]
    exact ⟨fun hc => ⟨hc.opened, hc.operand, hc.captured⟩, fun hc => ⟨hc.opened, hc.operand, hc.captured⟩⟩
  have hturn : ∀ {nxt type}, generalByterun st.bf st.symbolOffset = .ok (nxt, type) →
      (type = .closure → Mapped st.bf (st.symbolOffset + 1 + 4) 4) →
      (Defined (sweepInstruction visited st) ↔ (MarkedAt visited st.symbolOffset → ChecksInside type st)) := by
    intro nxt type hg hcount
    rw [sweepInstruction, hg, except_ok_bind]
    dsimp only
    rw [hv, hmarked]
    dsimp only
    split
    · rename_i hunmarked
      exact ⟨fun _ hne => absurd hunmarked hne, fun _ => defined_pure _⟩
    · rename_i hne
      rw [defined_bind, hchecks hcount]
      exact ⟨fun hd _ => hd.1, fun hd => ⟨hd hne, fun _ _ => defined_pure _⟩⟩
  constructor
  · intro hdefined
    have hgen := (defined_bind.mp hdefined).1
    obtain ⟨-, hclosure⟩ := defined_generalByterun.mp hgen
    refine ⟨hclosure, fun hm type htype => ?_⟩
    cases hknown : type.isOther with
    | true =>
      cases type
      case other => exact ⟨by simp [NeedsBegin], by simp [ChecksOperand, HasLabel], fun hc => by cases hc⟩
      all_goals cases hknown
    | false =>
      obtain ⟨nxt, hg⟩ := generalByterun_total hgen htype hknown
      exact (hturn hg fun hc => hclosure (hc ▸ htype)).mp hdefined hm
  · rintro ⟨hclosure, hmark⟩
    refine defined_bind.mpr ⟨defined_generalByterun.mpr ⟨hin.mapped, hclosure⟩, ?_⟩
    rintro ⟨nxt, type⟩ hg
    have htype := hdecoded hg
    have hdefined := (hturn hg fun hc => hclosure (hc ▸ htype)).mpr fun hm => hmark hm type htype
    exact (defined_bind.mp hdefined).2 _ hg

/-- The second pass makes no access outside, however many turns it makes, exactly when every instruction
    it comes to lies inside. -/
theorem defined_sweepLoop (h : SweepInv visited st) :
    (∀ fuel, Defined (sweepLoop visited fuel st)) ↔
      ∀ u, Run (SweepStep visited) InLoop st u → SweepInside visited u := by
  have hturn : ∀ {u : Sweep} (fuel : ℕ), SweepInv visited u → (Defined (sweepLoop visited (fuel + 1) u) ↔
      SweepInside visited u ∧
        (InLoop u → ∀ u', SweepStep visited u u' → Defined (sweepLoop visited fuel u'))) := by
    intro u fuel hu
    rw [sweepLoop]
    split
    · rename_i hend
      have hout : ¬ InLoop u := fun hin => absurd hin.lt (Nat.not_lt.mpr hend)
      refine ⟨fun _ => ⟨⟨?_, ?_, ?_⟩, ?_⟩, fun _ => defined_pure _⟩
      · exact fun hlt => absurd hlt (Nat.not_lt.mpr hend)
      all_goals exact fun hin => absurd hin hout
    · rename_i hlt
      rw [defined_bind, defined_code]
      constructor
      · rintro ⟨hopcode, hrest⟩
        have hin : InLoop u → Defined (sweepInstruction visited u) ∧
            ∀ u', SweepStep visited u u' → Defined (sweepLoop visited fuel u') := by
          intro hin
          obtain ⟨b, hb, hopen⟩ := hin.byte
          have hgoes := hrest b hb
          rw [if_neg hopen] at hgoes
          exact defined_bind.mp hgoes
        refine ⟨⟨fun _ => hopcode, fun hl => ?_, fun hl => ?_⟩, fun hl => (hin hl).2⟩
        · exact ((defined_sweepInstruction hu hl).mp (hin hl).1).1
        · exact ((defined_sweepInstruction hu hl).mp (hin hl).1).2
      · rintro ⟨hinside, htail⟩
        refine ⟨hinside.opcode (Nat.not_le.mp hlt), fun b hb => ?_⟩
        split
        · exact defined_pure _
        · rename_i hopen
          have hin : InLoop u := ⟨Nat.not_le.mp hlt, b, hb, hopen⟩
          exact defined_bind.mpr ⟨(defined_sweepInstruction hu hin).mpr ⟨hinside.count hin, hinside.checks hin⟩,
            htail hin⟩
  constructor
  · intro hall u hrun
    have hinv : SweepInv visited u ∧ ∀ fuel, Defined (sweepLoop visited fuel u) := by
      refine Run.invariant (I := fun u => SweepInv visited u ∧ ∀ fuel, Defined (sweepLoop visited fuel u)) ?_
        ⟨h, hall⟩ hrun
      rintro u u' ⟨hu, hdefined⟩ hin hs
      exact ⟨hu.step hin hs, fun fuel => ((hturn fuel hu).mp (hdefined (fuel + 1))).2 hin u' hs⟩
    exact ((hturn 0 hinv.1).mp (hinv.2 1)).1
  · intro hall fuel
    induction fuel generalizing st with
    | zero => exact defined_throw fun a h => by cases h
    | succ fuel ih =>
      refine (hturn fuel h).mpr ⟨hall st (Run.refl st), fun hin u' hs => ?_⟩
      exact ih (h.step hin hs) fun u hrun => hall u ((Run.single hin hs).trans hrun)

end SweepTurns

/-! ### Loading -/

/-- Reading the bytes of a file and verifying it. -/
def load (strerror : String) (fuel : ℕ) (file : List UInt8) : Result Bytefile := do
  let bf ← readFile strerror file
  verify fuel bf

/-- The second pass comes to this state. -/
def Sweeps (bf : Bytefile) (visited : List ℤ) (st : Sweep) : Prop :=
  collectMarks bf = .ok visited ∧ Run (SweepStep visited) InLoop ⟨bf, 0, 0, []⟩ st

/-- What `verify` needs of a file, at the public symbols and turn by turn. -/
structure VerifyInside (bf : Bytefile) : Prop where
  symbols : ∀ i < bf.publicSymbolsNumber.toNat, SymbolInside bf i
  visits : ∀ m a, Handles bf m a → VisitInside bf m a
  sweeps : ∀ visited st, Sweeps bf visited st → SweepInside visited st

/-- The bytes that are read hold the three header words, and twice the number of public symbols is an
    `int`. -/
structure HeaderInside (file : List UInt8) : Prop where
  words : 12 ≤ toI32 file.length
  symbols : toI32 (headerWord file 8 * 2) = headerWord file 8 * 2

section Load

variable {bf : Bytefile}

/-- `collect_marks` on a code whose size is no error. -/
theorem defined_collectMarks (hsize : 0 ≤ bf.codeSize) : Defined (collectMarks bf) ↔
    (∀ i < bf.publicSymbolsNumber.toNat, SymbolInside bf i) ∧
      ∀ m a, Handles bf m a → VisitInside bf m a := by
  have hlen : ((noMarks bf).visited.length : ℤ) = bf.codeSize := by
    rw [noMarks, List.length_replicate]
    omega
  rw [collectMarks, collectMarksBy_eq hsize, defined_bind, defined_seedMarks _ _ hlen]
  simp only [List.mem_range]
  refine and_congr_right fun _ => ⟨fun h m a hhandles => ?_, fun h m₀ hs => ?_⟩
  · obtain ⟨m₀, hs, hrun⟩ := hhandles
    obtain ⟨hinv, hturns⟩ := seedMarks_inv hsize hs
    obtain ⟨hinv', fuel, hfuel, hloop⟩ := marksLoop_run hinv (Nat.lt_succ_of_le hturns) hrun
    obtain ⟨fuel, rfl⟩ : ∃ k, fuel = k + 1 := ⟨fuel - 1, by omega⟩
    have hdefined := h m₀ hs
    rw [hloop, marksLoop] at hdefined
    exact (defined_visitInstruction hinv'.bounded).mp (defined_bind.mp hdefined).1
  · exact defined_marksLoop (seedMarks_inv hsize hs).1 fun m a hrun => h m a ⟨m₀, hs, hrun⟩

/-- `verify` makes no access outside exactly when the code size is an error or every turn meets its
    condition. -/
theorem defined_verify : (∀ fuel, Defined (verify fuel bf)) ↔ (0 ≤ bf.codeSize → VerifyInside bf) := by
  by_cases hsize : 0 ≤ bf.codeSize
  · have hsplit : (∀ fuel, Defined (verify fuel bf)) ↔ Defined (collectMarks bf) ∧
        ∀ visited, collectMarks bf = .ok visited →
          ∀ fuel, Defined (sweepLoop visited fuel ⟨bf, 0, 0, []⟩) := by
      have hone : ∀ fuel, Defined (verify fuel bf) ↔ Defined (collectMarks bf) ∧
          ∀ visited, collectMarks bf = .ok visited → Defined (sweepLoop visited fuel ⟨bf, 0, 0, []⟩) := by
        intro fuel
        rw [verify, defined_bind]
        refine and_congr_right fun _ => forall_congr' fun visited => imp_congr_right fun _ => ?_
        rw [defined_bind]
        exact ⟨fun h => h.1, fun h => ⟨h, fun _ _ => defined_pure _⟩⟩
      exact ⟨fun h => ⟨((hone 0).mp (h 0)).1, fun v hv fuel => ((hone fuel).mp (h fuel)).2 v hv⟩,
        fun h fuel => (hone fuel).mpr ⟨h.1, fun v hv => h.2 v hv fuel⟩⟩
    rw [hsplit, defined_collectMarks hsize]
    have hinv : ∀ visited, collectMarks bf = .ok visited → SweepInv visited ⟨bf, 0, 0, []⟩ :=
      fun visited hv => ⟨(collectMarksBy_ok List.Perm.refl hv).length, fun b hb => by cases hb⟩
    constructor
    · rintro ⟨⟨hsymbols, hvisits⟩, hsweeps⟩ -
      refine ⟨hsymbols, hvisits, ?_⟩
      rintro visited st ⟨hv, hrun⟩
      exact (defined_sweepLoop (hinv visited hv)).mp (hsweeps visited hv) st hrun
    · intro h
      obtain ⟨hsymbols, hvisits, hsweeps⟩ := h hsize
      exact ⟨⟨hsymbols, hvisits⟩, fun visited hv => (defined_sweepLoop (hinv visited hv)).mpr
        fun st hrun => hsweeps visited st ⟨hv, hrun⟩⟩
  · refine ⟨fun _ h => absurd h hsize, fun _ fuel => ?_⟩
    rw [verify, collectMarks, collectMarksBy, if_pos (Int.not_le.mp hsize)]
    exact defined_bind.mpr ⟨defined_throw fun a h => (by cases h), fun v hv => by cases hv⟩

/-- `read_file` on a file whose size fits an `int`. -/
theorem defined_readFile (strerror : String) (file : List UInt8) :
    Defined (readFile strerror file) ↔ (0 ≤ toI32 file.length → HeaderInside file) := by
  unfold readFile
  dsimp only
  by_cases hneg : toI32 file.length < 0
  · rw [if_pos hneg]
    exact ⟨fun _ h => absurd hneg (Int.not_lt.mpr h), fun _ => defined_throw fun a h => by cases h⟩
  rw [if_neg hneg]
  by_cases hshort : toI32 file.length < 12
  · rw [if_pos hshort]
    refine ⟨fun h => absurd rfl (h _), fun h => ?_⟩
    exact absurd hshort (Int.not_lt.mpr (h (Int.not_lt.mp hneg)).words)
  rw [if_neg hshort]
  by_cases hover : toI32 (headerWord file 8 * 2) = headerWord file 8 * 2
  · rw [if_neg (not_not.mpr hover)]
    exact ⟨fun _ _ => ⟨Int.not_lt.mp hshort, hover⟩, fun _ => defined_ok _⟩
  · rw [if_pos hover]
    exact ⟨fun h => absurd rfl (h _), fun h => absurd (h (Int.not_lt.mp hneg)).symbols hover⟩

end Load

/-- `main` jumps far behind the code. -/
def farJumpFile : List UInt8 :=
  [5, 0, 0, 0, 0, 0, 0, 0, 1, 0, 0, 0, 0, 0, 0, 0, 0, 0, 0, 0, 109, 97, 105, 110, 0,
    0x15, 0xFF, 0xFF, 0xFF, 0x7F, 0xFF]

/-- `main` ends without a BEGIN. -/
def noBeginFile : List UInt8 :=
  [5, 0, 0, 0, 0, 0, 0, 0, 1, 0, 0, 0, 0, 0, 0, 0, 0, 0, 0, 0, 109, 97, 105, 110, 0, 0x16, 0xFF]

/-- The file ends behind the opcode of a CALL. -/
def cutFile : List UInt8 :=
  [5, 0, 0, 0, 0, 0, 0, 0, 1, 0, 0, 0, 0, 0, 0, 0, 0, 0, 0, 0, 109, 97, 105, 110, 0, 0x56]

/-- A file whose string table has the size -4: the code begins in the header, at its last word. -/
def headerFile : List UInt8 := [0xFC, 0xFF, 0xFF, 0xFF, 0, 0, 0, 0, 0, 0, 0, 0, 0xFF]

/-- It is read and accepted without an access outside. -/
example : load "" 5 headerFile = .ok (Bytefile.ofBytes headerFile) := by decide

end LamaSM
