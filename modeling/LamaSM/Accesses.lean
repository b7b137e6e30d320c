import LamaSM.Termination

/-! Which reads of the file lie inside it.

    `Defined` says that a computation does not end with an access C gives no meaning to. For a sequence
    it splits into its parts (`defined_bind`), for a read of the code it comes down to the place of the
    bytes (`Mapped`); what is left of every function of the loader is then a condition on the
    instruction it works on. -/

namespace LamaSM
open Lib

/-- The computation makes no access without a meaning. -/
def Defined {α : Type} (x : Result α) : Prop := ∀ a, x ≠ .error (.undefined a)

section Defined

variable {α β : Type} {x : Result α} {f : α → Result β}

theorem defined_ok (a : α) : Defined (.ok a : Result α) := fun _ h => by cases h

theorem defined_pure (a : α) : Defined (pure a : Result α) := defined_ok a

theorem defined_throw {e : Fault} (h : ∀ a, e ≠ .undefined a) : Defined (throw e : Result α) :=
  fun a he => h a (except_throw_error.mp he)

theorem not_defined_throw (a : Access) : ¬ Defined (throw (.undefined a) : Result α) := fun h => h a rfl

theorem defined_bind : Defined (x >>= f) ↔ Defined x ∧ ∀ a, x = .ok a → Defined (f a) := by
  constructor
  · intro h
    refine ⟨fun a ha => h a (except_bind_error.mpr (.inl ha)), fun v hv a ha => ?_⟩
    exact h a (except_bind_error.mpr (.inr ⟨v, hv, ha⟩))
  · rintro ⟨hx, hf⟩ a ha
    rcases except_bind_error.mp ha with ha | ⟨v, hv, ha⟩
    · exact hx a ha
    · exact hf v hv a ha

/-- A test that reports an error is no access. -/
theorem defined_ite_throw {p : Prop} [Decidable p] {e : Fault} (he : ∀ a, e ≠ .undefined a) :
    Defined (if p then throw e else x) ↔ (¬ p → Defined x) := by
  split
  · rename_i hp
    exact ⟨fun _ hn => absurd hp hn, fun _ => defined_throw he⟩
  · rename_i hp
    exact ⟨fun h _ => h, fun h => h hp⟩

end Defined

/-! ### Reads -/

/-- The `n` bytes at `buffer + i` lie in the file. -/
def InBuffer (bf : Bytefile) (i : ℤ) (n : ℕ) : Prop := 0 ≤ i ∧ i + n ≤ bf.bytes.length

/-- The `n` bytes at offset `o` of the code lie in the file. -/
def Mapped (bf : Bytefile) (o : ℤ) (n : ℕ) : Prop := InBuffer bf (bf.codePtr + o) n

section Reads

variable {bf : Bytefile} {i o : ℤ} {n k : ℕ}

theorem Mapped.part (h : Mapped bf o n) {o' : ℤ} (hlo : o ≤ o') (hhi : o' + k ≤ o + n) : Mapped bf o' k := by
  obtain ⟨h0, hle⟩ := h
  constructor <;> omega

theorem InBuffer.byte (h : InBuffer bf i 1) : ∃ b, bf.byte i = .ok b := by
  obtain ⟨h0, hle⟩ := h
  exact Bytefile.byte_of_lt h0 (by omega)

theorem InBuffer.uint16 (h : InBuffer bf i 2) : ∃ w, bf.uint16 i = .ok w := Bytefile.uint16_of_lt h.1 h.2

/-- A read is defined when there is a byte. -/
theorem defined_byte : Defined (bf.byte i) ↔ InBuffer bf i 1 := by
  constructor
  · intro h
    by_contra hout
    have hbyte : bf.byte i = .error (.undefined (.buffer i)) := by
      unfold Bytefile.byte
      split
      · rfl
      · rw [List.getElem?_eq_none (by unfold InBuffer at hout; omega)]
    exact h _ hbyte
  · intro h
    obtain ⟨b, hb⟩ := h.byte
    rw [hb]
    exact defined_ok b

theorem defined_uint16 : Defined (bf.uint16 i) ↔ InBuffer bf i 2 := by
  constructor
  · intro h
    obtain ⟨h0, h1⟩ := defined_bind.mp h
    obtain ⟨hlo, -⟩ := defined_byte.mp h0
    obtain ⟨b, hb⟩ := (defined_byte.mp h0).byte
    obtain ⟨-, hhi⟩ := defined_byte.mp (defined_bind.mp (h1 b hb)).1
    exact ⟨hlo, by omega⟩
  · intro h
    obtain ⟨w, hw⟩ := h.uint16
    rw [hw]
    exact defined_ok w

theorem defined_uint32 : Defined (bf.uint32 i) ↔ InBuffer bf i 4 := by
  constructor
  · intro h
    obtain ⟨h0, h1⟩ := defined_bind.mp h
    obtain ⟨hlo, -⟩ := defined_uint16.mp h0
    obtain ⟨w, hw⟩ := (defined_uint16.mp h0).uint16
    obtain ⟨-, hhi⟩ := defined_uint16.mp (defined_bind.mp (h1 w hw)).1
    exact ⟨hlo, by omega⟩
  · rintro ⟨h0, hle⟩
    obtain ⟨w, hw⟩ := Bytefile.uint32_of_lt h0 (by omega)
    rw [hw]
    exact defined_ok w

theorem defined_code : Defined (bf.code o) ↔ Mapped bf o 1 := defined_byte

theorem defined_code16 : Defined (bf.code16 o) ↔ Mapped bf o 2 := defined_uint16

theorem defined_code32 : Defined (bf.code32 o) ↔ Mapped bf o 4 := defined_uint32

theorem Mapped.code32 (h : Mapped bf o 4) : ∃ w, bf.code32 o = .ok w :=
  Bytefile.uint32_of_lt h.1 h.2

theorem mapped_of_code {b : ℕ} (h : bf.code o = .ok b) : Mapped bf o 1 :=
  defined_code.mp (h ▸ defined_ok b)

theorem defined_typeAt : Defined (bf.typeAt o) ↔ Mapped bf o 1 := by
  rw [Bytefile.typeAt, defined_bind, defined_code]
  exact ⟨fun h => h.1, fun h => ⟨h, fun _ _ => defined_pure _⟩⟩

theorem defined_lowBitsAt : Defined (bf.lowBitsAt o) ↔ Mapped bf o 1 := by
  rw [Bytefile.lowBitsAt, defined_bind, defined_code]
  exact ⟨fun h => h.1, fun h => ⟨h, fun _ _ => defined_pure _⟩⟩

theorem defined_designation : Defined (bf.designation o) ↔ Mapped bf o 5 := by
  rw [Bytefile.designation, defined_bind, defined_code]
  constructor
  · rintro ⟨hbyte, hrest⟩
    obtain ⟨b, hb⟩ := InBuffer.byte hbyte
    obtain ⟨-, hword⟩ := defined_code32.mp (defined_bind.mp (hrest b hb)).1
    exact ⟨hbyte.1, by omega⟩
  · intro h
    refine ⟨h.part (Int.le_refl _) (by omega), fun b _ => defined_bind.mpr ⟨?_, fun _ _ => defined_pure _⟩⟩
    exact defined_code32.mpr (h.part (by omega) (by omega))

end Reads

/-! ### Names of public symbols -/

/-- The bytes of the string table that are compared with the name, up to the first difference, lie in
    the file. -/
def NameInside (bf : Bytefile) (pos : ℤ) (name : List ℕ) : Prop :=
  ∀ k ≤ name.length, (∀ j < k, ∀ c, name[j]? = some c → bf.byte (bf.stringPtr + pos + j) = .ok c) →
    InBuffer bf (bf.stringPtr + pos + k) 1

section Names

variable {bf : Bytefile}

theorem defined_stringIs (name : List ℕ) (pos : ℤ) :
    Defined (bf.stringIs pos name) ↔ NameInside bf pos name := by
  induction name generalizing pos with
  | nil =>
    rw [Bytefile.stringIs, defined_bind, defined_byte]
    constructor
    · rintro ⟨h, -⟩ k hk -
      obtain rfl : k = 0 := Nat.le_zero.mp hk
      rwa [Int.natCast_zero, Int.add_zero]
    · intro h
      have hfirst := h 0 (Nat.le_refl 0) fun j hj => absurd hj (Nat.not_lt_zero j)
      rw [Int.natCast_zero, Int.add_zero] at hfirst
      exact ⟨hfirst, fun _ _ => defined_pure _⟩
  | cons c cs ih =>
    rw [Bytefile.stringIs, defined_bind, defined_byte]
    have hnext : ∀ k : ℕ, bf.stringPtr + pos + ((k + 1 : ℕ) : ℤ) = bf.stringPtr + (pos + 1) + k :=
      fun k => by omega
    constructor
    · rintro ⟨hfirst, hrest⟩ k hk heq
      cases k with
      | zero => rwa [Int.natCast_zero, Int.add_zero]
      | succ k =>
        have hc := heq 0 (Nat.zero_lt_succ k) c rfl
        rw [Int.natCast_zero, Int.add_zero] at hc
        have hdefined := hrest c hc
        rw [if_pos rfl] at hdefined
        rw [hnext]
        refine (ih (pos + 1)).mp hdefined k (Nat.le_of_succ_le_succ hk) fun j hj d hd => ?_
        rw [← hnext]
        exact heq (j + 1) (Nat.succ_lt_succ hj) d hd
    · intro h
      have hfirst := h 0 (Nat.zero_le _) fun j hj => absurd hj (Nat.not_lt_zero j)
      rw [Int.natCast_zero, Int.add_zero] at hfirst
      refine ⟨hfirst, fun b hb => ?_⟩
      split
      · rename_i hbc
        refine (ih (pos + 1)).mpr fun k hk heq => ?_
        rw [← hnext]
        refine h (k + 1) (Nat.succ_le_succ hk) fun j hj d hd => ?_
        cases j with
        | zero =>
          rw [Int.natCast_zero, Int.add_zero, hb, hbc]
          exact congrArg Except.ok (Option.some.inj hd)
        | succ j =>
          rw [hnext]
          exact heq j (Nat.lt_of_succ_lt_succ hj) d hd
      · exact defined_pure _

end Names

/-! ### Instructions -/

/-- Where `collect_marks` and `general_byterun` read a count among the operands, behind the opcode. -/
def countAt : InstructionType → Option ℕ
  | .closure | .sexp | .call => some 5
  | .callc | .array | .callArray => some 1
  | _ => none

/-- The count of an instruction of this type at `o` lies in the file. -/
def CountInside (bf : Bytefile) (o : ℕ) (type : InstructionType) : Prop :=
  ∀ k, countAt type = some k → Mapped bf (o + k) 4

section Instructions

variable {bf : Bytefile} {o : ℕ} {d : ℤ} {type : InstructionType}

theorem countInside_iff {k : ℕ} (hk : countAt type = some k) :
    CountInside bf o type ↔ Mapped bf (o + k) 4 :=
  ⟨fun h => h k hk, fun h _ hk' => Option.some.inj (hk.symm.trans hk') ▸ h⟩

theorem defined_generalByterun : Defined (generalByterun bf o) ↔
    Mapped bf o 1 ∧ (bf.typeAt o = .ok .closure → Mapped bf (o + 1 + 4) 4) := by
  rw [generalByterun, defined_bind, defined_typeAt]
  refine and_congr_right fun _ => ⟨fun h hclosure => ?_, fun h type htype => ?_⟩
  · exact defined_code32.mp (defined_bind.mp (h .closure hclosure)).1
  · cases type
    case closure => exact defined_bind.mpr ⟨defined_code32.mpr (h htype), fun _ _ => defined_pure _⟩
    case other => exact defined_throw fun a h => by cases h
    all_goals exact defined_pure _

/-- The tests before the successors read the opcode again and, behind it, one count. -/
theorem defined_depth (hopcode : Mapped bf o 1) :
    (Defined (checkArgNumber bf o d type) ∧
      ∀ u, checkArgNumber bf o d type = .ok u → Defined (getNewStack bf (toU32 d) o type)) ↔
      (type ≠ .closure → CountInside bf o type) := by
  have h1 : (o : ℤ) + 1 = o + ((1 : ℕ) : ℤ) := rfl
  have h5 : (o : ℤ) + 1 + 4 = o + ((5 : ℕ) : ℤ) := by omega
  -- a type without a count reads nothing more
  have nothing : countAt type = none → checkArgNumber bf o d type = .ok () →
      Defined (getNewStack bf (toU32 d) o type) →
      ((Defined (checkArgNumber bf o d type) ∧
        ∀ u, checkArgNumber bf o d type = .ok u → Defined (getNewStack bf (toU32 d) o type)) ↔
        (type ≠ .closure → CountInside bf o type)) := by
    intro hnone hcheck hstack
    refine ⟨fun _ _ k hk => ?_, fun _ => ⟨hcheck ▸ defined_ok (), fun _ _ => hstack⟩⟩
    rw [hnone] at hk
    cases hk
  -- the test on the count, and the new depth after the count
  have hcheck : ∀ n : ℕ, Defined (if toU32 d < n then throw (Fault.runtimeError
      s!"argument number of instruction at offset {o} is too large") else (pure () : Result Unit)) :=
    fun n => (defined_ite_throw fun a h => by cases h).mpr fun _ => defined_pure ()
  have hread : ∀ {p : ℤ} {f : ℕ → ℕ}, Mapped bf p 4 →
      Defined (do let n ← bf.code32 p; return f n : Result ℕ) :=
    fun hp => defined_bind.mpr ⟨defined_code32.mpr hp, fun _ _ => defined_pure _⟩
  cases type
  case callc =>
    rw [countInside_iff (k := 1) rfl, ← h1]
    refine ⟨fun h _ => defined_code32.mp (defined_bind.mp h.1).1, fun h => ?_⟩
    have hcount := h (by decide)
    exact ⟨defined_bind.mpr ⟨defined_code32.mpr hcount, fun n _ => hcheck n⟩, fun _ _ => hread hcount⟩
  case array =>
    rw [countInside_iff (k := 1) rfl, ← h1]
    refine ⟨fun h _ => defined_code32.mp (defined_bind.mp h.1).1, fun h => ?_⟩
    have hcount := h (by decide)
    exact ⟨defined_bind.mpr ⟨defined_code32.mpr hcount, fun n _ => hcheck n⟩, fun _ _ => defined_pure _⟩
  case sexp | call =>
    rw [countInside_iff (k := 5) rfl, ← h5]
    refine ⟨fun h _ => defined_code32.mp (defined_bind.mp h.1).1, fun h => ?_⟩
    have hcount := h (by decide)
    exact ⟨defined_bind.mpr ⟨defined_code32.mpr hcount, fun n _ => hcheck n⟩, fun _ _ => hread hcount⟩
  case callArray =>
    rw [countInside_iff (k := 1) rfl, ← h1]
    refine ⟨fun h _ => defined_code32.mp (defined_bind.mp (h.2 () rfl)).1, fun h => ?_⟩
    exact ⟨defined_pure _, fun _ _ => hread (h (by decide))⟩
  case closure =>
    exact ⟨fun _ hne => absurd rfl hne, fun _ => ⟨defined_pure _, fun _ _ => defined_pure _⟩⟩
  case patt =>
    refine nothing rfl rfl (defined_bind.mpr ⟨defined_lowBitsAt.mpr hopcode, fun b _ => ?_⟩)
    cases Patt.ofByte b
    case other => exact defined_throw fun a h => by cases h
    all_goals exact defined_pure _
  case ret | other => exact nothing rfl rfl (defined_throw fun a h => by cases h)
  all_goals exact nothing rfl rfl (defined_pure _)

end Instructions

end LamaSM
