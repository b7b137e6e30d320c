import LamaSM.Verifier
import LamaSM.Lib.Exec

/-! Reads of the file: which ones succeed, and what is left when they do.

    `CodeMapped` says that the code section lies inside the file's bytes, behind the header. A read of
    the code that stays below `code_size` then succeeds. -/

namespace LamaSM
open Lib

namespace Bytefile

variable {bf : Bytefile}

/-- The code section lies inside the file, behind the header. -/
def CodeMapped (bf : Bytefile) : Prop :=
  12 ≤ bf.codePtr ∧ bf.codePtr + bf.codeSize ≤ bf.bytes.length

theorem ofMain_codeMapped {globalAreaSize : UInt8} {code : List UInt8} (h : code.length < 2 ^ 31) :
    (ofMain globalAreaSize code).CodeMapped := by
  have hsize : toI32 code.length = code.length := toI32_of_lt h
  constructor
  · exact show (12 : ℤ) ≤ 25 by decide
  · simp only [ofMain, hsize, List.length_append, List.length_cons, List.length_nil]
    omega

theorem byte_ok {i : ℤ} {b : ℕ} (h : bf.byte i = .ok b) :
    0 ≤ i ∧ i < bf.bytes.length ∧ b < 2 ^ 8 := by
  unfold byte at h
  split at h
  · cases h
  · split at h
    · rename_i hi v hv
      obtain ⟨hlt, -⟩ := List.getElem?_eq_some_iff.mp hv
      have hb : v.toNat < 2 ^ 8 := v.toNat_lt
      cases h
      omega
    · cases h

theorem byte_of_lt {i : ℤ} (h0 : 0 ≤ i) (h : i < bf.bytes.length) : ∃ b, bf.byte i = .ok b := by
  have hlt : i.toNat < bf.bytes.length := by omega
  refine ⟨bf.bytes[i.toNat].toNat, ?_⟩
  rw [byte, if_neg (by omega), List.getElem?_eq_getElem hlt]

theorem uint16_ok {i : ℤ} {w : ℕ} (h : bf.uint16 i = .ok w) :
    ∃ b0 b1, bf.byte i = .ok b0 ∧ bf.byte (i + 1) = .ok b1 ∧ w = b0 + 2 ^ 8 * b1 := by
  simp only [uint16, except_bind_ok, except_pure_ok] at h
  obtain ⟨b0, h0, b1, h1, rfl⟩ := h
  exact ⟨b0, b1, h0, h1, rfl⟩

theorem uint16_of_lt {i : ℤ} (h0 : 0 ≤ i) (h : i + 2 ≤ bf.bytes.length) :
    ∃ w, bf.uint16 i = .ok w := by
  obtain ⟨b0, hb0⟩ : ∃ b, bf.byte i = .ok b := byte_of_lt h0 (by omega)
  obtain ⟨b1, hb1⟩ : ∃ b, bf.byte (i + 1) = .ok b := byte_of_lt (by omega) (by omega)
  exact ⟨b0 + 2 ^ 8 * b1, by rw [uint16, hb0, hb1]; rfl⟩

theorem uint16_lt {i : ℤ} {w : ℕ} (h : bf.uint16 i = .ok w) : w < 2 ^ 16 := by
  obtain ⟨b0, b1, h0, h1, rfl⟩ := uint16_ok h
  have := (byte_ok h0).2.2
  have := (byte_ok h1).2.2
  omega

theorem uint32_ok {i : ℤ} {w : ℕ} (h : bf.uint32 i = .ok w) :
    ∃ h0 h1, bf.uint16 i = .ok h0 ∧ bf.uint16 (i + 2) = .ok h1 ∧ w = h0 + 2 ^ 16 * h1 := by
  simp only [uint32, except_bind_ok, except_pure_ok] at h
  obtain ⟨w0, h0, w1, h1, rfl⟩ := h
  exact ⟨w0, w1, h0, h1, rfl⟩

theorem uint32_of_lt {i : ℤ} (h0 : 0 ≤ i) (h : i + 4 ≤ bf.bytes.length) :
    ∃ w, bf.uint32 i = .ok w := by
  obtain ⟨w0, hw0⟩ : ∃ w, bf.uint16 i = .ok w := uint16_of_lt h0 (by omega)
  obtain ⟨w1, hw1⟩ : ∃ w, bf.uint16 (i + 2) = .ok w := uint16_of_lt (by omega) (by omega)
  exact ⟨w0 + 2 ^ 16 * w1, by rw [uint32, hw0, hw1]; rfl⟩

theorem uint32_lt {i : ℤ} {w : ℕ} (h : bf.uint32 i = .ok w) : w < 2 ^ 32 := by
  obtain ⟨w0, w1, h0, h1, rfl⟩ := uint32_ok h
  have := uint16_lt h0
  have := uint16_lt h1
  omega

/-- A 32-bit word that can be read lies inside the file. -/
theorem uint32_range {i : ℤ} {w : ℕ} (h : bf.uint32 i = .ok w) :
    0 ≤ i ∧ i + 4 ≤ bf.bytes.length := by
  obtain ⟨h0, h1, hlo, hhi, -⟩ := uint32_ok h
  obtain ⟨b0, -, hb0, -, -⟩ := uint16_ok hlo
  obtain ⟨-, b3, -, hb3, -⟩ := uint16_ok hhi
  have := byte_ok hb0
  have := byte_ok hb3
  omega

theorem code32_lt {o : ℤ} {w : ℕ} (h : bf.code32 o = .ok w) : w < 2 ^ 32 := uint32_lt h

theorem code32_of_lt (hm : bf.CodeMapped) {o : ℤ} (h0 : 0 ≤ o) (h : o + 4 ≤ bf.codeSize) :
    ∃ w, bf.code32 o = .ok w := by
  obtain ⟨hp, hs⟩ := hm
  exact uint32_of_lt (by omega) (by omega)

theorem typeAt_ok {o : ℤ} {t : InstructionType} (h : bf.typeAt o = .ok t) :
    ∃ b, bf.code o = .ok b ∧ getInstructionType b = t := by
  simp only [typeAt, except_bind_ok, except_pure_ok] at h
  exact h

end Bytefile

/-- The bytes of an instruction that do not depend on an operand: opcode and fixed operands. -/
def fixedLength : InstructionType → ℕ
  | .jmp | .cjmpz | .cjmpnz | .const | .callArray | .array | .string | .callc | .ld | .st | .lda
  | .line => 5
  | .call | .sexp | .tag | .begin | .cbegin | .fail | .closure => 9
  | _ => 1

/-- `general_byterun` returns the type at its offset; an unknown one it rejects. -/
theorem generalByterun_typeAt {bf : Bytefile} {i nxt : ℕ} {t : InstructionType}
    (h : generalByterun bf i = .ok (nxt, t)) : bf.typeAt i = .ok t ∧ ∀ b, t ≠ .other b := by
  simp only [generalByterun, except_bind_ok] at h
  obtain ⟨t', ht, h⟩ := h
  cases t'
  case closure =>
    simp only [except_bind_ok, except_pure_ok, Prod.mk.injEq] at h
    obtain ⟨_, -, -, rfl⟩ := h
    exact ⟨ht, by simp⟩
  case other => simp at h
  all_goals
    simp only [except_pure_ok, Prod.mk.injEq] at h
    obtain ⟨-, rfl⟩ := h
    exact ⟨ht, by simp⟩

section NoTimeout

/-- The computation does not fail by running out of loop turns. -/
def NoTimeout {α : Type} (x : Result α) : Prop := x ≠ .error .timeout

variable {α β : Type}

theorem noTimeout_ok (a : α) : NoTimeout (.ok a) := fun h => nomatch h

theorem noTimeout_pure (a : α) : NoTimeout (pure a) := fun h => nomatch h

theorem noTimeout_throw {e : Fault} (h : e ≠ .timeout) : NoTimeout (throw e : Result α) :=
  fun h' => h (by cases h'; rfl)

/-- A sequence does not run out of turns when its first part does not, and neither does what follows
    a result of it. -/
theorem noTimeout_bind_ok {x : Result α} {f : α → Result β} (hx : NoTimeout x)
    (hf : ∀ a, x = .ok a → NoTimeout (f a)) : NoTimeout (x >>= f) := by
  intro h
  rcases except_bind_error.mp h with h | ⟨a, ha, h⟩
  · exact hx h
  · exact hf a ha h

theorem noTimeout_bind {x : Result α} {f : α → Result β} (hx : NoTimeout x)
    (hf : ∀ a, NoTimeout (f a)) : NoTimeout (x >>= f) := noTimeout_bind_ok hx fun a _ => hf a

theorem noTimeout_byte (bf : Bytefile) (i : ℤ) : NoTimeout (bf.byte i) := by
  unfold NoTimeout Bytefile.byte
  split
  · simp
  · split <;> simp

theorem noTimeout_uint16 (bf : Bytefile) (i : ℤ) : NoTimeout (bf.uint16 i) :=
  noTimeout_bind (noTimeout_byte bf i) fun _ =>
    noTimeout_bind (noTimeout_byte bf _) fun _ => noTimeout_pure _

theorem noTimeout_uint32 (bf : Bytefile) (i : ℤ) : NoTimeout (bf.uint32 i) :=
  noTimeout_bind (noTimeout_uint16 bf i) fun _ =>
    noTimeout_bind (noTimeout_uint16 bf _) fun _ => noTimeout_pure _

theorem noTimeout_code32 (bf : Bytefile) (o : ℤ) : NoTimeout (bf.code32 o) :=
  noTimeout_uint32 bf _

theorem noTimeout_publicWord (bf : Bytefile) (i : ℤ) : NoTimeout (bf.publicWord i) :=
  noTimeout_bind (noTimeout_uint32 bf _) fun _ => noTimeout_pure _

theorem noTimeout_stringIs (bf : Bytefile) (s : List ℕ) (pos : ℤ) :
    NoTimeout (bf.stringIs pos s) := by
  induction s generalizing pos with
  | nil => exact noTimeout_bind (noTimeout_byte bf _) fun _ => noTimeout_pure _
  | cons c cs ih =>
    refine noTimeout_bind (noTimeout_byte bf _) fun b => ?_
    split
    · exact ih _
    · exact noTimeout_pure _

theorem noTimeout_isMain (bf : Bytefile) (i : ℕ) : NoTimeout (bf.isMain i) :=
  noTimeout_bind (noTimeout_publicWord bf _) fun _ => noTimeout_stringIs bf _ _

theorem noTimeout_typeAt (bf : Bytefile) (o : ℤ) : NoTimeout (bf.typeAt o) :=
  noTimeout_bind (noTimeout_byte bf _) fun _ => noTimeout_pure _

theorem noTimeout_generalByterun (bf : Bytefile) (i : ℕ) : NoTimeout (generalByterun bf i) := by
  refine noTimeout_bind (noTimeout_typeAt bf i) fun t => ?_
  cases t
  case closure => exact noTimeout_bind (noTimeout_code32 bf _) fun _ => noTimeout_pure _
  case other => exact noTimeout_throw (by simp)
  all_goals exact noTimeout_pure _

theorem noTimeout_getNewStack (bf : Bytefile) (d o : ℕ) (t : InstructionType) :
    NoTimeout (getNewStack bf d o t) := by
  have harg : ∀ (p : ℤ) (f : ℕ → ℕ), NoTimeout (bf.code32 p >>= fun w => pure (f w)) :=
    fun p f => noTimeout_bind (noTimeout_code32 bf p) fun _ => noTimeout_pure _
  cases t
  case sexp => exact harg _ _
  case callArray => exact harg _ _
  case call => exact harg _ _
  case callc => exact harg _ _
  case patt =>
    refine noTimeout_bind (noTimeout_bind (noTimeout_byte bf _) fun _ => noTimeout_pure _)
      fun b => ?_
    cases Patt.ofByte b <;> first | exact noTimeout_pure _ | exact noTimeout_throw (by simp)
  case ret => exact noTimeout_throw (by simp)
  case other => exact noTimeout_throw (by simp)
  all_goals exact noTimeout_pure _

theorem noTimeout_checkArgNumber (bf : Bytefile) (o : ℕ) (d : ℤ) (t : InstructionType) :
    NoTimeout (checkArgNumber bf o d t) := by
  have hcheck : ∀ n : ℕ, NoTimeout (if toU32 d < n then throw (Fault.runtimeError
      s!"argument number of instruction at offset {o} is too large") else (pure () : Result Unit)) := by
    intro n
    split
    · exact noTimeout_throw (by simp)
    · exact noTimeout_pure _
  cases t
  case callc => exact noTimeout_bind (noTimeout_code32 bf _) hcheck
  case array => exact noTimeout_bind (noTimeout_code32 bf _) hcheck
  case sexp => exact noTimeout_bind (noTimeout_code32 bf _) hcheck
  case call => exact noTimeout_bind (noTimeout_code32 bf _) hcheck
  all_goals exact noTimeout_pure _

theorem noTimeout_lowBitsAt (bf : Bytefile) (o : ℤ) : NoTimeout (bf.lowBitsAt o) :=
  noTimeout_bind (noTimeout_byte bf _) fun _ => noTimeout_pure _

theorem noTimeout_validateVariable (bf : Bytefile) (d : MemVar) (index args locals : ℕ) :
    NoTimeout (validateVariable bf d index args locals) := by
  have hcheck : ∀ (p : Prop) [Decidable p] (what : String), NoTimeout
      (if p then throw (Fault.runtimeError what) else (pure () : Result Unit)) := by
    intro p _ what
    split
    · exact noTimeout_throw (by simp)
    · exact noTimeout_pure _
  cases d
  case closure => exact noTimeout_pure _
  case other => exact noTimeout_throw (by simp)
  all_goals exact hcheck _ _

theorem noTimeout_validateDesignations (bf : Bytefile) (args locals : ℕ) : ∀ (n : ℕ) (ptr : ℤ),
    NoTimeout (validateDesignations bf args locals n ptr)
  | 0, _ => noTimeout_pure _
  | n + 1, ptr => noTimeout_bind (noTimeout_bind (noTimeout_byte bf _) fun _ =>
      noTimeout_bind (noTimeout_code32 bf _) fun _ => noTimeout_pure _) fun _ =>
        noTimeout_bind (noTimeout_validateVariable bf _ _ _ _) fun _ =>
          noTimeout_validateDesignations bf args locals n (ptr + 5)

theorem noTimeout_back (st : Sweep) : NoTimeout st.back := by
  unfold Sweep.back
  split
  · exact noTimeout_throw (by simp)
  · exact noTimeout_pure _

theorem noTimeout_sweepChecks (type : InstructionType) (st : Sweep) :
    NoTimeout (sweepChecks type st) := by
  have hvar : NoTimeout (sweepChecks .ld st) := noTimeout_bind (noTimeout_back st) fun _ =>
    noTimeout_bind (noTimeout_code32 _ _) fun _ => noTimeout_bind (noTimeout_code32 _ _) fun _ =>
      noTimeout_bind (noTimeout_code32 _ _) fun _ => noTimeout_bind (noTimeout_lowBitsAt _ _) fun _ =>
        noTimeout_bind (noTimeout_validateVariable _ _ _ _ _) fun _ => noTimeout_pure _
  have hjump : NoTimeout (sweepChecks .jmp st) :=
    noTimeout_bind (noTimeout_code32 _ _) fun _ => by
      split
      · exact noTimeout_bind (noTimeout_throw (by simp)) fun _ => noTimeout_pure _
      · exact noTimeout_bind (noTimeout_pure _) fun _ => noTimeout_pure _
  cases type
  case «end» =>
    exact noTimeout_bind (noTimeout_back st) fun _ => noTimeout_bind (noTimeout_uint16 _ _) fun _ => by
      split
      · exact noTimeout_bind (noTimeout_throw (by simp)) fun _ => noTimeout_pure _
      · exact noTimeout_bind (noTimeout_pure _) fun _ => noTimeout_pure _
  case ld | st | lda => exact hvar
  case closure =>
    exact noTimeout_bind (noTimeout_back st) fun _ => noTimeout_bind (noTimeout_code32 _ _) fun _ =>
      noTimeout_bind (noTimeout_code32 _ _) fun _ => noTimeout_bind (noTimeout_code32 _ _) fun _ =>
        noTimeout_bind (noTimeout_validateDesignations _ _ _ _ _) fun _ => noTimeout_pure _
  case call | jmp | cjmpz | cjmpnz => exact hjump
  all_goals exact noTimeout_pure _

theorem noTimeout_sweepInstruction (visited : List ℤ) (st : Sweep) :
    NoTimeout (sweepInstruction visited st) := by
  refine noTimeout_bind (noTimeout_generalByterun _ _) fun ⟨nxt, type⟩ => ?_
  dsimp only
  split
  · exact noTimeout_throw (by simp)
  · split
    · exact noTimeout_pure _
    · exact noTimeout_bind (noTimeout_sweepChecks _ _) fun _ => noTimeout_pure _

end NoTimeout

end LamaSM
