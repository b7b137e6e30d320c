import LamaSM.Interpreters
import LamaSM.Lib.Runs

/-! The loop of `interpret` (`src/main.cpp`). -/

namespace LamaSM
open Lib

section Interpret

variable {M : Machine} (E : Env M)

/-- The body of the `switch`: whether the run is over. -/
def dispatch (inst : InstructionType) : Exec Bool :=
  let go (handler : Exec Unit) : Exec Bool := do
    handler
    return false
  match inst with
  | .binop => go (binopInterpreter M)
  | .const => go (stackConst M)
  | .sexp => go (boxingSexp E)
  | .jmp => go (jump M)
  | .cjmpz => go (jumpIfZero M)
  | .cjmpnz => go (jumpIfNotZero M)
  | .drop => go stackDrop
  | .dup => go (stackDup M)
  | .ld => go (memLoad M)
  | .st => go (memStore M)
  | .callRead => go (callRead E)
  | .callWrite => go (callWrite M)
  | .callLength => go (callLength M)
  | .callString => go (callString E)
  | .callArray => go (callArray E)
  | .cbegin | .begin => go (callStackBegin M)
  | .call => go (callStackCall M)
  | .end => callStackEnd M
  | .elem => go (callElem M)
  | .tag => go (unboxingTag M)
  | .array => go (unboxingArray M)
  | .fail => go (helperFail M)
  | .line => go helperLine
  | .string => go (boxingString M)
  | .swap => go (stackSwap M)
  | .sta => go (stackSta M)
  | .sti => go (stackSti M)
  | .lda => go (stackLda M)
  | .closure => go (closuresCreate E)
  | .callc => go (closuresCall M)
  | .patt => go (patt M)
  | .ret | .other _ => throw (.runtimeError "Unknown instruction")

/-- `next_instruction_type` -/
def nextInstruction (M : Machine) : Exec InstructionType := do
  let s ← get
  let b ← readFileByte (M.bf.code s.codePtr)
  return nextInstructionType b

/-- One turn of the loop: whether the run is over. An exception ends the program. -/
def turn : Exec Bool := do
  let inst ← nextInstruction M
  dispatch E inst

/-- `StackMachineState::stack_size`, the capacity `interpret` gives its stack -/
def stackSize : ℕ := 64 * 1024 * 1024

theorem stackSize_le : stackSize ≤ 2 ^ 32 := by decide

/-- What happens before the loop. -/
def enter : Exec Unit := do
  frameStack E
  pushStackFrame M 0 0 0

/-- The state in which the loop starts. -/
def Starts (s : State) : Prop := enter E (emptyState E) = .ok () s

/-- A turn of the loop that goes on. -/
def Step (s s' : State) : Prop := turn E s = .ok false s'

/-- The instruction type at `code_ptr`. -/
def At (M : Machine) (s : State) (type : InstructionType) : Prop :=
  M.bf.typeAt s.codePtr = .ok type

instance (s : State) (type : InstructionType) : Decidable (At M s type) :=
  inferInstanceAs (Decidable (_ = _))

theorem nextInstruction_ok {s s' : State} {type : InstructionType} :
    nextInstruction M s = .ok type s' ↔ At M s type ∧ s' = s := by
  simp only [nextInstruction, exec_bind_ok, exec_get_ok, exec_pure_ok, At, Bytefile.typeAt,
    nextInstructionType_eq]
  cases hb : M.bf.code s.codePtr with
  | ok b =>
    constructor
    · rintro ⟨_, _, ⟨rfl, rfl⟩, c, _, hc, rfl, rfl⟩
      rw [hb] at hc
      cases hc
      exact ⟨rfl, rfl⟩
    · rintro ⟨h, rfl⟩
      cases h
      exact ⟨_, _, ⟨rfl, rfl⟩, b, _, by rw [hb]; rfl, rfl, rfl⟩
  | error e =>
    constructor
    · rintro ⟨_, _, ⟨rfl, rfl⟩, c, _, hc, _⟩
      rw [hb] at hc
      cases hc
    · rintro ⟨h, _⟩
      cases h

/-- A turn runs the handler of the instruction at `code_ptr`. -/
theorem turn_ok {s s' : State} {ended : Bool} :
    turn E s = .ok ended s' ↔ ∃ type, At M s type ∧ dispatch E type s = .ok ended s' := by
  simp only [turn, exec_bind_ok, nextInstruction_ok]
  constructor
  · rintro ⟨type, _, ⟨hat, rfl⟩, h⟩
    exact ⟨type, hat, h⟩
  · rintro ⟨type, hat, h⟩
    exact ⟨type, s, ⟨hat, rfl⟩, h⟩

theorem At.unique {s : State} {t₁ t₂ : InstructionType} (h₁ : At M s t₁) (h₂ : At M s t₂) :
    t₁ = t₂ := by
  unfold At at h₁ h₂
  rw [h₁] at h₂
  exact Except.ok.inj h₂

/-- The state after a turn. -/
def nextState (s : State) : State := finalState (turn E s)

/-- Whether the run is over after a turn; none when the turn fails. -/
def turnResult (s : State) : Option Bool := returned (turn E s)

theorem turn_nextState {s : State} {ended : Bool} (h : turnResult E s = some ended) :
    turn E s = .ok ended (nextState E s) := ok_of_returned h

/-- The state in which the loop starts, when the constructor returns. -/
def startState : State := finalState (enter E (emptyState E))

/-- The constructor returns. -/
def isStarted : Bool := (returned (enter E (emptyState E))).isSome

theorem starts_startState (h : isStarted E = true) : Starts E (startState E) := by
  obtain ⟨⟨⟩, hu⟩ := Option.isSome_iff_exists.mp h
  exact ok_of_returned hu

end Interpret

end LamaSM
