import LamaSM.Decoding

/-! The verifier (`src/verifier/Verifier.hpp`).

    `collectMarks` computes for every offset it reaches the depth of the operand stack there, -1
    elsewhere. `verify` then sweeps the code once from offset 0, checks operands of the marked
    instructions and writes the largest depth of a function into the upper half of the first operand
    of its BEGIN.

    The two nested loops of `collect_marks` are one loop over `cur`: none when a label is to be
    taken from the queue, the next instruction and its depth inside the inner loop. The sweep of
    `verify` gets a bound on its turns, since it need not end (a CLOSURE may lead backwards). -/

namespace LamaSM
open Lib

/-- `get_new_stack`: the depth after the instruction, in `uint32_t` arithmetic. -/
def getNewStack (bf : Bytefile) (curStack symbolOffset : ℕ) (type : InstructionType) :
    Result ℕ :=
  match type with
  | .binop => return toU32 (curStack - 1)
  | .const => return toU32 (curStack + 1)
  | .sexp => do
    let argNum ← bf.code32 (symbolOffset + 1 + 4)
    return toU32 (curStack + 1 - argNum)
  | .jmp => return curStack
  | .cjmpz | .cjmpnz | .drop => return toU32 (curStack - 1)
  | .dup | .ld => return toU32 (curStack + 1)
  | .st => return curStack
  | .callRead => return toU32 (curStack + 1)
  | .callWrite => return curStack
  | .callLength => return curStack
  | .callString => return toU32 (curStack + 1)
  | .callArray => do
    let argNum ← bf.code32 (symbolOffset + 1)
    return toU32 (curStack + 1 - argNum)
  | .cbegin | .begin => return curStack
  | .call => do
    let argNum ← bf.code32 (symbolOffset + 1 + 4)
    return toU32 (curStack + 1 - argNum)
  | .end => return curStack
  | .elem => return toU32 (curStack - 1)
  | .tag => return curStack
  | .array => return curStack
  | .fail => return curStack
  | .line => return curStack
  | .string => return toU32 (curStack + 1)
  | .swap => return curStack
  | .sta => return toU32 (curStack - 2)
  | .sti => return toU32 (curStack - 1)
  | .lda => return toU32 (curStack + 1)
  | .closure => return toU32 (curStack + 1)
  | .callc => do
    let argNum ← bf.code32 (symbolOffset + 1)
    return toU32 (curStack - argNum)
  | .patt => do
    let lowBitsInst ← bf.lowBitsAt symbolOffset
    match Patt.ofByte lowBitsInst with
    | .strCmp => return toU32 (curStack - 1)
    | .closure | .boxed | .unBoxed | .array | .string | .sexp => return curStack
    | .other _ => throw (.runtimeError "Invalid patt instruction lower bits.")
  | .ret | .other _ => throw (.runtimeError "Uncreachable")

/-- The argument-count test `collect_marks` makes before it computes the new depth; an `int32_t`
    depth is compared as unsigned. -/
def checkArgNumber (bf : Bytefile) (symbolOffset : ℕ) (curStack : ℤ) (type : InstructionType) :
    Result Unit :=
  let check (argNum : ℕ) : Result Unit :=
    if toU32 curStack < argNum then
      throw (.runtimeError s!"argument number of instruction at offset {symbolOffset} is too large")
    else return ()
  match type with
  | .callc | .array => do
    let argNum ← bf.code32 (symbolOffset + 1)
    check argNum
  | .sexp | .call => do
    let argNum ← bf.code32 (symbolOffset + 1 + 4)
    check argNum
  | _ => return ()

/-- What `collect_marks` works on: the depth of each offset and the queue of labels. -/
structure Marks where
  visited : List ℤ
  labels : List ℕ
  deriving DecidableEq, Repr

/-- `perform_step` -/
def performStep (nxtOffset stack : ℕ) (m : Marks) : Result Marks :=
  match m.visited[nxtOffset]? with
  | none => throw (.undefined (.visited nxtOffset))
  | some v =>
    if v = -1 then
      return { visited := m.visited.set nxtOffset (toI32 stack), labels := m.labels ++ [nxtOffset] }
    else if toU32 v ≠ stack then throw (.runtimeError s!"Stack at {nxtOffset} differs")
    else return m

/-- The fallthrough at the end of the inner loop: the next instruction is marked and handled at
    once, without going through the queue. -/
def fallThrough (nxt : ℕ) (curStack : ℤ) (m : Marks) : Result (Marks × Option (ℕ × ℤ)) :=
  match m.visited[nxt]? with
  | none => throw (.undefined (.visited nxt))
  | some v =>
    if v = -1 then return ({ m with visited := m.visited.set nxt curStack }, some (nxt, curStack))
    else if v ≠ curStack then throw (.runtimeError s!"Stack at {nxt} differs")
    else return (m, none)

/-- The end of the inner loop of `collect_marks`: the successors of the instruction are marked. A
    jump leaves the loop, an ordinary instruction goes on to the next one. -/
def markSuccessors (bf : Bytefile) (symbolOffset nxt : ℕ) (type : InstructionType)
    (curStack : ℤ) (m : Marks) : Result (Marks × Option (ℕ × ℤ)) :=
  match type with
  | .cjmpz | .cjmpnz => do
    let labelArg ← bf.code32 (symbolOffset + 1)
    let m ← performStep labelArg (toU32 curStack) m
    let m ← performStep nxt (toU32 curStack) m
    return (m, none)
  | .call => do
    let labelArg ← bf.code32 (symbolOffset + 1)
    let m ← performStep labelArg 0 m
    let m ← performStep nxt (toU32 curStack) m
    return (m, none)
  | .jmp => do
    let labelArg ← bf.code32 (symbolOffset + 1)
    let m ← performStep labelArg (toU32 curStack) m
    return (m, none)
  | .end | .fail | .ret => return (m, none)
  | _ => fallThrough nxt curStack m

/-- One turn of the inner loop of `collect_marks`, with the instruction it goes on to, if any. -/
def visitInstruction (bf : Bytefile) (symbolOffset : ℕ) (curStack : ℤ) (m : Marks) :
    Result (Marks × Option (ℕ × ℤ)) := do
  let (nxt, type) ← generalByterun bf symbolOffset
  checkArgNumber bf symbolOffset curStack type
  let newStack ← getNewStack bf (toU32 curStack) symbolOffset type
  let curStack := toI32 newStack
  if curStack < 0 then throw (.runtimeError s!"Stack is exhausted at {symbolOffset}")
  else markSuccessors bf symbolOffset nxt type curStack m

/-- The loops of `collect_marks`; `pick` is the order in which labels leave the queue. -/
def marksLoop (pick : List ℕ → List ℕ) (bf : Bytefile) : ℕ → Marks → Option (ℕ × ℤ) →
    Result (List ℤ)
  | 0, _, _ => throw .timeout
  | fuel + 1, m, some (symbolOffset, curStack) => do
    let (m, cur) ← visitInstruction bf symbolOffset curStack m
    marksLoop pick bf fuel m cur
  | fuel + 1, m, none =>
    match pick m.labels with
    | [] => return m.visited
    | symbolOffset :: rest =>
      match m.visited[symbolOffset]? with
      | none => throw (.undefined (.visited symbolOffset))
      | some curStack =>
        marksLoop pick bf fuel { m with labels := rest } (some (symbolOffset, curStack))

/-- The first loop of `collect_marks`: every public symbol named main becomes a label. -/
def seedMarks (bf : Bytefile) : List ℕ → Marks → Result Marks
  | [], m => return m
  | i :: is, m => do
    let symbolOffset ← bf.getPublicOffset i
    let isMain ← bf.isMain i
    if !isMain then seedMarks bf is m
    else if symbolOffset < 0 then throw (.undefined (.visited symbolOffset))
    else match m.visited[symbolOffset.toNat]? with
      | none => throw (.undefined (.visited symbolOffset))
      | some v =>
        if v = -1 then
          seedMarks bf is { visited := m.visited.set symbolOffset.toNat 0
                            labels := m.labels ++ [symbolOffset.toNat] }
        else seedMarks bf is m

/-- `collect_marks`, with the order of the queue left open. Twice the code size bounds the turns of
    its loops. -/
def collectMarksBy (pick : List ℕ → List ℕ) (bf : Bytefile) : Result (List ℤ) :=
  if bf.codeSize < 0 then throw (.logicError "cannot create std::vector larger than max_size()")
  else do
    let visited := List.replicate bf.codeSize.toNat (-1)
    let m ← seedMarks bf (List.range bf.publicSymbolsNumber.toNat) { visited, labels := [] }
    marksLoop pick bf (2 * bf.codeSize.toNat + 1) m none

/-- `collect_marks`: a `std::queue` is first in, first out. -/
def collectMarks (bf : Bytefile) : Result (List ℤ) := collectMarksBy id bf

/-- `validate_variable` -/
def validateVariable (bf : Bytefile) (designation : MemVar) (index args locals : ℕ) :
    Result Unit :=
  match designation with
  | .global =>
    if toU32 bf.globalAreaSize ≤ index then
      throw (.runtimeError s!"Global variable {index} out of bounds {bf.globalAreaSize}")
    else return ()
  | .local =>
    if locals ≤ index then throw (.runtimeError s!"Local variable {index} out of bounds")
    else return ()
  | .argument =>
    if args ≤ index then throw (.runtimeError s!"Argument {index} out of bounds")
    else return ()
  | .closure => return ()
  | .other raw => throw (.runtimeError s!"Unknown designation {Char.ofNat raw}")

/-- The loop of `verify` over the captured variables of a CLOSURE, at `ptr` and after. -/
def validateDesignations (bf : Bytefile) (args locals : ℕ) : ℕ → ℤ → Result Unit
  | 0, _ => return ()
  | n + 1, ptr => do
    let designation ← bf.designation ptr
    validateVariable bf designation.memVar designation.value args locals
    validateDesignations bf args locals n (ptr + 5)

/-- What the second pass of `verify` works on; the last element of `begin_offsets` comes first. -/
structure Sweep where
  bf : Bytefile
  symbolOffset : ℕ
  maxStack : ℤ
  beginOffsets : List ℕ

/-- `begin_offsets.back ()` -/
def Sweep.back (st : Sweep) : Result ℕ :=
  match st.beginOffsets with
  | [] => throw (.undefined .beginOffsets)
  | b :: _ => return b

/-- The checks of one marked instruction in the second pass, and what they write. -/
def sweepChecks (type : InstructionType) (st : Sweep) : Result Sweep :=
  match type with
  | .end => do
    let beginOffset ← st.back
    let w ← st.bf.code16 (beginOffset + 1 + 2)
    if w ≠ 0 then throw (.runtimeError
      s!"Could not encode max_stack: too many arguments at the basic block {st.symbolOffset}")
    return { st with
      bf := st.bf.setCode16 (beginOffset + 1 + 2) (toU16 st.maxStack)
      beginOffsets := st.beginOffsets.tail
      maxStack := -1 }
  | .begin | .cbegin => return { st with beginOffsets := st.symbolOffset :: st.beginOffsets }
  | .ld | .st | .lda => do
    let beginOffset ← st.back
    let nArgs ← st.bf.code32 (beginOffset + 1)
    let nLocals ← st.bf.code32 (beginOffset + 1 + 4)
    let arg ← st.bf.code32 (st.symbolOffset + 1)
    let lowBits ← st.bf.lowBitsAt st.symbolOffset
    validateVariable st.bf (MemVar.ofByte lowBits) arg nArgs nLocals
    return st
  | .closure => do
    let beginOffset ← st.back
    let nArgs ← st.bf.code32 (beginOffset + 1)
    let nLocals ← st.bf.code32 (beginOffset + 1 + 4)
    let nArgsClosure ← st.bf.code32 (st.symbolOffset + 1 + 4)
    validateDesignations st.bf nArgs nLocals nArgsClosure (st.symbolOffset + 1 + 4 + 4)
    return st
  | .call | .jmp | .cjmpz | .cjmpnz => do
    let jump ← st.bf.code32 (st.symbolOffset + 1)
    if toU32 st.bf.codeSize ≤ jump then throw (.runtimeError
      s!"Jump at {jump} outside of code section {st.bf.codeSize}")
    return st
  | _ => return st

/-- One turn of the second pass at an instruction. -/
def sweepInstruction (visited : List ℤ) (st : Sweep) : Result Sweep := do
  let (nxt, type) ← generalByterun st.bf st.symbolOffset
  match visited[st.symbolOffset]? with
  | none => throw (.undefined (.visited st.symbolOffset))
  | some v =>
    if v = -1 then return { st with symbolOffset := nxt }
    else do
      let st ← sweepChecks type { st with maxStack := max st.maxStack v }
      return { st with symbolOffset := nxt }

/-- The second pass of `verify`. -/
def sweepLoop (visited : List ℤ) : ℕ → Sweep → Result Sweep
  | 0, _ => throw .timeout
  | fuel + 1, st =>
    if toU32 st.bf.codeSize ≤ st.symbolOffset then return st
    else do
      let b ← st.bf.code st.symbolOffset
      if b = 0xFF then return st
      else do
        let st ← sweepInstruction visited st
        sweepLoop visited fuel st

/-- `verify`: the file as the interpreter gets it, when it is accepted within `fuel` turns of the
    second pass. -/
def verify (fuel : ℕ) (bf : Bytefile) : Result Bytefile := do
  let visited ← collectMarks bf
  let st ← sweepLoop visited fuel { bf, symbolOffset := 0, maxStack := 0, beginOffsets := [] }
  return st.bf

end LamaSM
