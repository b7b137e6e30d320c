import LamaSM.Decoding

/-! The analyzer's two traversals (`src/analyzer/Analyzer.hpp`).

    `collect_marks` sweeps the code from the public symbols and sets two bits in the byte of an
    offset in `visited`: 4 when the sweep meets it, 2 when a basic block starts there. `analyze` goes
    through the code again, from label to label and on from each instruction to the next; bit 1 says
    that this traversal has met the offset. It records each instruction, and the instruction before
    it in the same block as the first of a pair.

    The loop over `labels` and the loop of `process_label` are one loop over `cur`: none when a label
    is to be taken from the queue, an instruction inside `process_label`. `collect_single` and
    `collect_pairs` stay in the order they are filled in, which `analyze` sorts afterwards. -/

namespace LamaSM
open Lib

/-- `Analyzer`; `prev` is `prev_ptr` as an offset, none unless `prev_initialized`. -/
structure Analyzer where
  collectSingle : List ℕ
  collectPairs : List ℕ
  prev : Option ℕ
  visited : List ℕ
  labels : List ℕ
  deriving DecidableEq, Repr

/-- `visited` with the queue of `collect_marks`. -/
structure LeaderMarks where
  visited : List ℕ
  q : List ℕ
  deriving DecidableEq, Repr

namespace Analyzer

/-- `visited[i]` -/
def visitedAt (visited : List ℕ) (i : ℕ) : Result ℕ :=
  match visited[i]? with
  | none => throw (.undefined (.visited i))
  | some v => return v

/-- `get_public_offset` as an index of `visited`. -/
def symbolOffset (bf : Bytefile) (i : ℕ) : Result ℕ := do
  let o ← bf.getPublicOffset i
  if o < 0 then throw (.undefined (.visited o)) else return o.toNat

/-! ### `collect_marks` -/

/-- The queue gets `idx`, whose bits `bits` are set, unless a bit of `mask` is set already. -/
def push (mask bits idx : ℕ) (m : LeaderMarks) : Result LeaderMarks := do
  let v ← visitedAt m.visited idx
  if v &&& mask = 0 then return { visited := m.visited.set idx (v ||| bits), q := m.q ++ [idx] }
  else return m

/-- The first loop of `collect_marks`. -/
def pushSymbols (bf : Bytefile) : List ℕ → LeaderMarks → Result LeaderMarks
  | [], m => return m
  | i :: is, m => do
    let offset ← symbolOffset bf i
    let m ← push 4 (2 ||| 4) offset m
    pushSymbols bf is m

/-- One turn of the second loop of `collect_marks`, for the offset taken from the queue. -/
def sweepOffset (bf : Bytefile) (idx : ℕ) (m : LeaderMarks) : Result LeaderMarks := do
  let b ← bf.code idx
  if b = 0xFF then return m
  else do
    let (nxt, type) ← generalByterun bf idx
    match type with
    | .jmp => do
      let arg ← bf.code32 (idx + 1)
      push 2 (2 ||| 4) arg m
    | .cjmpz | .cjmpnz | .closure | .call => do
      let arg ← bf.code32 (idx + 1)
      let m ← push 2 (2 ||| 4) arg m
      push 4 (2 ||| 4) nxt m
    | _ => push 4 4 nxt m

/-- The second loop of `collect_marks`; `pick` is the order in which offsets leave the queue. -/
def sweepOffsets (pick : List ℕ → List ℕ) (bf : Bytefile) : ℕ → LeaderMarks → Result (List ℕ)
  | 0, _ => throw .timeout
  | fuel + 1, m =>
    match pick m.q with
    | [] => return m.visited
    | idx :: rest => do
      let m ← sweepOffset bf idx { m with q := rest }
      sweepOffsets pick bf fuel m

/-- `Analyzer::collect_marks`, with the order of the queue and of the public symbols left open. Every
    push sets bit 2 or bit 4 of an offset, so twice the code size bounds the turns of the loop. -/
def collectMarksBy (pick : List ℕ → List ℕ) (symbols : List ℕ) (bf : Bytefile) (a : Analyzer) :
    Result Analyzer := do
  let m ← pushSymbols bf symbols { visited := a.visited, q := [] }
  let visited ← sweepOffsets pick bf (2 * bf.codeSize.toNat + 1) m
  return { a with visited }

/-! ### `analyze` -/

/-- `add_instruction` -/
def addInstruction (cur : ℕ) (a : Analyzer) : Analyzer :=
  { a with
    collectSingle := a.collectSingle ++ [cur]
    collectPairs := a.collectPairs ++ a.prev.toList
    prev := some cur }

/-- `check_label` -/
def checkLabel (label : ℕ) (a : Analyzer) : Result Analyzer := do
  let v ← visitedAt a.visited label
  if v &&& 1 = 0 then
    return { a with labels := a.labels ++ [label], visited := a.visited.set label (v ||| 1) }
  else return a

/-- `check_nxt`, with the instruction the loop goes on to, none when it clears `traverse`. -/
def checkNxt (idx : ℕ) (a : Analyzer) : Result (Analyzer × Option ℕ) := do
  let v ← visitedAt a.visited idx
  if v &&& 1 = 1 then return (a, none)
  else return ({ a with visited := a.visited.set idx (v ||| 1) }, some idx)

/-- The switch of `process_label` on the instruction at `cur`. -/
def processSuccessors (bf : Bytefile) (cur nxt : ℕ) (type : InstructionType) (a : Analyzer) :
    Result (Analyzer × Option ℕ) :=
  match type with
  | .ret | .end => return (a, none)
  | .jmp => do
    let arg ← bf.code32 (cur + 1)
    let a ← a.checkLabel arg
    return (a, none)
  | .cjmpz | .cjmpnz => do
    let arg ← bf.code32 (cur + 1)
    let a ← a.checkLabel arg
    a.checkNxt nxt
  | .call | .closure => do
    let arg1 ← bf.code32 (cur + 1)
    let a ← a.checkLabel arg1
    a.checkNxt nxt
  | .fail => do
    let _ ← bf.code32 (cur + 1)
    return (a, none)
  | _ => a.checkNxt nxt

/-- One turn of the loop of `process_label`. A leader starts a new block. -/
def processInstruction (bf : Bytefile) (cur : ℕ) (a : Analyzer) :
    Result (Analyzer × Option ℕ) := do
  let (nxt, type) ← generalByterun bf cur
  let v ← visitedAt a.visited cur
  let a := if v &&& 2 ≠ 0 then { a with prev := none } else a
  processSuccessors bf cur nxt type (a.addInstruction cur)

/-- The loop of `analyze` over the labels and the loop of `process_label`. -/
def processLabels (pick : List ℕ → List ℕ) (bf : Bytefile) :
    ℕ → Analyzer → Option ℕ → Result Analyzer
  | 0, _, _ => throw .timeout
  | fuel + 1, a, some cur => do
    let (a, cur) ← processInstruction bf cur a
    processLabels pick bf fuel a cur
  | fuel + 1, a, none =>
    match pick a.labels with
    | [] => return a
    | label :: rest =>
      processLabels pick bf fuel { a with labels := rest, prev := none } (some label)

/-- The loop of `analyze` over the public symbols. -/
def checkSymbols (bf : Bytefile) : List ℕ → Analyzer → Result Analyzer
  | [], a => return a
  | i :: is, a => do
    let offset ← symbolOffset bf i
    let a ← a.checkLabel offset
    let v ← visitedAt a.visited offset
    checkSymbols bf is { a with visited := a.visited.set offset (v ||| 2) }

/-- The traversal of `analyze`. Every offset is met once, from the queue or from the instruction
    before, so twice the code size bounds the turns. -/
def traverseBy (pick : List ℕ → List ℕ) (symbols : List ℕ) (bf : Bytefile) (a : Analyzer) :
    Result Analyzer := do
  let a ← checkSymbols bf symbols a
  processLabels pick bf (2 * bf.codeSize.toNat + 1) a none

/-- The constructor: a byte for every offset of the code. -/
def new (bf : Bytefile) : Result Analyzer :=
  if bf.codeSize < 0 then throw (.logicError "cannot create std::vector larger than max_size()")
  else return {
    collectSingle := []
    collectPairs := []
    prev := none
    visited := List.replicate bf.codeSize.toNat 0
    labels := [] }

/-- What `main` does with a bytecode file under `-a`, up to the sorting. -/
def analyzeBy (pick : List ℕ → List ℕ) (symbols : List ℕ) (bf : Bytefile) : Result Analyzer := do
  let a ← new bf
  let a ← collectMarksBy pick symbols bf a
  traverseBy pick symbols bf a

/-- The queues are first in, first out, and the symbols are taken in the order of their table. -/
def analyze (bf : Bytefile) : Result Analyzer :=
  analyzeBy id (List.range bf.publicSymbolsNumber.toNat) bf

end Analyzer

end LamaSM
