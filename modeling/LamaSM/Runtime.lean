import LamaSM.State

/-! The functions of the Lama runtime the interpreter calls (`runtime/runtime.c`).

    `args` of a function that takes an array is the slot of `args[0]`. `__gc_stack_top` is never 0
    while the interpreter runs, so `PRE_GC` and `POST_GC` do nothing. -/

namespace LamaSM
open Lib

/-- A truth value as the macro `BOX` leaves it. -/
def boxBool (b : Bool) : Word := boxInt (if b then 1 else 0)

/-- A byte converted to a signed `char`. -/
def signedChar (b : UInt8) : ℤ := if b.toNat < 128 then b.toNat else b.toNat - 256

/-! ### Contents of objects -/

/-- `strcmp (a, b) == 0` on the bytes from two addresses on; none when it runs past their end. -/
def strcmpEq : List UInt8 → List UInt8 → Option Bool
  | a :: as, b :: bs => if a ≠ b then some false else if a = 0 then some true else strcmpEq as bs
  | _, _ => none

/-- `Llength` -/
def Llength (p : Word) : Exec Word := do
  let o ← getObj p
  return boxInt o.len

/-- The i-th word of the contents of an object, the i-th character of a string. -/
def Obj.elem (o : Obj) (i : ℤ) : Option Word :=
  if i < 0 then none
  else match o with
    | .string contents => contents[i.toNat]?.map fun c => boxInt (signedChar c)
    | .sexp _ fields => fields[i.toNat]?
    | .array elems => elems[i.toNat]?
    | .closure entry captured => (entry :: captured)[i.toNat]?

/-- `Belem` -/
def Belem (p i : Word) : Exec Word := do
  let o ← getObj p
  match o.elem (unbox i) with
  | some w => return w
  | none => throw (.undefined (.object p.toNat))

/-- The object with the i-th word or character of its contents replaced, if there is one. -/
def Obj.put (o : Obj) (i : ℤ) (v : Word) : Option Obj :=
  if i < 0 then none
  else match o with
    | .string contents =>
      if i.toNat < contents.length then
        some (.string (contents.set i.toNat (UInt8.ofNat (unbox v % 256).toNat)))
      else none
    | .sexp tag fields =>
      if i.toNat < fields.length then some (.sexp tag (fields.set i.toNat v)) else none
    | .array elems =>
      if i.toNat < elems.length then some (.array (elems.set i.toNat v)) else none
    | .closure entry captured =>
      match i.toNat with
      | 0 => some (.closure v captured)
      | k + 1 => if k < captured.length then some (.closure entry (captured.set k v)) else none

/-- The word whose bytes in memory these are. -/
def wordOfBytes : List UInt8 → Word
  | [] => 0
  | b :: bs => BitVec.ofNat 64 (b.toNat + 2 ^ 8 * (wordOfBytes bs).toNat)

/-- The bytes of the first word of a string: the contents, and behind them the slack. -/
def firstBytes (contents : List UInt8) (slack : ℕ → UInt8) : List UInt8 :=
  (List.range 8).map fun i => contents.getD i (slack i)

/-- `*ptr` for an operand used as a pointer: a slot of the stack, or the first word of an object. -/
def loadWord (M : Machine) (ptr : Word) : Exec Word := fun s =>
  match M.slotOf ptr with
  | some i =>
    if 0 ≤ i ∧ i < M.maxStack then .ok (s.stack i) s
    else loadObj s
  | none => loadObj s
where
  loadObj (s : State) : EStateM.Result Fault State Word :=
    match s.heap ptr with
    | some (.array (w :: _)) => .ok w s
    | some (.sexp tag _) => .ok tag s
    | some (.closure entry _) => .ok entry s
    | some (.string (b :: bs)) => .ok (wordOfBytes (firstBytes (b :: bs) (s.slack ptr))) s
    | _ => .error (.undefined (.object ptr.toNat)) s

/-- The contents of a string with the bytes of its first word overwritten, -/
def putFirst (w : Word) (contents : List UInt8) : List UInt8 :=
  (wordBytes w ++ contents.drop 8).take contents.length

/-- and what lies behind them. -/
def putSlack (w : Word) (contents : List UInt8) (slack : ℕ → UInt8) : ℕ → UInt8 := fun i =>
  if contents.length ≤ i then (wordBytes w).getD i (slack i) else slack i

/-- `*ptr = w` for an operand used as a pointer. -/
def storeWord (M : Machine) (ptr w : Word) : Exec Unit := fun s =>
  match M.slotOf ptr with
  | some i =>
    if 0 ≤ i ∧ i < M.maxStack then .ok () { s with stack := Function.update s.stack i w }
    else storeObj s
  | none => storeObj s
where
  storeObj (s : State) : EStateM.Result Fault State Unit :=
    match s.heap ptr with
    | some (.array (_ :: ws)) => setObj ptr (.array (w :: ws)) s
    | some (.sexp _ fields) => setObj ptr (.sexp w fields) s
    | some (.closure _ captured) => setObj ptr (.closure w captured) s
    | some (.string (b :: bs)) => .ok () { s with
        heap := Function.update s.heap ptr (some (.string (putFirst w (b :: bs))))
        slack := Function.update s.slack ptr (putSlack w (b :: bs) (s.slack ptr)) }
    | _ => .error (.undefined (.object ptr.toNat)) s

/-- `Bsta` -/
def Bsta (M : Machine) (x i v : Word) : Exec Word := do
  if isBoxedInt i then do
    let o ← getObj x
    match o.put (unbox i) v with
    | some o' => do
      setObj x o'
      return v
    | none => throw (.undefined (.object x.toNat))
  else do
    storeWord M x v
    return v

/-! ### Tags and patterns -/

/-- `chars` -/
def chars : List UInt8 :=
  [95, 97, 98, 99, 100, 101, 102, 103, 104, 105, 106, 107, 108, 109, 110, 111, 112, 113, 114, 115,
   116, 117, 118, 119, 120, 121, 122, 65, 66, 67, 68, 69, 70, 71, 72, 73, 74, 75, 76, 77, 78, 79, 80,
   81, 82, 83, 84, 85, 86, 87, 88, 89, 90, 48, 49, 50, 51, 52, 53, 54, 55, 56, 57, 39]

/-- `MAX_SEXP_TAGLEN` -/
def maxSexpTaglen : ℕ := 10

/-- Characters as they are printed. -/
def asText (name : List UInt8) : String := String.ofList (name.map fun c => Char.ofNat c.toNat)

/-- The loop of `LtagHash` over the characters of the name. -/
def tagHashLoop : List UInt8 → ℕ → Result ℕ
  | [], h => return h
  | c :: cs, h =>
    match chars.idxOf? c with
    | some pos => tagHashLoop cs (h * 64 + pos)
    | none => throw (.exit s!"*** FAILURE: tagHash: character not found: {asText [c]}\n")

/-- `de_hash`; ten characters hold every value `LtagHash` passes. -/
def deHash : ℕ → ℕ → List UInt8 → List UInt8
  | 0, _, buf => buf
  | fuel + 1, n, buf => if n = 0 then buf else deHash fuel (n / 64) (chars.getD (n % 64) 0 :: buf)

/-- `LtagHash` on the characters of a C string. -/
def tagHash (name : List UInt8) : Result Word := do
  let h ← tagHashLoop (name.take maxSexpTaglen) 0
  if name.take maxSexpTaglen ≠ deHash maxSexpTaglen h [] then
    throw (.exit s!"*** FAILURE: {asText name} <-> {asText (deHash maxSexpTaglen h [])}\n")
  else return boxInt h

/-- `LtagHash` -/
def LtagHash (s : Word) : Exec Word := do
  let o ← getObj s
  if 0 ∉ o.bytes then throw (.undefined (.object s.toNat))
  else match tagHash (o.bytes.takeWhile (· ≠ 0)) with
    | .ok h => return h
    | .error e => throw e

/-- `Btag` -/
def Btag (d t n : Word) : Exec Word := do
  if isBoxedInt d then return boxInt 0
  else do
    let o ← getObj d
    match o with
    | .sexp tag fields =>
      return boxBool (tag == BitVec.ofInt 64 (unbox t) && (fields.length : ℤ) == unbox n)
    | _ => return boxInt 0

/-- `Barray_patt`, which its caller declares with an `int` second argument. -/
def BarrayPatt (d n : Word) : Exec Word := do
  if isBoxedInt d then return boxInt 0
  else do
    let o ← getObj d
    match o with
    | .array elems => return boxBool ((elems.length : ℤ) == unbox (BitVec.ofInt 64 (toI32 n.toInt)))
    | _ => return boxInt 0

/-- `Bstring_patt` -/
def BstringPatt (x y : Word) : Exec Word := do
  if isBoxedInt x then return boxInt 0
  else do
    let rx ← getObj x
    match rx with
    | .string contents => do
      let ry ← getObj y
      match strcmpEq contents ry.bytes with
      | some b => return boxBool b
      | none => throw (.undefined (.object y.toNat))
    | _ => return boxInt 0

/-- `Bclosure_tag_patt`, `Barray_tag_patt`, `Bstring_tag_patt` and `Bsexp_tag_patt` test the tag of an
    object. -/
def tagPatt (test : Obj → Bool) (x : Word) : Exec Word := do
  if isBoxedInt x then return boxInt 0
  else do
    let o ← getObj x
    return boxBool (test o)

/-- `Bclosure_tag_patt` -/
def BclosureTagPatt : Word → Exec Word := tagPatt fun
  | .closure _ _ => true
  | _ => false

/-- `Barray_tag_patt` -/
def BarrayTagPatt : Word → Exec Word := tagPatt fun
  | .array _ => true
  | _ => false

/-- `Bstring_tag_patt` -/
def BstringTagPatt : Word → Exec Word := tagPatt fun
  | .string _ => true
  | _ => false

/-- `Bsexp_tag_patt` -/
def BsexpTagPatt : Word → Exec Word := tagPatt fun
  | .sexp _ _ => true
  | _ => false

/-- `Bboxed_patt` -/
def BboxedPatt (x : Word) : Word := boxBool (!isBoxedInt x)

/-- `Bunboxed_patt` -/
def BunboxedPatt (x : Word) : Word := boxBool (isBoxedInt x)

/-! ### Construction of objects -/

section Construction

variable {M : Machine} (E : Env M)

/-- `Bstring` on the characters of a C string, with `args[0]` in a cell outside the stack: a pointer
    that is not null and does not lead into the heap. -/
def Bstring (id : ℕ) (bytes : List UInt8) : Exec Word := do
  pushExtraRoot (.cell id 1)
  let s ← alloc E
  popExtraRoot (.cell id 1)
  setObj s (.string (bytes ++ [0]))
  return s

/-- `Lstring`, with `args` pointing to `ref` -/
def Lstring (ref : RootRef) (arg : Word) : Exec Word := do
  let s ← get
  match E.printValue s.heap s.slack arg with
  | .error e => throw e
  | .ok content => do
    pushExtraRoot ref
    let r ← Bstring E 1 content
    popExtraRoot ref
    return r

/-- The words `args[0]`, `args[1]`, … -/
def readArgs (M : Machine) : List ℤ → Exec (List Word)
  | [] => return []
  | i :: is => do
    let w ← readOperand M i
    let ws ← readArgs M is
    return w :: ws

/-- The slots of `args[i]`, …, `args[i + n - 1]`. -/
def argSlots (args : ℤ) (i n : ℕ) : List ℤ := (List.range n).map fun k : ℕ => args + i + k

/-- `Barray` -/
def Barray (args : ℤ) (n : ℕ) : Exec Word := do
  let slots := argSlots args 0 n
  pushExtraRoots (slots.map .slot)
  let r ← alloc E
  let elems ← readArgs M slots
  popExtraRoots (slots.reverse.map .slot)
  setObj r (.array elems)
  return r

/-- `Bclosure` -/
def Bclosure (args : ℤ) (n : ℕ) : Exec Word := do
  let slots := argSlots args 1 n
  pushExtraRoots (slots.map .slot)
  let r ← alloc E
  let entry ← readOperand M args
  let captured ← readArgs M slots
  popExtraRoots (slots.reverse.map .slot)
  setObj r (.closure entry captured)
  return r

/-- `Bsexp`; the fields are stored last to first. With `n = 0` the tag is written behind an object of
    no size. -/
def Bsexp (args : ℤ) (n : ℕ) : Exec Word := do
  let slots := argSlots args 1 (n - 1)
  pushExtraRoots (slots.map .slot)
  let r ← alloc E
  if n = 0 then throw (.undefined (.object r.toNat))
  else do
    let fields ← readArgs M slots
    let tag ← readOperand M args
    popExtraRoots (slots.reverse.map .slot)
    setObj r (.sexp (BitVec.ofInt 64 (unbox tag)) fields.reverse)
    return r

end Construction

/-! ### Input and output -/

/-- `Lread` -/
def Lread {M : Machine} (E : Env M) : Exec Word := fun s =>
  .ok (boxInt (E.input s.reads).toInt) { s with reads := s.reads + 1 }

/-- `Lwrite` -/
def Lwrite (n : Word) : Exec Unit := fun s => .ok () { s with output := s.output ++ [unbox n] }

end LamaSM
