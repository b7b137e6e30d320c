import LamaSM.Bytefile
import LamaSM.Lib.Exec
import Mathlib.Logic.Function.Basic

/-! Words, addresses and the heap the interpreter runs on (`src/single_interpreters/boxing.hpp`,
    `runtime/runtime_common.h`).

    A word is 64 bits. The Lama stack is an array of words whose slots are numbered from
    `stack_data`; a pointer into it is the address of a slot. Heap objects are kept whole, under the
    address of their contents. Where objects are placed and what a collection does is left open: an
    `Env` chooses, within what the collector guarantees (`Relocates`). -/

namespace LamaSM
open Lib

abbrev Word := BitVec 64

/-- `box_int`, the macro `BOX` -/
def boxInt (v : ℤ) : Word := BitVec.ofInt 64 (2 * v + 1)

/-- `unbox`, the macro `UNBOX`: an arithmetic shift. -/
def unbox (w : Word) : ℤ := w.toInt / 2

/-- `is_boxed_int`, the macro `UNBOXED` -/
def isBoxedInt (w : Word) : Bool := w.toNat % 2 == 1

/-- What lies behind the address of the contents of an object. The contents of a string include the
    closing NUL. -/
inductive Obj
  | string (contents : List UInt8)
  | array (elems : List Word)
  | sexp (tag : Word) (fields : List Word)
  | closure (entry : Word) (captured : List Word)
  deriving DecidableEq, Repr

/-- The words of an object a collection follows and rewrites. The tag of an s-expression and the
    entry of a closure are not among them. -/
def Obj.pointers : Obj → List Word
  | .string _ => []
  | .array elems => elems
  | .sexp _ fields => fields
  | .closure _ captured => captured

/-- The object with its pointers rewritten. -/
def Obj.map (f : Word → Word) : Obj → Obj
  | .string contents => .string contents
  | .array elems => .array (elems.map f)
  | .sexp tag fields => .sexp tag (fields.map f)
  | .closure entry captured => .closure entry (captured.map f)

/-- `LEN` of the header of the object. -/
def Obj.len : Obj → ℕ
  | .string contents => contents.length - 1
  | .array elems => elems.length
  | .sexp _ fields => fields.length
  | .closure _ captured => captured.length + 1

/-- The bytes of a word in memory. -/
def wordBytes (w : Word) : List UInt8 :=
  (List.range 8).map fun i => UInt8.ofNat (w.toNat / 2 ^ (8 * i))

/-- The contents of an object as bytes. -/
def Obj.bytes : Obj → List UInt8
  | .string contents => contents
  | .array elems => elems.flatMap wordBytes
  | .sexp tag fields => (tag :: fields).flatMap wordBytes
  | .closure entry captured => (entry :: captured).flatMap wordBytes

/-- The objects of the heap, by the address of their contents. -/
abbrev Heap := Word → Option Obj

/-- The object can be reached from the roots. -/
inductive Live (h : Heap) (roots : List Word) : Word → Prop
  | root {a : Word} : a ∈ roots → (h a).isSome → Live h roots a
  | pointer {a b : Word} {o : Obj} : Live h roots a → h a = some o → b ∈ o.pointers →
      (h b).isSome → Live h roots b

/-- What a collection makes of a word it visits: the address of an object is replaced. -/
def relocateWord (zone : Word → Bool) (h : Heap) (forward : Word → Word) (w : Word) : Word :=
  if zone w && (h w).isSome then forward w else w

/-- The guarantee of the collector: the objects reachable from the roots, and no others, are moved
    to new addresses outside the old objects, each with its pointers rewritten. -/
structure Relocates (zone : Word → Bool) (h : Heap) (roots : List Word) (h' : Heap)
    (forward : Word → Word) : Prop where
  moved : ∀ a o, Live h roots a → h a = some o →
    h' (forward a) = some (o.map (relocateWord zone h forward))
  only : ∀ b, (h' b).isSome → ∃ a, Live h roots a ∧ forward a = b
  injective : ∀ a b, Live h roots a → Live h roots b → forward a = forward b → a = b
  inZone : ∀ b, (h' b).isSome → zone b
  region : ∀ a, (h a).isSome → h' a = none

/-- The file the interpreter runs and where things lie in memory: `stack_data` begins at word
    `stackWord` and has `maxStack` words, `buffer` is the address of the file's bytes, `heapZone`
    holds of the addresses the heap may come to use. -/
structure Machine where
  bf : Bytefile
  maxStack : ℕ
  stackWord : ℕ
  buffer : ℕ
  heapZone : Word → Bool
  stackWord_pos : 0 < stackWord
  stack_lt : 8 * (stackWord + maxStack + 2 ^ 34) ≤ 2 ^ 64
  buffer_pos : 0 < buffer
  buffer_lt : buffer + bf.bytes.length < 2 ^ 64
  zone_even : ∀ w, heapZone w → w.toNat % 2 = 0
  zone_stack : ∀ w, heapZone w → w.toNat < 8 * stackWord ∨ 8 * (stackWord + maxStack) < w.toNat
  zone_buffer : ∀ w, heapZone w → w.toNat < buffer ∨ buffer + bf.bytes.length < w.toNat
  zone_null : heapZone 0 = false

namespace Machine

variable (M : Machine)

/-- The address of a slot. -/
def slotAddr (i : ℤ) : Word := BitVec.ofInt 64 (8 * (M.stackWord + i))

/-- The slot an address points to. -/
def slotOf (w : Word) : Option ℤ :=
  if w.toNat % 8 = 0 then some ((w.toNat / 8 : ℕ) - M.stackWord) else none

/-- The slot a null pointer stands for. -/
def nullSlot : ℤ := -M.stackWord

/-- The address of the code byte at offset `o`. -/
def codeAddr (o : ℤ) : Word := BitVec.ofInt 64 (M.buffer + M.bf.codePtr + o)

/-- The offset of a code address. -/
def codeOffset (w : Word) : ℤ := w.toNat - M.buffer - M.bf.codePtr

/-- Odd words are no heap addresses. -/
theorem zone_one : M.heapZone 1 = false := by
  by_contra h
  exact absurd (M.zone_even 1 (by simpa using h)) (by decide)

end Machine

/-- What the program does not decide: the numbers it reads, the words of `new uint64_t[max_stack]`,
    the text `printValue` makes of a value of a heap with its slack, where the k-th allocated object is
    placed (none when `mmap` fails), whether the k-th allocation starts with a collection and what it does,
    and the bytes a collection leaves behind the contents of the strings. -/
structure Env (M : Machine) where
  input : ℕ → Word
  initStack : ℤ → Word
  printValue : Heap → (Word → ℕ → UInt8) → Word → Result (List UInt8)
  place : ℕ → Heap → Option Word
  collect : ℕ → Heap → List Word → Option (Heap × (Word → Word))
  slack : ℕ → Word → ℕ → UInt8
  place_free : ∀ k h a, place k h = some a → M.heapZone a ∧ h a = none
  collect_relocates : ∀ k h roots h' forward, collect k h roots = some (h', forward) →
    Relocates M.heapZone h roots h' forward

/-! ### A memory layout -/

/-- A machine for a file and a stack of ordinary size: the file below the stack, the heap above. -/
def Machine.layout (bf : Bytefile) (maxStack : ℕ) (hfile : bf.bytes.length ≤ 2 ^ 32)
    (hstack : maxStack ≤ 2 ^ 32) : Machine where
  bf := bf
  maxStack := maxStack
  stackWord := 2 ^ 40
  buffer := 8
  heapZone := fun w => w.toNat % 2 == 0 && 2 ^ 50 ≤ w.toNat
  stackWord_pos := by decide
  stack_lt := by omega
  buffer_pos := by decide
  buffer_lt := by omega
  zone_even := fun w h => by simp at h; omega
  zone_stack := fun w h => by simp at h; omega
  zone_buffer := fun w h => by simp at h; omega
  zone_null := by decide

/-- An environment without input that never collects and places the k-th object at `address k`. -/
def Env.bump (M : Machine) (address : ℕ → Word) : Env M where
  input := fun _ => 0
  initStack := fun _ => 0
  printValue := fun _ _ _ => .ok []
  place := fun k h =>
    if M.heapZone (address k) && (h (address k)).isNone then some (address k) else none
  collect := fun _ _ _ => none
  slack := fun _ _ _ => 0
  place_free := fun k h a ha => by
    split at ha
    · rename_i hfree
      cases ha
      simpa using hfree
    · cases ha
  collect_relocates := fun _ _ _ _ _ h => nomatch h

end LamaSM
