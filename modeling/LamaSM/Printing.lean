import LamaSM.Tags
import Mathlib.Data.List.TakeWhile

/-! `printValue` (`runtime/runtime.c`) over the heap of a state: the text `Lstring` and `Bmatch_failure` make
    of a value.

    The function follows the words of a value down and the cells of a list along; it has no bound on either,
    so it returns for the values that unfold to something finite, and for no other. Along a list it takes any
    object for a cell. -/

namespace LamaSM
open Lib

/-! ### The code -/

/-- The characters of a literal. -/
def asBytes (s : String) : List UInt8 := s.toList.map fun c => UInt8.ofNat c.toNat

def digitsText (base n : ℕ) : List UInt8 := (Nat.toDigits base n).map fun c => UInt8.ofNat c.toNat

/-- What the format `%ld` makes of a number -/
def decimal (i : ℤ) : List UInt8 := if i < 0 then asBytes "-" ++ digitsText 10 i.natAbs else digitsText 10 i.natAbs

/-- What the format `0x%x` makes of a word: it takes the lower half for an `unsigned int`. -/
def hexadecimal (w : Word) : List UInt8 := asBytes "0x" ++ digitsText 16 (w.toNat % 2 ^ 32)

/-- The tag of lists -/
def consTag : List UInt8 := asBytes "cons"

/-- The texts with `", "` between them -/
def joined : List (List UInt8) → List UInt8
  | [] => []
  | [text] => text
  | text :: texts => text ++ asBytes ", " ++ joined texts

/-- `contents[i]` of a `sexp *`, whatever the object is: the words behind the first one. A string has its
    bytes there, and the slack that fills the last word up. -/
def Obj.content (slack : ℕ → UInt8) (i : ℕ) : Obj → Option Word
  | .string contents =>
    if 8 * (i + 1) < contents.length then
      some (wordOfBytes (firstBytes (contents.drop (8 * (i + 1))) fun k => slack (8 * (i + 1) + k)))
    else none
  | .array elems => elems[i + 1]?
  | .sexp _ fields => fields[i]?
  | .closure _ captured => captured[i]?

/-- What the object at `a` must have. -/
def within {α : Type} (a : Word) : Option α → Result α
  | some x => return x
  | none => throw (.undefined (.object a.toNat))

section Code

variable (value : Word → Result (List UInt8)) (h : Heap) (slack : Word → ℕ → UInt8)

/-- The loop of `printValue` along a list, from the object `o` at `sb` on. The header of the next object is
    looked at for its `LEN` only. -/
def listText : ℕ → Word → Obj → Result (List UInt8)
  | 0, _, _ => throw .timeout
  | turns + 1, sb, o =>
    if o.len = 0 then return []
    else do
      let x ← within sb (o.content (slack sb) 0)
      let text ← value x
      let listNext ← within sb (o.content (slack sb) 1)
      if isBoxedInt listNext then return text
      else do
        let next ← within listNext (h listNext)
        let rest ← listText turns listNext next
        return text ++ asBytes ", " ++ rest

/-- The cases of `printValue` on the object at `p`, with `value` for the calls of itself. -/
def objectText (turns : ℕ) (p : Word) : Obj → Result (List UInt8)
  | .string contents =>
    if 0 ∈ contents then return asBytes "\"" ++ contents.takeWhile (· ≠ 0) ++ asBytes "\""
    else throw (.undefined (.object contents.length))
  | .closure entry captured => do
    let texts ← captured.mapM value
    return asBytes "<closure " ++ joined (hexadecimal entry :: texts) ++ asBytes ">"
  | .array elems => do
    let texts ← elems.mapM value
    return asBytes "[" ++ joined texts ++ asBytes "]"
  | .sexp tag fields =>
    -- `de_hash` has room for ten characters
    if 2 ^ 60 ≤ tag.toNat then throw (.undefined (.object tag.toNat))
    else if deHash maxSexpTaglen tag.toNat [] = consTag then do
      let text ← listText value h slack turns p (.sexp tag fields)
      return asBytes "\x7b" ++ text ++ asBytes "\x7d"
    else if fields = [] then return deHash maxSexpTaglen tag.toNat []
    else do
      let texts ← fields.mapM value
      return deHash maxSexpTaglen tag.toNat [] ++ asBytes " (" ++ joined texts ++ asBytes ")"

end Code

/-- `printValue`, with `valid` for `is_valid_heap_pointer`; `depth` bounds the calls inside each other and the
    turns along a list. -/
def printValue (valid : Word → Bool) (h : Heap) (slack : Word → ℕ → UInt8) : ℕ → Word → Result (List UInt8)
  | 0, _ => throw .timeout
  | depth + 1, p =>
    if isBoxedInt p then return decimal (unbox p)
    else if !valid p then return hexadecimal p
    else do
      let o ← within p (h p)
      objectText (printValue valid h slack depth) h slack depth p o

/-- The environment with `printValue` as it is. -/
def Env.printing {M : Machine} (E : Env M) (valid : Word → Bool) (depth : ℕ) : Env M :=
  { E with printValue := fun h slack p => LamaSM.printValue valid h slack depth p }

/-! ### Values that can be printed -/

section Printable

variable (valid : Word → Bool) (h : Heap) (slack : Word → ℕ → UInt8)

/-- The loop of `printValue` along a list comes to its end from the object at `sb` on and prints the words `xs`. -/
inductive Cells : Word → Obj → List Word → Prop
  | nil {sb : Word} {o : Obj} : o.len = 0 → Cells sb o []
  | last {sb x next : Word} {o : Obj} : o.len ≠ 0 → o.content (slack sb) 0 = some x →
      o.content (slack sb) 1 = some next → isBoxedInt next = true → Cells sb o [x]
  | cons {sb x next : Word} {o o' : Obj} {xs : List Word} : o.len ≠ 0 → o.content (slack sb) 0 = some x →
      o.content (slack sb) 1 = some next → isBoxedInt next = false → h next = some o' → Cells next o' xs →
      Cells sb o (x :: xs)

/-- Printing the object at `p` calls `printValue` for the words `xs`. -/
inductive Prints (p : Word) : Obj → List Word → Prop
  | string {contents : List UInt8} : 0 ∈ contents → Prints p (.string contents) []
  | closure {entry : Word} {captured : List Word} : Prints p (.closure entry captured) captured
  | array {elems : List Word} : Prints p (.array elems) elems
  | sexp {tag : Word} {fields : List Word} : tag.toNat < 2 ^ 60 → deHash maxSexpTaglen tag.toNat [] ≠ consTag →
      Prints p (.sexp tag fields) fields
  | list {tag : Word} {fields xs : List Word} : tag.toNat < 2 ^ 60 → deHash maxSexpTaglen tag.toNat [] = consTag →
      Cells h slack p (.sexp tag fields) xs → Prints p (.sexp tag fields) xs

/-- The value unfolds to something finite, of strings that end, tags from `LtagHash` and lists that end. -/
inductive Printable : Word → Prop
  | number {w : Word} : isBoxedInt w = true → Printable w
  | address {w : Word} : isBoxedInt w = false → valid w = false → Printable w
  | object {w : Word} {o : Obj} {xs : List Word} : isBoxedInt w = false → valid w = true → h w = some o →
      Prints h slack w o xs → (∀ x ∈ xs, Printable x) → Printable w

end Printable

section Returns

variable {value value' : Word → Result (List UInt8)} {valid : Word → Bool} {h : Heap} {slack : Word → ℕ → UInt8}
  {turns turns' depth : ℕ} {ws xs : List Word} {texts : List (List UInt8)} {text : List UInt8} {o : Obj} {p sb w : Word}

theorem within_ok {α : Type} {x : Option α} {y : α} : within p x = .ok y ↔ x = some y := by
  cases x with
  | none =>
    constructor
    · intro h
      cases h
    · intro h
      cases h
  | some z => rw [within, except_pure_ok, Option.some.injEq]

/-- A loop over words returns when every turn does. -/
theorem mapM_returns : (∃ texts, ws.mapM value = .ok texts) ↔ ∀ x ∈ ws, ∃ text, value x = .ok text := by
  induction ws with
  | nil => exact ⟨fun _ x hx => absurd hx List.not_mem_nil, fun _ => ⟨[], rfl⟩⟩
  | cons x ws ih =>
    rw [List.forall_mem_cons, ← ih]
    constructor
    · rintro ⟨texts, h⟩
      rw [List.mapM_cons] at h
      obtain ⟨text, hx, h⟩ := except_bind_ok.mp h
      obtain ⟨rest, hrest, -⟩ := except_bind_ok.mp h
      exact ⟨⟨text, hx⟩, rest, hrest⟩
    · rintro ⟨⟨text, hx⟩, rest, hrest⟩
      exact ⟨text :: rest, by rw [List.mapM_cons, hx, except_ok_bind, hrest, except_ok_bind]; rfl⟩

/-- What returns for `value` returns the same for a function that returns more often. -/
theorem mapM_mono (hv : ∀ x text, value x = .ok text → value' x = .ok text) (hws : ws.mapM value = .ok texts) :
    ws.mapM value' = .ok texts := by
  induction ws generalizing texts with
  | nil => exact hws
  | cons x ws ih =>
    rw [List.mapM_cons] at hws ⊢
    obtain ⟨text, hx, hws⟩ := except_bind_ok.mp hws
    obtain ⟨rest, hrest, hws⟩ := except_bind_ok.mp hws
    rw [hv x text hx, except_ok_bind, ih hrest, except_ok_bind]
    exact hws

/-- A turn of the loop along a list: the end, the last word, or a word and the rest. -/
theorem listText_turn : listText value h slack (turns + 1) sb o = .ok text ↔
    (o.len = 0 ∧ text = []) ∨ o.len ≠ 0 ∧ ∃ x next head, o.content (slack sb) 0 = some x ∧
      o.content (slack sb) 1 = some next ∧ value x = .ok head ∧
      ((isBoxedInt next = true ∧ text = head) ∨ isBoxedInt next = false ∧ ∃ o' rest, h next = some o' ∧
        listText value h slack turns next o' = .ok rest ∧ text = head ++ asBytes ", " ++ rest) := by
  rw [listText]
  by_cases hlen : o.len = 0
  · rw [if_pos hlen, except_pure_ok]
    exact ⟨fun htext => .inl ⟨hlen, htext.symm⟩, fun htext => htext.elim (fun htext => htext.2.symm)
      fun hmore => absurd hlen hmore.1⟩
  · rw [if_neg hlen, or_iff_right fun hend => hlen hend.1, and_iff_right hlen]
    constructor
    · intro hrun
      obtain ⟨x, hx, hrun⟩ := except_bind_ok.mp hrun
      obtain ⟨head, hhead, hrun⟩ := except_bind_ok.mp hrun
      obtain ⟨next, hnext, hrun⟩ := except_bind_ok.mp hrun
      refine ⟨x, next, head, within_ok.mp hx, within_ok.mp hnext, hhead, ?_⟩
      cases hbox : isBoxedInt next with
      | true =>
        rw [hbox, if_pos rfl, except_pure_ok] at hrun
        exact .inl ⟨rfl, hrun.symm⟩
      | false =>
        rw [hbox, if_neg Bool.false_ne_true] at hrun
        obtain ⟨o', ho', hrun⟩ := except_bind_ok.mp hrun
        obtain ⟨rest, hrest, hrun⟩ := except_bind_ok.mp hrun
        exact .inr ⟨rfl, o', rest, within_ok.mp ho', hrest, (except_pure_ok.mp hrun).symm⟩
    · rintro ⟨x, next, head, hx, hnext, hhead, hrest⟩
      rw [within_ok.mpr hx, except_ok_bind, hhead, except_ok_bind, within_ok.mpr hnext, except_ok_bind]
      obtain ⟨hbox, rfl⟩ | ⟨hbox, o', rest, ho', hrest, rfl⟩ := hrest
      · rw [if_pos hbox]
        rfl
      · rw [hbox, if_neg Bool.false_ne_true, within_ok.mpr ho', except_ok_bind, hrest, except_ok_bind]
        rfl

theorem listText_mono (hv : ∀ x text, value x = .ok text → value' x = .ok text) :
    ∀ {turns turns' : ℕ} {sb : Word} {o : Obj} {text : List UInt8}, turns ≤ turns' →
      listText value h slack turns sb o = .ok text → listText value' h slack turns' sb o = .ok text
  | 0, _, _, _, _, _, hrun => by cases hrun
  | turns + 1, 0, _, _, _, hle, _ => absurd hle (by omega)
  | turns + 1, turns' + 1, sb, o, text, hle, hrun => by
    rw [listText_turn] at hrun ⊢
    obtain hend | ⟨hlen, x, next, head, hx, hnext, hhead, hrest⟩ := hrun
    · exact .inl hend
    · refine .inr ⟨hlen, x, next, head, hx, hnext, hv x head hhead, ?_⟩
      obtain hlast | ⟨hbox, o', rest, ho', hrest, htext⟩ := hrest
      · exact .inl hlast
      · exact .inr ⟨hbox, o', rest, ho', listText_mono hv (by omega) hrest, htext⟩

/-- The loop along a list returns only at its end, with every word printed. -/
theorem listText_cells : ∀ {turns : ℕ} {sb : Word} {o : Obj} {text : List UInt8},
    listText value h slack turns sb o = .ok text →
      ∃ xs, Cells h slack sb o xs ∧ ∀ x ∈ xs, ∃ text, value x = .ok text
  | 0, _, _, _, hrun => by cases hrun
  | turns + 1, sb, o, text, hrun => by
    obtain ⟨hlen, -⟩ | ⟨hlen, x, next, head, hx, hnext, hhead, hrest⟩ := listText_turn.mp hrun
    · exact ⟨[], .nil hlen, fun x hx => absurd hx List.not_mem_nil⟩
    · obtain ⟨hbox, -⟩ | ⟨hbox, o', rest, ho', hrest, -⟩ := hrest
      · exact ⟨[x], .last hlen hx hnext hbox, List.forall_mem_singleton.mpr ⟨head, hhead⟩⟩
      · obtain ⟨xs, hcells, hxs⟩ := listText_cells hrest
        exact ⟨x :: xs, .cons hlen hx hnext hbox ho' hcells, List.forall_mem_cons.mpr ⟨⟨head, hhead⟩, hxs⟩⟩

/-- The loop along a list takes a turn for every object it goes through. -/
theorem Cells.listText (hcells : Cells h slack sb o xs) (hxs : ∀ x ∈ xs, ∃ text, value x = .ok text)
    (hturns : xs.length < turns) : ∃ text, listText value h slack turns sb o = .ok text := by
  induction hcells generalizing turns with
  | nil hlen =>
    obtain ⟨turns, rfl⟩ := Nat.exists_eq_succ_of_ne_zero (Nat.ne_of_gt hturns)
    exact ⟨[], listText_turn.mpr (.inl ⟨hlen, rfl⟩)⟩
  | @last sb x next o hlen hx hnext hbox =>
    obtain ⟨turns, rfl⟩ := Nat.exists_eq_succ_of_ne_zero (Nat.ne_of_gt (Nat.zero_lt_of_lt hturns))
    obtain ⟨head, hhead⟩ := hxs x List.mem_cons_self
    exact ⟨head, listText_turn.mpr (.inr ⟨hlen, x, next, head, hx, hnext, hhead, .inl ⟨hbox, rfl⟩⟩)⟩
  | @cons sb x next o o' xs hlen hx hnext hbox ho' _ ih =>
    obtain ⟨turns, rfl⟩ := Nat.exists_eq_succ_of_ne_zero (Nat.ne_of_gt (Nat.zero_lt_of_lt hturns))
    obtain ⟨⟨head, hhead⟩, hxs⟩ := List.forall_mem_cons.mp hxs
    rw [List.length_cons] at hturns
    obtain ⟨rest, hrest⟩ := ih hxs (show xs.length < turns by omega)
    exact ⟨_, listText_turn.mpr (.inr ⟨hlen, x, next, head, hx, hnext, hhead, .inr ⟨hbox, o', rest, ho', hrest, rfl⟩⟩)⟩

theorem objectText_mono (hv : ∀ x text, value x = .ok text → value' x = .ok text) (hle : turns ≤ turns')
    (hrun : objectText value h slack turns p o = .ok text) : objectText value' h slack turns' p o = .ok text := by
  cases o with
  | string contents => exact hrun
  | closure entry captured =>
    obtain ⟨texts, htexts, hrun⟩ := except_bind_ok.mp hrun
    rw [objectText, mapM_mono hv htexts]
    exact hrun
  | array elems =>
    obtain ⟨texts, htexts, hrun⟩ := except_bind_ok.mp hrun
    rw [objectText, mapM_mono hv htexts]
    exact hrun
  | sexp tag fields =>
    rw [objectText] at hrun ⊢
    split_ifs at hrun ⊢ with htag hcons hnil
    · obtain ⟨items, hitems, hrun⟩ := except_bind_ok.mp hrun
      rw [listText_mono hv hle hitems]
      exact hrun
    · exact hrun
    · obtain ⟨texts, htexts, hrun⟩ := except_bind_ok.mp hrun
      rw [mapM_mono hv htexts]
      exact hrun

/-- `printValue` on an object returns only when the object can be printed and every call in it returns. -/
theorem objectText_prints (hrun : objectText value h slack turns p o = .ok text) :
    ∃ xs, Prints h slack p o xs ∧ ∀ x ∈ xs, ∃ text, value x = .ok text := by
  cases o with
  | string contents =>
    rw [objectText] at hrun
    split_ifs at hrun with hzero
    exact ⟨[], .string hzero, fun x hx => absurd hx List.not_mem_nil⟩
  | closure entry captured =>
    obtain ⟨texts, htexts, -⟩ := except_bind_ok.mp hrun
    exact ⟨captured, .closure, mapM_returns.mp ⟨texts, htexts⟩⟩
  | array elems =>
    obtain ⟨texts, htexts, -⟩ := except_bind_ok.mp hrun
    exact ⟨elems, .array, mapM_returns.mp ⟨texts, htexts⟩⟩
  | sexp tag fields =>
    rw [objectText] at hrun
    split_ifs at hrun with htag hcons hnil
    · obtain ⟨items, hitems, -⟩ := except_bind_ok.mp hrun
      obtain ⟨xs, hcells, hxs⟩ := listText_cells hitems
      exact ⟨xs, .list (by omega) hcons hcells, hxs⟩
    · exact ⟨fields, .sexp (by omega) hcons, by rw [hnil]; exact fun x hx => absurd hx List.not_mem_nil⟩
    · obtain ⟨texts, htexts, -⟩ := except_bind_ok.mp hrun
      exact ⟨fields, .sexp (by omega) hcons, mapM_returns.mp ⟨texts, htexts⟩⟩

theorem Prints.objectText (hprints : Prints h slack p o xs) (hxs : ∀ x ∈ xs, ∃ text, value x = .ok text)
    (hturns : xs.length < turns) : ∃ text, objectText value h slack turns p o = .ok text := by
  cases hprints with
  | string hzero => exact ⟨_, if_pos hzero⟩
  | closure =>
    obtain ⟨texts, htexts⟩ := mapM_returns.mpr hxs
    exact ⟨_, by rw [LamaSM.objectText, htexts]; rfl⟩
  | array =>
    obtain ⟨texts, htexts⟩ := mapM_returns.mpr hxs
    exact ⟨_, by rw [LamaSM.objectText, htexts]; rfl⟩
  | sexp htag hcons =>
    obtain ⟨texts, htexts⟩ := mapM_returns.mpr hxs
    rw [LamaSM.objectText, if_neg (by omega), if_neg hcons]
    split_ifs with hnil
    · exact ⟨_, rfl⟩
    · exact ⟨_, by rw [htexts]; rfl⟩
  | list htag hcons hcells =>
    obtain ⟨text, htext⟩ := hcells.listText hxs hturns
    exact ⟨_, by rw [LamaSM.objectText, if_neg (by omega), if_pos hcons, htext]; rfl⟩

/-- `printValue` returns for a number, for what is no heap pointer and for an object whose text there is. -/
theorem printValue_turn : printValue valid h slack (depth + 1) w = .ok text ↔
    (isBoxedInt w = true ∧ text = decimal (unbox w)) ∨
    (isBoxedInt w = false ∧ valid w = false ∧ text = hexadecimal w) ∨
    isBoxedInt w = false ∧ valid w = true ∧ ∃ o, h w = some o ∧
      objectText (printValue valid h slack depth) h slack depth w o = .ok text := by
  rw [printValue]
  cases hbox : isBoxedInt w with
  | true => simp [@eq_comm _ text]
  | false =>
    cases hvalid : valid w with
    | false => simp [@eq_comm _ text]
    | true => simp [except_bind_ok, within_ok]

/-- More depth changes nothing. -/
theorem printValue_mono : ∀ {depth depth' : ℕ} {w : Word} {text : List UInt8}, depth ≤ depth' →
    printValue valid h slack depth w = .ok text → printValue valid h slack depth' w = .ok text
  | 0, _, _, _, _, hrun => by cases hrun
  | depth + 1, 0, _, _, hle, _ => absurd hle (by omega)
  | depth + 1, depth' + 1, w, text, hle, hrun => by
    rw [printValue_turn] at hrun ⊢
    obtain hnumber | haddress | ⟨hbox, hvalid, o, hw, hrun⟩ := hrun
    · exact .inl hnumber
    · exact .inr (.inl haddress)
    · exact .inr (.inr ⟨hbox, hvalid, o, hw,
        objectText_mono (fun x text => printValue_mono (by omega)) (by omega) hrun⟩)

/-- Calls that return do so at one depth. -/
theorem exists_depth (hxs : ∀ x ∈ xs, ∃ depth text, printValue valid h slack depth x = .ok text) :
    ∃ depth, ∀ x ∈ xs, ∃ text, printValue valid h slack depth x = .ok text := by
  induction xs with
  | nil => exact ⟨0, fun x hx => absurd hx List.not_mem_nil⟩
  | cons x xs ih =>
    obtain ⟨⟨d, text, hx⟩, hxs⟩ := List.forall_mem_cons.mp hxs
    obtain ⟨depth, hall⟩ := ih hxs
    refine ⟨max d depth, List.forall_mem_cons.mpr ⟨⟨text, printValue_mono (Nat.le_max_left _ _) hx⟩, fun y hy => ?_⟩⟩
    obtain ⟨text, hy⟩ := hall y hy
    exact ⟨text, printValue_mono (Nat.le_max_right _ _) hy⟩

-- An array taken for a cell goes on with its second and third element.
example : printValue (fun _ => true) (fun a => if a = 16 then some (.sexp 848787 [boxInt 5, 32])
    else if a = 32 then some (.array [boxInt 1, boxInt 2, boxInt 3]) else none) (fun _ _ => 0) 3 16 =
    .ok (asBytes "\x7b5, 2\x7d") := by decide

end Returns

/-! ### No NUL in a text -/

section Nul

variable {valid : Word → Bool} {h : Heap} {slack : Word → ℕ → UInt8} {value : Word → Result (List UInt8)} {turns depth : ℕ}
  {ws : List Word} {texts : List (List UInt8)} {text : List UInt8} {o : Obj} {p w : Word}

theorem digitsText_noNul {base n : ℕ} (hpos : 0 < base) (hbase : base ≤ 16) : 0 ∉ digitsText base n := by
  have hdigit : ∀ d < 16, UInt8.ofNat (Nat.digitChar d).toNat ≠ 0 := by decide
  have hcore : ∀ (fuel n : ℕ) (ds : List Char), (∀ c ∈ ds, UInt8.ofNat c.toNat ≠ 0) →
      ∀ c ∈ Nat.toDigitsCore base fuel n ds, UInt8.ofNat c.toNat ≠ 0 := by
    intro fuel
    induction fuel with
    | zero => exact fun n ds hds => hds
    | succ fuel ih =>
      intro n ds hds
      have hhead : ∀ c ∈ Nat.digitChar (n % base) :: ds, UInt8.ofNat c.toNat ≠ 0 :=
        List.forall_mem_cons.mpr ⟨hdigit _ ((Nat.mod_lt _ hpos).trans_le hbase), hds⟩
      rw [Nat.toDigitsCore]
      split_ifs
      · exact hhead
      · exact ih _ _ hhead
  intro hzero
  obtain ⟨c, hc, heq⟩ := List.mem_map.mp hzero
  exact hcore _ n [] (fun c hc => absurd hc List.not_mem_nil) c hc heq

theorem decimal_noNul {i : ℤ} : 0 ∉ decimal i := by
  have hdigits : 0 ∉ digitsText 10 i.natAbs := digitsText_noNul (by decide) (by decide)
  have hminus : (0 : UInt8) ∉ asBytes "-" := by decide
  unfold decimal
  split_ifs
  · exact fun h => (List.mem_append.mp h).elim hminus hdigits
  · exact hdigits

theorem hexadecimal_noNul : 0 ∉ hexadecimal w := by
  have hdigits : 0 ∉ digitsText 16 (w.toNat % 2 ^ 32) := digitsText_noNul (by decide) (by decide)
  have hleft : (0 : UInt8) ∉ asBytes "0x" := by decide
  exact fun h => (List.mem_append.mp h).elim hleft hdigits

theorem comma_noNul : (0 : UInt8) ∉ asBytes ", " := by decide

theorem joined_noNul (h : ∀ text ∈ texts, 0 ∉ text) : 0 ∉ joined texts := by
  induction texts with
  | nil => exact List.not_mem_nil
  | cons text texts ih =>
    obtain ⟨htext, htexts⟩ := List.forall_mem_cons.mp h
    cases texts with
    | nil => exact htext
    | cons next texts =>
      simp only [joined, List.mem_append, not_or]
      exact ⟨⟨htext, comma_noNul⟩, ih htexts⟩

theorem mapM_noNul (hv : ∀ x text, value x = .ok text → 0 ∉ text) (hws : ws.mapM value = .ok texts) :
    ∀ text ∈ texts, 0 ∉ text := by
  induction ws generalizing texts with
  | nil =>
    cases hws
    exact fun text h => absurd h List.not_mem_nil
  | cons x ws ih =>
    rw [List.mapM_cons] at hws
    obtain ⟨text, hx, hws⟩ := except_bind_ok.mp hws
    obtain ⟨rest, hrest, hws⟩ := except_bind_ok.mp hws
    cases hws
    exact List.forall_mem_cons.mpr ⟨hv x text hx, ih hrest⟩

theorem listText_noNul (hv : ∀ x text, value x = .ok text → 0 ∉ text) :
    ∀ {turns : ℕ} {sb : Word} {o : Obj} {text : List UInt8}, listText value h slack turns sb o = .ok text → 0 ∉ text
  | 0, _, _, _, hrun => by cases hrun
  | turns + 1, sb, o, text, hrun => by
    obtain ⟨-, rfl⟩ | ⟨-, x, next, head, -, -, hhead, ⟨-, rfl⟩ | ⟨-, o', rest, -, hrest, rfl⟩⟩ := listText_turn.mp hrun
    · exact List.not_mem_nil
    · exact hv x _ hhead
    · simp only [List.mem_append, not_or]
      exact ⟨⟨hv x head hhead, comma_noNul⟩, listText_noNul hv hrest⟩

/-- The characters of a tag are among `chars`. -/
theorem deHash_noNul {n : ℕ} (hn : n < 2 ^ 60) : 0 ∉ deHash maxSexpTaglen n [] := by
  have hchars : 0 ∉ chars := by decide
  have hlt : n < 64 ^ maxSexpTaglen := hn.trans_eq (by decide)
  exact fun hzero => hchars ((deHash_number hlt).1 0 hzero)

theorem objectText_noNul (hv : ∀ x text, value x = .ok text → 0 ∉ text) (hrun : objectText value h slack turns p o = .ok text) :
    0 ∉ text := by
  cases o with
  | string contents =>
    rw [objectText] at hrun
    split_ifs at hrun with hzero
    cases hrun
    have hquote : (0 : UInt8) ∉ asBytes "\"" := by decide
    have hchars : 0 ∉ contents.takeWhile (· ≠ 0) := fun h => by simpa using List.mem_takeWhile_imp h
    simp only [List.mem_append, not_or]
    exact ⟨⟨hquote, hchars⟩, hquote⟩
  | closure entry captured =>
    obtain ⟨texts, htexts, hrun⟩ := except_bind_ok.mp hrun
    cases hrun
    have hleft : (0 : UInt8) ∉ asBytes "<closure " := by decide
    have hright : (0 : UInt8) ∉ asBytes ">" := by decide
    simp only [List.mem_append, not_or]
    exact ⟨⟨hleft, joined_noNul (List.forall_mem_cons.mpr ⟨hexadecimal_noNul, mapM_noNul hv htexts⟩)⟩, hright⟩
  | array elems =>
    obtain ⟨texts, htexts, hrun⟩ := except_bind_ok.mp hrun
    cases hrun
    have hleft : (0 : UInt8) ∉ asBytes "[" := by decide
    have hright : (0 : UInt8) ∉ asBytes "]" := by decide
    simp only [List.mem_append, not_or]
    exact ⟨⟨hleft, joined_noNul (mapM_noNul hv htexts)⟩, hright⟩
  | sexp tag fields =>
    rw [objectText] at hrun
    split_ifs at hrun with htag hcons hnil
    · obtain ⟨items, hitems, hrun⟩ := except_bind_ok.mp hrun
      cases hrun
      have hleft : (0 : UInt8) ∉ asBytes "\x7b" := by decide
      have hright : (0 : UInt8) ∉ asBytes "\x7d" := by decide
      simp only [List.mem_append, not_or]
      exact ⟨⟨hleft, listText_noNul hv hitems⟩, hright⟩
    · cases hrun
      exact deHash_noNul (by omega)
    · obtain ⟨texts, htexts, hrun⟩ := except_bind_ok.mp hrun
      cases hrun
      have hleft : (0 : UInt8) ∉ asBytes " (" := by decide
      have hright : (0 : UInt8) ∉ asBytes ")" := by decide
      simp only [List.mem_append, not_or]
      exact ⟨⟨⟨deHash_noNul (by omega), hleft⟩, joined_noNul (mapM_noNul hv htexts)⟩, hright⟩

/-- What `printValue` makes of a value is a C string of its own length. -/
theorem printValue_noNul : ∀ {depth : ℕ} {w : Word} {text : List UInt8},
    printValue valid h slack depth w = .ok text → 0 ∉ text
  | 0, _, _, hrun => by cases hrun
  | depth + 1, w, text, hrun => by
    obtain ⟨-, rfl⟩ | ⟨-, -, rfl⟩ | ⟨-, -, o, -, hrun⟩ := printValue_turn.mp hrun
    · exact decimal_noNul
    · exact hexadecimal_noNul
    · exact objectText_noNul (fun x text => printValue_noNul) hrun

end Nul

end LamaSM
