import LamaSM.Gc.Contents
import LamaSM.Printing

/-! `StringBuf` and `printValue` on the memory of the process (`runtime/runtime.c`).

    The text of a value goes to a block from `malloc` that doubles when a piece does not fit. `Holds` says
    what is in the buffer and that nothing outside such blocks has changed; `Appends` says of an action that
    it adds a text, wherever the buffer has got to. The loops over fields and along lists are put together
    from that. -/

namespace LamaSM
namespace Gc
open Lib

/-! ### The buffer -/

/-- `STRINGBUF_INIT` -/
def stringbufInit : ℕ := 128

/-- `contents` is the address of the characters. -/
structure StringBuf where
  contents : ℕ
  ptr : ℕ
  len : ℕ
  deriving DecidableEq, Repr

section Buffer

variable (malloc : ℕ → Option ℕ)

/-- `createStringBuf`; `memset` writes to what `malloc` returns without a check. -/
def createStringBuf (m : ByteMemory) : Result (ByteMemory × StringBuf) :=
  match malloc stringbufInit with
  | none => throw (.undefined (.object 0))
  | some contents => return (clearBytes m contents stringbufInit, ⟨contents, 0, stringbufInit⟩)

/-- `extendStringBuf`; `malloc` also answers for `realloc`, which copies what there was. -/
def extendStringBuf (s : ByteMemory × StringBuf) : Result (ByteMemory × StringBuf) :=
  let len := s.2.len <<< 1
  match malloc len with
  | none => throw (.undefined (.object 0))
  | some contents => return (moveBytes s.1 contents s.2.contents s.2.len, ⟨contents, s.2.ptr, len⟩)

/-- What `vsnprintf` writes of the characters of a text: those that fit, and a NUL. -/
def vsnprintf (m : ByteMemory) (buf rest : ℕ) (text : List UInt8) : ByteMemory :=
  if rest = 0 then m else storeBytes m buf (text.take (rest - 1) ++ [0])

/-- `vprintStringBuf` -/
def vprintStringBuf (text : List UInt8) : ℕ → ByteMemory × StringBuf → Result (ByteMemory × StringBuf)
  | 0, _ => throw .timeout
  | turns + 1, (m, buf) =>
    let rest := buf.len - buf.ptr
    let m := vsnprintf m (buf.contents + buf.ptr) rest text
    if rest ≤ text.length then do
      let s ← extendStringBuf malloc (m, buf)
      vprintStringBuf text turns s
    else return (m, { buf with ptr := buf.ptr + text.length })

/-- `printStringBuf` on the text its format makes; doubling a buffer once for each character is enough. -/
def printStringBuf (text : List UInt8) : ByteMemory × StringBuf → Result (ByteMemory × StringBuf) :=
  vprintStringBuf malloc text (text.length + 1)

end Buffer

/-- The bytes of a text from the beginning of the buffer on, and nothing changed but blocks from `malloc`. -/
structure Stores (malloc : ℕ → Option ℕ) (m₀ : ByteMemory) (s : ByteMemory × StringBuf) (text : List UInt8) : Prop where
  place : malloc s.2.len = some s.2.contents
  init : stringbufInit ≤ s.2.len
  ptr : s.2.ptr = text.length
  fits : text.length < s.2.len
  chars : bytesFrom s.1 s.2.contents text.length = text
  rest : ∀ b, (∀ len a, malloc len = some a → b < a ∨ a + len ≤ b) → s.1 b = m₀ b

/-- The buffer holds a text, with a NUL at its end. -/
structure Holds (malloc : ℕ → Option ℕ) (m₀ : ByteMemory) (s : ByteMemory × StringBuf) (text : List UInt8) : Prop
    extends Stores malloc m₀ s text where
  ended : s.1 (s.2.contents + s.2.ptr) = 0

/-- The system has memory for a buffer of `n` characters. -/
def Mallocs (malloc : ℕ → Option ℕ) (n : ℕ) : Prop :=
  ∀ len, stringbufInit ≤ len → len ≤ stringbufInit + 2 * n → (malloc len).isSome

section Buffer

variable {malloc : ℕ → Option ℕ} {m₀ m : ByteMemory} {s : ByteMemory × StringBuf} {text piece : List UInt8} {n fuel : ℕ}

/-- `createStringBuf` -/
theorem createStringBuf_rule (hmalloc : Mallocs malloc n) :
    ∃ s, createStringBuf malloc m = .ok s ∧ Holds malloc m s [] := by
  obtain ⟨a, ha⟩ := Option.isSome_iff_exists.mp (hmalloc stringbufInit (Nat.le_refl _) (Nat.le_add_right _ _))
  refine ⟨_, by rw [createStringBuf, ha]; rfl, ⟨⟨ha, Nat.le_refl _, rfl, Nat.zero_lt_succ 127, rfl, fun b hb => ?_⟩, ?_⟩⟩
  · exact clearBytes_of_not_mem (hb _ a ha)
  · exact clearBytes_of_mem (Nat.le_add_right _ _) (Nat.lt_add_of_pos_right (by decide))

/-- A piece is written behind the text, as much of it as fits. -/
theorem Stores.written (h : Stores malloc m₀ s text) (piece : List UInt8) :
    Stores malloc m₀ (vsnprintf s.1 (s.2.contents + s.2.ptr) (s.2.len - s.2.ptr) piece, s.2) text := by
  have hfits := h.fits
  have hptr := h.ptr
  have hlen : (piece.take (s.2.len - s.2.ptr - 1) ++ [0]).length ≤ s.2.len - s.2.ptr := by
    rw [List.length_append, List.length_take, List.length_singleton]
    omega
  rw [vsnprintf, if_neg (by omega)]
  refine ⟨h.place, h.init, hptr, hfits, ?_, fun b hb => ?_⟩
  · have hkept : Copied s.1 s.2.contents (storeBytes s.1 (s.2.contents + s.2.ptr)
        (piece.take (s.2.len - s.2.ptr - 1) ++ [0])) s.2.contents text.length :=
      fun k hk => storeBytes_of_not_mem (by omega)
    exact hkept.bytesFrom.trans h.chars
  · have hout := hb _ _ h.place
    exact (storeBytes_of_not_mem (by omega)).trans (h.rest b hb)

/-- A piece that fits is added. -/
theorem Stores.appended (h : Stores malloc m₀ s text) (hpiece : text.length + piece.length < s.2.len) :
    Holds malloc m₀ (vsnprintf s.1 (s.2.contents + s.2.ptr) (s.2.len - s.2.ptr) piece,
      { s.2 with ptr := s.2.ptr + piece.length }) (text ++ piece) := by
  have hw := h.written piece
  have hptr := h.ptr
  have htake : piece.take (s.2.len - s.2.ptr - 1) = piece := List.take_of_length_le (by omega)
  have hbytes : bytesFrom (vsnprintf s.1 (s.2.contents + s.2.ptr) (s.2.len - s.2.ptr) piece) (s.2.contents + s.2.ptr)
      (piece.length + 1) = piece ++ [0] := by
    rw [vsnprintf, if_neg (by omega), htake]
    have hstored := bytesFrom_storeBytes s.1 (s.2.contents + s.2.ptr) (piece ++ [0])
    rwa [List.length_append, List.length_singleton] at hstored
  rw [bytesFrom_add 1 piece.length] at hbytes
  obtain ⟨hchars, hzero⟩ := List.append_inj hbytes (bytesFrom_length _ _)
  refine ⟨⟨h.place, h.init, by rw [hptr, List.length_append], by rwa [List.length_append], ?_, hw.rest⟩, ?_⟩
  · dsimp only
    rw [List.length_append, bytesFrom_add piece.length text.length, hw.chars, ← hptr, hchars]
  · dsimp only
    rw [← Nat.add_assoc]
    exact List.head_eq_of_cons_eq hzero

/-- `extendStringBuf` -/
theorem Stores.extended (h : Stores malloc m₀ s text) (hmalloc : Mallocs malloc n) (hn : s.2.len ≤ n) :
    ∃ s', extendStringBuf malloc s = .ok s' ∧ Stores malloc m₀ s' text ∧ s'.2.len = 2 * s.2.len := by
  have hinit := h.init
  have hfits := h.fits
  have hlen : s.2.len <<< 1 = 2 * s.2.len := by rw [Nat.shiftLeft_eq]; omega
  obtain ⟨a, ha⟩ := Option.isSome_iff_exists.mp (hmalloc (2 * s.2.len) (by omega) (by omega))
  refine ⟨(moveBytes s.1 a s.2.contents s.2.len, ⟨a, s.2.ptr, 2 * s.2.len⟩), ?_,
    ⟨ha, by dsimp only; omega, h.ptr, by dsimp only; omega, ?_, fun b hb => ?_⟩, rfl⟩
  · rw [extendStringBuf, hlen, ha]
    rfl
  · exact ((copied_moveBytes.mono (by omega) : Copied s.1 s.2.contents _ a text.length).bytesFrom).trans h.chars
  · have hout := hb _ _ ha
    exact (moveBytes_of_not_mem (by omega)).trans (h.rest b hb)

/-- `vprintStringBuf` adds its text, however often the buffer has to grow. -/
theorem vprintStringBuf_rule (h : Stores malloc m₀ s text) (hmalloc : Mallocs malloc n)
    (hn : text.length + piece.length ≤ n) (hfuel : text.length + piece.length < s.2.len + fuel) :
    ∃ s', vprintStringBuf malloc piece (fuel + 1) s = .ok s' ∧ Holds malloc m₀ s' (text ++ piece) := by
  induction fuel generalizing s with
  | zero =>
    have hptr := h.ptr
    rw [vprintStringBuf, if_neg (by omega)]
    exact ⟨_, rfl, h.appended (by omega)⟩
  | succ fuel ih =>
    have hptr := h.ptr
    rw [vprintStringBuf]
    by_cases hgrow : s.2.len - s.2.ptr ≤ piece.length
    · obtain ⟨s', hextend, hs', hlen⟩ := (h.written piece).extended hmalloc (by dsimp only; omega)
      dsimp only at hlen
      have hinit := h.init
      unfold stringbufInit at hinit
      rw [if_pos hgrow, hextend, except_ok_bind]
      exact ih hs' (by omega)
    · rw [if_neg hgrow]
      exact ⟨_, rfl, h.appended (by omega)⟩

end Buffer

/-! ### Printing values -/

section Code

variable (malloc : ℕ → Option ℕ) (heap : MemoryChunk) (fuel : ℕ)

/-- The loops `for (i = 0; i < LEN (..); i++)` that print the fields of an object with `", "` between them. -/
def printItems (length : ByteMemory → ℕ) (item : ℕ → ByteMemory × StringBuf → Result (ByteMemory × StringBuf)) :
    ℕ → ℕ → ByteMemory × StringBuf → Result (ByteMemory × StringBuf)
  | 0, _, _ => throw .timeout
  | turns + 1, i, s =>
    if length s.1 ≤ i then return s
    else do
      let s ← item i s
      if i = length s.1 - 1 then printItems length item turns (i + 1) s
      else do
        let s ← printStringBuf malloc (asBytes ", ") s
        printItems length item turns (i + 1) s

/-- The loop along a list, from the cell `sb` on -/
def printList (value : Word → ByteMemory × StringBuf → Result (ByteMemory × StringBuf)) :
    ℕ → Word → ByteMemory × StringBuf → Result (ByteMemory × StringBuf)
  | 0, _, _ => throw .timeout
  | turns + 1, sb, s =>
    if len (dataHeader s.1 sb) = 0 then return s
    else do
      let s ← value (load64 s.1 (element sb memberSize 1)) s
      let listNext := load64 s.1 (element sb memberSize 2)
      if isBoxedInt listNext then return s
      else do
        let s ← printStringBuf malloc (asBytes ", ") s
        printList value turns listNext s

/-- `printValue`; `fuel` bounds the characters of a string and the fields of an object, the depth the calls
    inside each other and the cells of a list. The static buffer of `de_hash` is not kept in memory. -/
def printValue : ℕ → Word → ByteMemory × StringBuf → Result (ByteMemory × StringBuf)
  | 0, _, _ => throw .timeout
  | depth + 1, p, s =>
    if isBoxedInt p then printStringBuf malloc (decimal (unbox p)) s
    else if !isValidHeapPointer heap p then printStringBuf malloc (hexadecimal p) s
    else if tag (dataHeader s.1 p) = stringTag then
      match cString s.1 fuel p.toNat with
      | none => throw .timeout
      | some chars => printStringBuf malloc (asBytes "\"" ++ chars ++ asBytes "\"") s
    else if tag (dataHeader s.1 p) = closureTag then do
      let s ← printStringBuf malloc (asBytes "<closure ") s
      let s ← printItems malloc (fun m => len (dataHeader m p)) (fun i s =>
        if i = 0 then printStringBuf malloc (hexadecimal (load64 s.1 (element p memberSize i))) s
        else printValue depth (load64 s.1 (element p memberSize i)) s) fuel 0 s
      printStringBuf malloc (asBytes ">") s
    else if tag (dataHeader s.1 p) = arrayTag then do
      let s ← printStringBuf malloc (asBytes "[") s
      let s ← printItems malloc (fun m => len (dataHeader m p)) (fun i s =>
        printValue depth (load64 s.1 (element p memberSize i)) s) fuel 0 s
      printStringBuf malloc (asBytes "]") s
    else if tag (dataHeader s.1 p) = sexpTag then
      if 2 ^ 60 ≤ (load64 s.1 p.toNat).toNat then throw (.undefined (.object p.toNat))
      else if deHash maxSexpTaglen (load64 s.1 p.toNat).toNat [] = consTag then do
        let s ← printStringBuf malloc (asBytes "\x7b") s
        let s ← printList malloc (printValue depth) depth p s
        printStringBuf malloc (asBytes "\x7d") s
      else do
        let s ← printStringBuf malloc (deHash maxSexpTaglen (load64 s.1 p.toNat).toNat []) s
        if len (dataHeader s.1 p) = 0 then return s
        else do
          let s ← printStringBuf malloc (asBytes " (") s
          let s ← printItems malloc (fun m => len (dataHeader m p)) (fun i s =>
            printValue depth (load64 s.1 (element p memberSize (i + 1))) s) fuel 0 s
          printStringBuf malloc (asBytes ")") s
    else printStringBuf malloc
      (asBytes "*** invalid data_header: 0x" ++ digitsText 16 (tag (dataHeader s.1 p)) ++ asBytes " ***") s

end Code

/-! ### What is printed -/

/-- The action adds the text to what is in the buffer, as long as no more than `n` characters are. -/
def Appends (malloc : ℕ → Option ℕ) (m₀ : ByteMemory) (n : ℕ)
    (action : ByteMemory × StringBuf → Result (ByteMemory × StringBuf)) (text : List UInt8) : Prop :=
  ∀ s done, Holds malloc m₀ s done → done.length + text.length ≤ n →
    ∃ s', action s = .ok s' ∧ Holds malloc m₀ s' (done ++ text)

section Appends

variable {malloc : ℕ → Option ℕ} {m₀ : ByteMemory} {n i turns : ℕ} {text text' : List UInt8} {texts : List (List UInt8)}
  {action action' : ByteMemory × StringBuf → Result (ByteMemory × StringBuf)}

theorem printStringBuf_appends (hmalloc : Mallocs malloc n) : Appends malloc m₀ n (printStringBuf malloc text) text := by
  intro s done hs hn
  have hfits := hs.fits
  exact vprintStringBuf_rule hs.toStores hmalloc hn (by omega)

theorem Appends.pure : Appends malloc m₀ n (fun s => pure s) [] :=
  fun s done hs _ => ⟨s, rfl, by rwa [List.append_nil]⟩

/-- One action after the other -/
theorem Appends.bind (h : Appends malloc m₀ n action text) (h' : Appends malloc m₀ n action' text') :
    Appends malloc m₀ n (fun s => action s >>= action') (text ++ text') := by
  intro s done hs hn
  rw [List.length_append] at hn
  obtain ⟨s₁, hrun, hs₁⟩ := h s done hs (by omega)
  obtain ⟨s₂, hrun', hs₂⟩ := h' s₁ (done ++ text) hs₁ (by rw [List.length_append]; omega)
  refine ⟨s₂, ?_, by rwa [← List.append_assoc]⟩
  dsimp only
  rw [hrun, except_ok_bind, hrun']

/-- What an action does may depend on memory that stays the same. -/
theorem Appends.of_eq (h : Appends malloc m₀ n action text)
    (heq : ∀ s done, Holds malloc m₀ s done → action' s = action s) : Appends malloc m₀ n action' text := by
  intro s done hs hn
  rw [heq s done hs]
  exact h s done hs hn

/-- The loop over the fields -/
theorem printItems_appends (hmalloc : Mallocs malloc n) {length : ByteMemory → ℕ}
    {item : ℕ → ByteMemory × StringBuf → Result (ByteMemory × StringBuf)}
    (hlength : ∀ s done, Holds malloc m₀ s done → length s.1 = i + texts.length)
    (hitem : ∀ k text, texts[k]? = some text → Appends malloc m₀ n (item (i + k)) text) (hturns : texts.length < turns) :
    Appends malloc m₀ n (printItems malloc length item turns i) (joined texts) := by
  induction texts generalizing i turns with
  | nil =>
    obtain ⟨turns, rfl⟩ := Nat.exists_eq_succ_of_ne_zero (Nat.ne_of_gt hturns)
    refine Appends.pure.of_eq fun s done hs => ?_
    have hdone : length s.1 ≤ i := Nat.le_of_eq (hlength s done hs)
    rw [printItems, if_pos hdone]
  | cons text texts ih =>
    obtain ⟨turns, rfl⟩ := Nat.exists_eq_succ_of_ne_zero (Nat.ne_of_gt (Nat.zero_lt_of_lt hturns))
    rw [List.length_cons] at hturns
    have hhead : Appends malloc m₀ n (item i) text := hitem 0 text rfl
    have hrest : Appends malloc m₀ n (printItems malloc length item turns (i + 1)) (joined texts) := by
      refine ih (fun s done hs => ?_) (fun k text hk => ?_) (by omega)
      · rw [hlength s done hs, List.length_cons]
        omega
      · have hnext := hitem (k + 1) text hk
        rwa [show i + (k + 1) = i + 1 + k by omega] at hnext
    have hturn : ∀ s done, Holds malloc m₀ s done → printItems malloc length item (turns + 1) i s =
        item i s >>= fun s => if i = length s.1 - 1 then printItems malloc length item turns (i + 1) s
          else printStringBuf malloc (asBytes ", ") s >>= printItems malloc length item turns (i + 1) := by
      intro s done hs
      have hmore : ¬ length s.1 ≤ i := by
        rw [hlength s done hs, List.length_cons]
        omega
      rw [printItems, if_neg hmore]
    cases texts with
    | nil =>
      have hlast : Appends malloc m₀ n (fun s => if i = length s.1 - 1 then printItems malloc length item turns (i + 1) s
          else printStringBuf malloc (asBytes ", ") s >>= printItems malloc length item turns (i + 1)) (joined []) :=
        hrest.of_eq fun s done hs => by
          have hlen := hlength s done hs
          rw [List.length_singleton] at hlen
          exact if_pos (by omega)
      have hall := hhead.bind hlast
      rw [joined, List.append_nil] at hall
      exact hall.of_eq hturn
    | cons next texts =>
      have hmore : Appends malloc m₀ n (fun s => if i = length s.1 - 1 then printItems malloc length item turns (i + 1) s
          else printStringBuf malloc (asBytes ", ") s >>= printItems malloc length item turns (i + 1))
          (asBytes ", " ++ joined (next :: texts)) :=
        ((printStringBuf_appends hmalloc).bind hrest).of_eq fun s done hs => by
          have hlen := hlength s done hs
          rw [List.length_cons, List.length_cons] at hlen
          exact if_neg (by omega)
      have hall := hhead.bind hmore
      rw [← List.append_assoc] at hall
      exact hall.of_eq hturn

end Appends

/-! ### Values of the heap -/

/-- What printing relies on: blocks from `malloc` lie apart from the heap, and there are enough of them. -/
structure Printing (malloc : ℕ → Option ℕ) (g : Globals) (os : List Obj) (slack : Word → ℕ → UInt8) (n fuel : ℕ) :
    Prop where
  heap : HeapAt g.mem g.heap os
  slack : SlackAt g.mem g.heap.begin os slack
  filled : g.heap.current ≤ g.heap.end
  lt : g.heap.end < 2 ^ 63
  mallocs : Mallocs malloc n
  apart : ∀ len a, malloc len = some a → a + len ≤ g.heap.begin ∨ g.heap.end ≤ a
  fuel : g.heap.current - g.heap.begin < fuel

section Values

variable {malloc : ℕ → Option ℕ} {g : Globals} {os : List Obj} {slack : Word → ℕ → UInt8} {n fuel depth turns j : ℕ}
  {s : ByteMemory × StringBuf}
  {text done : List UInt8} {p w : Word} {o : Obj}
  {value : Word → ByteMemory × StringBuf → Result (ByteMemory × StringBuf)} {value' : Word → Result (List UInt8)}

theorem Printing.found (h : Printing malloc g os slack n fuel) (ho : heapOf g.heap.begin os p = some o) :
    ∃ j, Found g os p j o := by
  obtain ⟨j, hj, hp⟩ := heapOf_eq_some.mp ho
  have hplace := h.heap.place hj
  have hroom := objSize_le_room o
  have hlt := h.lt
  have hfilled := h.filled
  exact ⟨j, hj, hp, h.heap.objects j o hj, by omega, by omega⟩

/-- Objects stay where they are while a text grows. -/
theorem Printing.keeps (h : Printing malloc g os slack n fuel) (hj : Found g os p j o) (hs : Holds malloc g.mem s done) :
    Found { g with mem := s.1 } os p j o := by
  have hplace := h.heap.place hj.mem
  have hroom := objSize_le_room o
  have hfilled := h.filled
  refine ⟨hj.mem, hj.address, hj.object.moved fun k hk => hs.rest _ fun len a ha => ?_, hj.lt, hj.size⟩
  have hapart := h.apart len a ha
  omega

/-- A word of an object is printed as what it was at the beginning. -/
theorem Printing.word (h : Printing malloc g os slack n fuel) (hj : Found g os p j o)
    (value : Word → ByteMemory × StringBuf → Result (ByteMemory × StringBuf)) {k : ℕ} (hk : (contentWords o)[k]? = some w)
    (hv : Appends malloc g.mem n (value w) text) :
    Appends malloc g.mem n (fun s => value (load64 s.1 (element p memberSize k)) s) text :=
  hv.of_eq fun s done hs => by
    have hw : load64 s.1 (element p memberSize k) = w := (h.keeps hj hs).word hk
    rw [hw]

theorem mapM_forall₂ : ∀ {ws : List Word} {texts : List (List UInt8)}, ws.mapM value' = .ok texts →
    List.Forall₂ (fun w text => value' w = .ok text) ws texts
  | [], _, h => by
    cases h
    exact .nil
  | w :: ws, texts, h => by
    rw [List.mapM_cons] at h
    obtain ⟨text, hw, h⟩ := except_bind_ok.mp h
    obtain ⟨rest, hrest, h⟩ := except_bind_ok.mp h
    cases h
    exact .cons hw (mapM_forall₂ hrest)

/-- The texts of words, printed one after the other -/
theorem items_appends {ws : List Word} {texts : List (List UInt8)}
    (hv : ∀ w text, value' w = .ok text → Appends malloc g.mem n (value w) text)
    (htexts : ws.mapM value' = .ok texts) : ∀ (k : ℕ) text, texts[k]? = some text →
      ∃ w : Word, ws[k]? = some w ∧ Appends malloc g.mem n (value w) text := by
  intro k text hk
  have hall := mapM_forall₂ htexts
  obtain ⟨hlt, rfl⟩ := List.getElem?_eq_some_iff.mp hk
  have hlt' : k < ws.length := hall.length_eq ▸ hlt
  exact ⟨ws[k], List.getElem?_eq_getElem hlt', hv _ _ (hall.get hlt' hlt)⟩

/-- `contents[i]` of an object taken for a cell -/
theorem Found.content (hj : Found g os p j o) (hslack : SlackAt g.mem g.heap.begin os slack) {k : ℕ}
    (hw : o.content (slack p) k = some w) : load64 g.mem (Gc.element p memberSize (k + 1 : ℕ)) = w := by
  cases o with
  | string contents =>
    rw [Obj.content] at hw
    split_ifs at hw with hlt
    have hsize : memberSize * (k + 1) ≤ objSize (.string contents) := by
      rw [objSize, memberSize]
      unfold dataHeaderSz
      omega
    rw [hj.element hsize, ← hj.address]
    exact (hj.stringWord hslack hlt).trans (Option.some.inj hw)
  | array elems => exact hj.word hw
  | sexp tag fields => exact hj.word (k := k + 1) hw
  | closure entry captured => exact hj.word (k := k + 1) hw

/-- A word behind the header is read as what it was at the beginning. -/
theorem Printing.content (h : Printing malloc g os slack n fuel) (hj : Found g os p j o) {k : ℕ}
    (hw : o.content (slack p) k = some w) (hs : Holds malloc g.mem s done) :
    load64 s.1 (element p memberSize (k + 1 : ℕ)) = w := by
  have hslack : SlackAt s.1 g.heap.begin os slack := h.slack.kept fun i o hi b hlow hhigh => hs.rest b fun len a ha => by
    have hplace := h.heap.place hi
    have hapart := h.apart len a ha
    have hfilled := h.filled
    omega
  exact (h.keeps hj hs).content hslack hw

/-- The loop along a list -/
theorem printList_appends (h : Printing malloc g os slack n fuel)
    (hv : ∀ w text, value' w = .ok text → Appends malloc g.mem n (value w) text) :
    ∀ {turns : ℕ} {sb : Word} {o : Obj} {text : List UInt8} {j : ℕ},
      listText value' (heapOf g.heap.begin os) slack turns sb o = .ok text → Found g os sb j o →
      Appends malloc g.mem n (printList malloc value turns sb) text
  | 0, _, _, _, _, hrun, _ => by cases hrun
  | turns + 1, sb, o, text, j, hrun, hj => by
    have hlen : ∀ s done, Holds malloc g.mem s done → len (dataHeader s.1 sb) = o.len :=
      fun s done hs => (h.keeps hj hs).len
    obtain ⟨hzero, rfl⟩ | ⟨hmore, x, next, head, hx, hnext, hhead, hrest⟩ := listText_turn.mp hrun
    · exact Appends.pure.of_eq fun s done hs => by rw [printList, hlen s done hs, if_pos hzero]
    have hfirst : Appends malloc g.mem n (fun s => value (load64 s.1 (element sb memberSize 1)) s) head :=
      (hv x head hhead).of_eq fun s done hs => by
        have hword : load64 s.1 (element sb memberSize 1) = x := h.content hj hx hs
        rw [hword]
    have hsecond : ∀ s done, Holds malloc g.mem s done → load64 s.1 (element sb memberSize 2) = next :=
      fun s done hs => h.content hj hnext hs
    have hturn : ∀ s done, Holds malloc g.mem s done → printList malloc value (turns + 1) sb s =
        value (load64 s.1 (element sb memberSize 1)) s >>= fun s =>
          if isBoxedInt (load64 s.1 (element sb memberSize 2)) then pure s
          else printStringBuf malloc (asBytes ", ") s >>=
            printList malloc value turns (load64 s.1 (element sb memberSize 2)) := fun s done hs => by
      rw [printList, hlen s done hs, if_neg hmore]
    obtain ⟨hbox, rfl⟩ | ⟨hbox, o', rest, ho', hrest, rfl⟩ := hrest
    · have hlast : Appends malloc g.mem n (fun s => if isBoxedInt (load64 s.1 (element sb memberSize 2)) then pure s
          else printStringBuf malloc (asBytes ", ") s >>=
            printList malloc value turns (load64 s.1 (element sb memberSize 2))) [] :=
        Appends.pure.of_eq fun s done hs => by rw [hsecond s done hs, hbox, if_pos rfl]
      have hall := hfirst.bind hlast
      rw [List.append_nil] at hall
      exact hall.of_eq hturn
    · obtain ⟨j', hj'⟩ := h.found ho'
      have hcells : Appends malloc g.mem n (fun s => if isBoxedInt (load64 s.1 (element sb memberSize 2)) then pure s
          else printStringBuf malloc (asBytes ", ") s >>=
            printList malloc value turns (load64 s.1 (element sb memberSize 2))) (asBytes ", " ++ rest) :=
        ((printStringBuf_appends h.mallocs).bind (printList_appends h hv hrest hj')).of_eq fun s done hs => by
          rw [hsecond s done hs, hbox, if_neg Bool.false_ne_true]
      have hall := hfirst.bind hcells
      rw [← List.append_assoc] at hall
      exact hall.of_eq hturn

/-- What `printValue` takes for an object. -/
theorem Printing.object (h : Printing malloc g os slack n fuel) (hj : Found g os p j o) (hs : Holds malloc g.mem s done) :
    isBoxedInt p = false ∧ isValidHeapPointer g.heap p = true ∧ tag (dataHeader s.1 p) = kindTag (kind o) := by
  obtain ⟨hvalid, heven⟩ := h.heap.valid hj.mem hj.address
  exact ⟨by rwa [isValidPointer, Bool.not_eq_true'] at heven, hvalid, (h.keeps hj hs).tag⟩

/-- The loop over the fields of an object -/
theorem Printing.fields (h : Printing malloc g os slack n fuel) (hj : Found g os p j o)
    (texts : List (List UInt8)) (item : ℕ → ByteMemory × StringBuf → Result (ByteMemory × StringBuf))
    (hlen : o.len = texts.length) (hwords : texts.length ≤ (contentWords o).length) (ho : kind o ≠ .string)
    (hitem : ∀ k text, texts[k]? = some text → Appends malloc g.mem n (item k) text) :
    Appends malloc g.mem n (printItems malloc (fun m => len (dataHeader m p)) item fuel 0) (joined texts) := by
  have hfuel := h.fuel
  have hsize := hj.size
  rw [objSize_words ho] at hsize
  refine printItems_appends h.mallocs (fun s done hs => ?_) (fun k text hk => ?_) (by omega)
  · rw [(h.keeps hj hs).len, hlen, Nat.zero_add]
  · rw [Nat.zero_add]
    exact hitem k text hk

/-- A string -/
theorem printString_appends (h : Printing malloc g os slack n fuel) {contents : List UInt8}
    (hj : Found g os p j (.string contents))
    (hrun : objectText value' (heapOf g.heap.begin os) slack depth p (.string contents) = .ok text) :
    Appends malloc g.mem n (printValue malloc g.heap fuel (depth + 1) p) text := by
  rw [objectText] at hrun
  split_ifs at hrun with hzero
  cases hrun
  refine (printStringBuf_appends h.mallocs).of_eq fun s done hs => ?_
  obtain ⟨hbox, hvalid, htag⟩ := h.object hj hs
  have htag : tag (dataHeader s.1 p) = stringTag := htag
  obtain ⟨rest, hbytes⟩ := (h.keeps hj hs).bytes_append h.fuel
  rw [printValue, hbox, if_neg Bool.false_ne_true, hvalid, if_neg (by decide), if_pos htag,
    cString_of_bytes hbytes hzero]
  rfl

/-- A closure, given what the calls of itself do -/
theorem printClosure_appends (h : Printing malloc g os slack n fuel) {entry : Word} {captured : List Word}
    (hj : Found g os p j (.closure entry captured))
    (hv : ∀ w text, value' w = .ok text → Appends malloc g.mem n (printValue malloc g.heap fuel depth w) text)
    (hrun : objectText value' (heapOf g.heap.begin os) slack depth p (.closure entry captured) = .ok text) :
    Appends malloc g.mem n (printValue malloc g.heap fuel (depth + 1) p) text := by
  have hprint : ∀ text, Appends malloc g.mem n (printStringBuf malloc text) text := fun _ => printStringBuf_appends h.mallocs
  obtain ⟨texts, htexts, hrun⟩ := except_bind_ok.mp hrun
  cases hrun
  have hitems := items_appends hv htexts
  have hlen : captured.length = texts.length := (mapM_forall₂ htexts).length_eq
  have hkind : kind (Obj.closure entry captured) ≠ .string := by rw [kind]; decide
  have hfields := h.fields hj (hexadecimal entry :: texts) (fun i s =>
      if i = 0 then printStringBuf malloc (hexadecimal (load64 s.1 (element p memberSize i))) s
      else printValue malloc g.heap fuel depth (load64 s.1 (element p memberSize i)) s)
    (by rw [List.length_cons, ← hlen]; rfl) (by rw [List.length_cons, ← hlen]; exact Nat.le_refl _) hkind
    fun k text hk => by
      cases k with
      | zero =>
        cases hk
        exact h.word hj (fun w => printStringBuf malloc (hexadecimal w)) (k := 0) rfl (hprint _)
      | succ k =>
        obtain ⟨w, hw, happends⟩ := hitems k text hk
        exact h.word hj _ (k := k + 1) hw happends
  refine (((hprint _).bind hfields).bind (hprint _)).of_eq fun s done hs => ?_
  obtain ⟨hbox, hvalid, htag⟩ := h.object hj hs
  have htag : tag (dataHeader s.1 p) = closureTag := htag
  rw [printValue, hbox, if_neg Bool.false_ne_true, hvalid, if_neg (by decide), if_neg (by rw [htag]; decide),
    if_pos htag]
  exact (bind_assoc _ _ _).symm

/-- An array -/
theorem printArray_appends (h : Printing malloc g os slack n fuel) {elems : List Word}
    (hj : Found g os p j (.array elems))
    (hv : ∀ w text, value' w = .ok text → Appends malloc g.mem n (printValue malloc g.heap fuel depth w) text)
    (hrun : objectText value' (heapOf g.heap.begin os) slack depth p (.array elems) = .ok text) :
    Appends malloc g.mem n (printValue malloc g.heap fuel (depth + 1) p) text := by
  have hprint : ∀ text, Appends malloc g.mem n (printStringBuf malloc text) text := fun _ => printStringBuf_appends h.mallocs
  obtain ⟨texts, htexts, hrun⟩ := except_bind_ok.mp hrun
  cases hrun
  have hitems := items_appends hv htexts
  have hlen : elems.length = texts.length := (mapM_forall₂ htexts).length_eq
  have hkind : kind (Obj.array elems) ≠ .string := by rw [kind]; decide
  have hfields := h.fields hj texts (fun i s =>
      printValue malloc g.heap fuel depth (load64 s.1 (element p memberSize i)) s)
    hlen (Nat.le_of_eq hlen.symm) hkind fun k text hk => by
      obtain ⟨w, hw, happends⟩ := hitems k text hk
      exact h.word hj _ hw happends
  refine (((hprint _).bind hfields).bind (hprint _)).of_eq fun s done hs => ?_
  obtain ⟨hbox, hvalid, htag⟩ := h.object hj hs
  have htag : tag (dataHeader s.1 p) = arrayTag := htag
  rw [printValue, hbox, if_neg Bool.false_ne_true, hvalid, if_neg (by decide), if_neg (by rw [htag]; decide),
    if_neg (by rw [htag]; decide), if_pos htag]
  exact (bind_assoc _ _ _).symm

/-- `printValue` on an s-expression -/
theorem Printing.sexpTurn (h : Printing malloc g os slack n fuel) {tagWord : Word} {fields : List Word}
    (hj : Found g os p j (.sexp tagWord fields)) (hs : Holds malloc g.mem s done) :
    printValue malloc g.heap fuel (depth + 1) p s =
      if 2 ^ 60 ≤ tagWord.toNat then throw (.undefined (.object p.toNat))
      else if deHash maxSexpTaglen tagWord.toNat [] = consTag then
        printStringBuf malloc (asBytes "\x7b") s >>= printList malloc (printValue malloc g.heap fuel depth) depth p >>=
          printStringBuf malloc (asBytes "\x7d")
      else printStringBuf malloc (deHash maxSexpTaglen tagWord.toNat []) s >>= fun s =>
        if len (dataHeader s.1 p) = 0 then pure s
        else printStringBuf malloc (asBytes " (") s >>= printItems malloc (fun m => len (dataHeader m p)) (fun i s =>
          printValue malloc g.heap fuel depth (load64 s.1 (element p memberSize (i + 1))) s) fuel 0 >>=
            printStringBuf malloc (asBytes ")") := by
  obtain ⟨hbox, hvalid, htag⟩ := h.object hj hs
  have htag : tag (dataHeader s.1 p) = sexpTag := htag
  have hword : load64 s.1 p.toNat = tagWord := (h.keeps hj hs).firstWord slackAt_slackOf rfl
  rw [printValue, hbox, if_neg Bool.false_ne_true, hvalid, if_neg (by decide), if_neg (by rw [htag]; decide),
    if_neg (by rw [htag]; decide), if_neg (by rw [htag]; decide), if_pos htag, hword]
  simp only [bind_assoc]

/-- An s-expression -/
theorem printSexp_appends (h : Printing malloc g os slack n fuel) {tagWord : Word} {fields : List Word}
    (hj : Found g os p j (.sexp tagWord fields))
    (hv : ∀ w text, value' w = .ok text → Appends malloc g.mem n (printValue malloc g.heap fuel depth w) text)
    (hrun : objectText value' (heapOf g.heap.begin os) slack depth p (.sexp tagWord fields) = .ok text) :
    Appends malloc g.mem n (printValue malloc g.heap fuel (depth + 1) p) text := by
  have hprint : ∀ text, Appends malloc g.mem n (printStringBuf malloc text) text := fun _ => printStringBuf_appends h.mallocs
  rw [objectText] at hrun
  split_ifs at hrun with htag hcons hnil
  · obtain ⟨items, hitems, hrun⟩ := except_bind_ok.mp hrun
    cases hrun
    refine (((hprint _).bind (printList_appends h hv hitems hj)).bind (hprint _)).of_eq fun s done hs => ?_
    rw [h.sexpTurn hj hs, if_neg htag, if_pos hcons]
  · cases hrun
    have hend : Appends malloc g.mem n (fun s => if len (dataHeader s.1 p) = 0 then pure s
        else printStringBuf malloc (asBytes " (") s >>= printItems malloc (fun m => len (dataHeader m p)) (fun i s =>
          printValue malloc g.heap fuel depth (load64 s.1 (element p memberSize (i + 1))) s) fuel 0 >>=
            printStringBuf malloc (asBytes ")")) [] :=
      Appends.pure.of_eq fun s done hs => if_pos (by rw [(h.keeps hj hs).len, hnil]; rfl)
    have hall := (hprint (deHash maxSexpTaglen tagWord.toNat [])).bind hend
    rw [List.append_nil] at hall
    refine hall.of_eq fun s done hs => ?_
    rw [h.sexpTurn hj hs, if_neg htag, if_neg hcons]
  · obtain ⟨texts, htexts, hrun⟩ := except_bind_ok.mp hrun
    cases hrun
    have hitems := items_appends hv htexts
    have hlen : fields.length = texts.length := (mapM_forall₂ htexts).length_eq
    have hkind : kind (Obj.sexp tagWord fields) ≠ .string := by rw [kind]; decide
    have hfields := h.fields hj texts (fun i s =>
        printValue malloc g.heap fuel depth (load64 s.1 (element p memberSize (i + 1))) s)
      hlen (by rw [← hlen]; exact Nat.le_succ _) hkind fun k text hk => by
        obtain ⟨w, hw, happends⟩ := hitems k text hk
        exact h.word hj _ (k := k + 1) hw happends
    have hend : Appends malloc g.mem n (fun s => if len (dataHeader s.1 p) = 0 then pure s
        else printStringBuf malloc (asBytes " (") s >>= printItems malloc (fun m => len (dataHeader m p)) (fun i s =>
          printValue malloc g.heap fuel depth (load64 s.1 (element p memberSize (i + 1))) s) fuel 0 >>=
            printStringBuf malloc (asBytes ")")) (asBytes " (" ++ joined texts ++ asBytes ")") :=
      (((hprint _).bind hfields).bind (hprint _)).of_eq fun s done hs => if_neg (by
        rw [(h.keeps hj hs).len]
        exact fun hzero => hnil (List.eq_nil_of_length_eq_zero hzero))
    have hall := (hprint (deHash maxSexpTaglen tagWord.toNat [])).bind hend
    rw [← List.append_assoc, ← List.append_assoc] at hall
    refine hall.of_eq fun s done hs => ?_
    rw [h.sexpTurn hj hs, if_neg htag, if_neg hcons]

/-- `printValue` on an object, given what the calls of itself do -/
theorem printObject_appends (h : Printing malloc g os slack n fuel) (hj : Found g os p j o)
    (hv : ∀ w text, value' w = .ok text → Appends malloc g.mem n (printValue malloc g.heap fuel depth w) text)
    (hrun : objectText value' (heapOf g.heap.begin os) slack depth p o = .ok text) :
    Appends malloc g.mem n (printValue malloc g.heap fuel (depth + 1) p) text := by
  cases o with
  | string contents => exact printString_appends h hj hrun
  | closure entry captured => exact printClosure_appends h hj hv hrun
  | array elems => exact printArray_appends h hj hv hrun
  | sexp tagWord fields => exact printSexp_appends h hj hv hrun

/-- `printValue` adds the text of the value, if there is one. -/
theorem printValue_appends (h : Printing malloc g os slack n fuel) :
    ∀ {depth : ℕ} {p : Word} {text : List UInt8},
      LamaSM.printValue (isValidHeapPointer g.heap) (heapOf g.heap.begin os) slack depth p = .ok text →
      Appends malloc g.mem n (printValue malloc g.heap fuel depth p) text
  | 0, _, _, hrun => by cases hrun
  | depth + 1, p, text, hrun => by
    have hprint : ∀ text, Appends malloc g.mem n (printStringBuf malloc text) text := fun _ => printStringBuf_appends h.mallocs
    obtain ⟨hbox, rfl⟩ | ⟨hbox, hvalid, rfl⟩ | ⟨-, -, o, ho, hrun⟩ := printValue_turn.mp hrun
    · exact (hprint _).of_eq fun s done hs => by rw [printValue, if_pos hbox]
    · exact (hprint _).of_eq fun s done hs => by
        rw [printValue, hbox, if_neg Bool.false_ne_true, hvalid, if_pos (by decide)]
    · obtain ⟨j, hj⟩ := h.found ho
      exact printObject_appends h hj (fun w text hw => printValue_appends h hw) hrun

end Values

section Buffers

variable {malloc : ℕ → Option ℕ} {g : Globals} {os : List Obj} {slack : Word → ℕ → UInt8} {fuel depth : ℕ}
  {text : List UInt8} {p : Word}

/-- What the buffer is left with by `createStringBuf` and `printValue` -/
structure Printed (malloc : ℕ → Option ℕ) (m m' : ByteMemory) (buf : StringBuf) (text : List UInt8) : Prop where
  chars : CString m' buf.contents text
  ptr : buf.ptr = text.length
  place : malloc buf.len = some buf.contents
  fits : text.length < buf.len
  rest : ∀ b, (∀ len a, malloc len = some a → b < a ∨ a + len ≤ b) → m' b = m b

/-- A new buffer takes the text of a value and grows with it. The value is read once the buffer is there. -/
theorem Printing.printed (h : Printing malloc g os slack text.length fuel)
    (hrun : LamaSM.printValue (isValidHeapPointer g.heap) (heapOf g.heap.begin os) slack depth p = .ok text)
    {arg : ByteMemory → Word} (harg : ∀ m, (∀ b, (∀ len a, malloc len = some a → b < a ∨ a + len ≤ b) → m b = g.mem b) →
      arg m = p) :
    ∃ m' buf, (createStringBuf malloc g.mem >>= fun s => printValue malloc g.heap fuel depth (arg s.1) s) = .ok (m', buf) ∧
      Printed malloc g.mem m' buf text := by
  obtain ⟨s, hcreate, hs⟩ := createStringBuf_rule (m := g.mem) h.mallocs
  obtain ⟨s', hprint, hs'⟩ := printValue_appends h hrun s [] hs (by rw [List.length_nil, Nat.zero_add])
  rw [List.nil_append] at hs'
  refine ⟨s'.1, s'.2, by rw [hcreate, except_ok_bind, harg _ hs.rest, hprint], ?_, hs'.ptr, hs'.place, hs'.fits, hs'.rest⟩
  have hend := hs'.ended
  rw [hs'.ptr] at hend
  exact cString_of_chars hs'.chars (printValue_noNul hrun) hend

end Buffers

end Gc
end LamaSM
