import LamaSM.Blocks
import LamaSM.Lib.Sorting

/-! The counting half of `analyze` (`src/analyzer/Analyzer.hpp`): the recorded offsets are sorted by
    the bytes of their instructions, adjacent ones that compare equal are counted, and the counts are
    sorted.

    The comparisons are those of the byte strings in the lexicographic order of signed bytes, where a
    prefix comes first (`compareBytes_spec`); so the groups of the sorted vectors are the distinct
    byte strings (`countGroups_ok`), and the counts are exact (`counts_exact`). -/

namespace LamaSM
open Lib

namespace Analyzer

/-! ### The comparisons -/

/-- A byte as a `char`, which is signed. -/
def charOf (b : ℕ) : ℤ := if b < 2 ^ 7 then b else b - 2 ^ 8

/-- The loop of `compare_bytes`, `n` turns from `i` on, and what it returns after them. -/
def compareFrom (bf : Bytefile) (st1 st2 difference : ℤ) : ℕ → ℤ → Result ℤ
  | 0, _ => return difference
  | n + 1, i => do
    let b1 ← bf.code (st1 + i)
    let b2 ← bf.code (st2 + i)
    if charOf b1 ≠ charOf b2 then return charOf b1 - charOf b2
    else compareFrom bf st1 st2 difference n (i + 1)

/-- `compare_bytes` -/
def compareBytes (bf : Bytefile) (st1 end1 st2 end2 : ℤ) : Result ℤ :=
  compareFrom bf st1 st2 ((end1 - st1) - (end2 - st2)) (min (end1 - st1) (end2 - st2)).toNat 0

/-- `cmp_single`; the offsets are passed on as `int`. -/
def cmpSingle (bf : Bytefile) (i1 i2 : ℕ) : Result Bool := do
  let (nxt1, _) ← generalByterun bf i1
  let (nxt2, _) ← generalByterun bf i2
  let cmp ← compareBytes bf (toI32 i1) (toI32 nxt1) (toI32 i2) (toI32 nxt2)
  return cmp < 0

/-- `cmp_pair` -/
def cmpPair (bf : Bytefile) (i1 i2 : ℕ) : Result Bool := do
  let (nxt1, _) ← generalByterun bf i1
  let (nxt2, _) ← generalByterun bf i2
  let cmp1 ← compareBytes bf (toI32 i1) (toI32 nxt1) (toI32 i2) (toI32 nxt2)
  if cmp1 = 0 then cmpSingle bf nxt1 nxt2 else return cmp1 < 0

/-! ### Grouping -/

/-- The inner loop over `j`, from the element at `i`, whose value is `x`: how far it gets in what is
    left of the vector. -/
def groupLength (cmp : ℕ → ℕ → Result Bool) (x : ℕ) : List ℕ → Result ℕ
  | [] => return 0
  | y :: ys => do
    let less ← cmp x y
    if less then return 0
    else do
      let n ← groupLength cmp x ys
      return n + 1

/-- The loop over `i`, which goes on at `j` since `i = j - 1` is followed by `i++`; `kind` is the
    lowest bit of what is stored. -/
def countGroups (cmp : ℕ → ℕ → Result Bool) (kind : ℕ) (xs : List ℕ) :
    ℕ → ℕ → List (ℕ × ℕ) → Result (List (ℕ × ℕ))
  | 0, _, _ => throw .timeout
  | fuel + 1, i, counter =>
    match xs[i]? with
    | none => return counter
    | some x => do
      let n ← groupLength cmp x (xs.drop i)
      let j := i + n
      countGroups cmp kind xs fuel j
        (counter ++ [(toU32 (j - i : ℕ), toU32 (kind ||| (i <<< 1) : ℕ))])

/-- `operator<` of `std::pair` -/
def counterLess (a b : ℕ × ℕ) : Result Bool := return a.1 < b.1 ∨ a.1 = b.1 ∧ a.2 < b.2

/-- The vectors of the analyzer after `analyze`. -/
structure Counted where
  collectSingle : List ℕ
  collectPairs : List ℕ
  counter : List (ℕ × ℕ)
  deriving DecidableEq, Repr

/-- `analyze` after its traversal, with any routine for `std::sort`. -/
def sortAndCount (S : Sorter Fault) (bf : Bytefile) (single pairs : List ℕ) : Result Counted := do
  let collectSingle ← S.sort (cmpSingle bf) single
  let collectPairs ← S.sort (cmpPair bf) pairs
  let counter ← countGroups (cmpSingle bf) 0 collectSingle (collectSingle.length + 1) 0 []
  let counter ← countGroups (cmpPair bf) 1 collectPairs (collectPairs.length + 1) 0 counter
  let counter ← S.sort counterLess counter
  return { collectSingle, collectPairs, counter := counter.reverse }

/-- Where `results` starts to print for an entry of `counter`, and whether it prints two
    instructions; none when the index is outside its vector. -/
def Counted.offsetOf (c : Counted) (s : ℕ) : Option (Bool × ℕ) :=
  if s &&& 1 ≠ 0 then (c.collectPairs[s >>> 1]?).map (true, ·)
  else (c.collectSingle[s >>> 1]?).map (false, ·)

/-! ### Byte strings -/

/-- `n` bytes of the code from `o` on. -/
def codeBytes (bf : Bytefile) : ℕ → ℤ → Result (List ℕ)
  | 0, _ => return []
  | n + 1, o => do
    let b ← bf.code o
    let bs ← codeBytes bf n (o + 1)
    return b :: bs

/-- The bytes of the instruction at `o`. -/
def instructionBytes (bf : Bytefile) (o : ℕ) : Result (List ℕ) := do
  let (nxt, _) ← generalByterun bf o
  codeBytes bf (nxt - o) o

/-- The bytes of the instruction at `o` and of the one behind it. -/
def pairBytes (bf : Bytefile) (o : ℕ) : Result (List ℕ × List ℕ) := do
  let (nxt, _) ← generalByterun bf o
  let s ← instructionBytes bf o
  let t ← instructionBytes bf nxt
  return (s, t)

/-- A whole instruction lies at `o`, up to `nxt`, with these bytes. -/
structure Spells (bf : Bytefile) (o nxt : ℕ) (s : List ℕ) : Prop where
  decoded : ∃ type, generalByterun bf o = .ok (nxt, type)
  le : o ≤ nxt
  lt : nxt < 2 ^ 31
  bytes : codeBytes bf (nxt - o) o = .ok s

/-! ### The orders -/

/-- The order the comparisons follow: byte strings as strings of `char`. -/
def chars (s : List ℕ) : List ℤ := s.map charOf

section Compare

variable {bf : Bytefile} {st1 st2 : ℤ}

theorem charOf_inj {a b : ℕ} (ha : a < 2 ^ 8) (hb : b < 2 ^ 8) (h : charOf a = charOf b) : a = b := by
  unfold charOf at h
  split at h <;> split at h <;> omega

theorem codeBytes_ok : ∀ {n : ℕ} {o : ℤ} {s : List ℕ}, codeBytes bf n o = .ok s →
    s.length = n ∧ ∀ b ∈ s, b < 2 ^ 8
  | 0, _, _, h => by
    cases h
    exact ⟨rfl, fun _ hb => nomatch hb⟩
  | n + 1, o, s, h => by
    obtain ⟨b, hb, h⟩ := except_bind_ok.mp h
    obtain ⟨bs, hbs, h⟩ := except_bind_ok.mp h
    obtain rfl := except_pure_ok.mp h
    obtain ⟨hlen, hbytes⟩ := codeBytes_ok hbs
    refine ⟨by rw [List.length_cons, hlen], fun c hc => ?_⟩
    rcases List.mem_cons.mp hc with rfl | hc
    · exact (Bytefile.byte_ok hb).2.2
    · exact hbytes c hc

theorem chars_inj {s t : List ℕ} (hs : ∀ b ∈ s, b < 2 ^ 8) (ht : ∀ b ∈ t, b < 2 ^ 8)
    (h : chars s = chars t) : s = t := by
  induction s generalizing t with
  | nil => exact (List.map_eq_nil_iff.mp h.symm).symm
  | cons a s ih =>
    cases t with
    | nil => cases h
    | cons b t =>
      obtain ⟨hab, hst⟩ := List.cons.inj h
      rw [charOf_inj (hs a List.mem_cons_self) (ht b List.mem_cons_self) hab,
        ih (fun c hc => hs c (List.mem_cons_of_mem a hc)) (fun c hc => ht c (List.mem_cons_of_mem b hc)) hst]

/-- The loop of `compare_bytes` over what is left of two byte strings. -/
theorem compareFrom_spec : ∀ {m n : ℕ} {i d : ℤ} {s t : List ℕ}, codeBytes bf m (st1 + i) = .ok s →
    codeBytes bf n (st2 + i) = .ok t → d = (m : ℤ) - n →
      ∃ r, compareFrom bf st1 st2 d (min m n) i = .ok r ∧ (r < 0 ↔ chars s < chars t) ∧ (r = 0 ↔ s = t)
  | 0, n, i, d, s, t, hs, ht, hd => by
    cases hs
    have hlen := (codeBytes_ok ht).1
    rw [Nat.zero_min]
    refine ⟨d, rfl, ?_, ?_⟩
    · cases t with
      | nil => simp [chars] at hlen ⊢; omega
      | cons => simp [chars] at hlen ⊢; omega
    · cases t with
      | nil => simp at hlen ⊢; omega
      | cons => simp at hlen ⊢; omega
  | m + 1, 0, i, d, s, t, hs, ht, hd => by
    cases ht
    have hlen := (codeBytes_ok hs).1
    rw [Nat.min_zero]
    refine ⟨d, rfl, ?_, ?_⟩
    · simp [chars]; omega
    · cases s with
      | nil => cases hlen
      | cons => simp; omega
  | m + 1, n + 1, i, d, s, t, hs, ht, hd => by
    obtain ⟨a, ha, hs⟩ := except_bind_ok.mp hs
    obtain ⟨s, hs', hs⟩ := except_bind_ok.mp hs
    obtain rfl := except_pure_ok.mp hs
    obtain ⟨b, hb, ht⟩ := except_bind_ok.mp ht
    obtain ⟨t, ht', ht⟩ := except_bind_ok.mp ht
    obtain rfl := except_pure_ok.mp ht
    have hab := charOf_inj (Bytefile.byte_ok ha).2.2 (Bytefile.byte_ok hb).2.2
    rw [Nat.succ_min_succ, compareFrom, ha, except_ok_bind, hb, except_ok_bind]
    simp only [chars, List.map_cons, List.cons_lt_cons_iff, List.cons.injEq]
    split
    · rename_i hne
      refine ⟨_, rfl, ?_, ?_⟩
      · constructor
        · exact fun h => .inl (by omega)
        · rintro (h | ⟨h, -⟩)
          · omega
          · exact absurd h hne
      · constructor
        · exact fun h => absurd (by omega) hne
        · rintro ⟨rfl, -⟩
          exact absurd rfl hne
    · rename_i heq
      have heq : charOf a = charOf b := not_not.mp heq
      rw [Int.add_assoc] at hs' ht'
      obtain ⟨r, hr, hlt, hzero⟩ := compareFrom_spec (d := d) hs' ht' (by omega)
      refine ⟨r, hr, ?_, ?_⟩
      · rw [hlt, heq]
        simp [chars]
      · rw [hzero, hab heq]
        simp

end Compare

section Orders

variable {bf : Bytefile} {o o' nxt nxt' : ℕ} {s s' t t' : List ℕ}

theorem Spells.instructionBytes_eq (h : Spells bf o nxt s) : instructionBytes bf o = .ok s := by
  obtain ⟨type, hdec⟩ := h.decoded
  rw [instructionBytes, hdec]
  exact h.bytes

theorem pairBytes_eq (h : Spells bf o nxt s) (ht : Spells bf nxt nxt' t) :
    pairBytes bf o = .ok (s, t) := by
  obtain ⟨type, hdec⟩ := h.decoded
  rw [pairBytes, hdec, except_ok_bind]
  dsimp only
  rw [h.instructionBytes_eq, ht.instructionBytes_eq]
  rfl

/-- `compare_bytes` on two whole instructions. -/
theorem compareBytes_spec (h : Spells bf o nxt s) (h' : Spells bf o' nxt' s') :
    ∃ r, compareBytes bf (toI32 o) (toI32 nxt) (toI32 o') (toI32 nxt') = .ok r ∧
      (r < 0 ↔ chars s < chars s') ∧ (r = 0 ↔ s = s') := by
  have hle := h.le
  have hlt := h.lt
  have hle' := h'.le
  have hlt' := h'.lt
  rw [toI32_of_lt (show o < 2 ^ 31 by omega), toI32_of_lt hlt, toI32_of_lt (show o' < 2 ^ 31 by omega),
    toI32_of_lt hlt', compareBytes]
  have hturns : (min ((nxt : ℤ) - o) (nxt' - o')).toNat = min (nxt - o) (nxt' - o') := by omega
  have hdifference : ((nxt : ℤ) - o) - (nxt' - o') = ((nxt - o : ℕ) : ℤ) - (nxt' - o' : ℕ) := by omega
  rw [hturns, hdifference]
  exact compareFrom_spec (by rw [Int.add_zero]; exact h.bytes) (by rw [Int.add_zero]; exact h'.bytes) rfl

/-- `cmp_single` compares the byte strings. -/
theorem cmpSingle_spec (h : Spells bf o nxt s) (h' : Spells bf o' nxt' s') :
    cmpSingle bf o o' = .ok (decide (chars s < chars s')) := by
  obtain ⟨type, hdec⟩ := h.decoded
  obtain ⟨type', hdec'⟩ := h'.decoded
  obtain ⟨r, hr, hlt, -⟩ := compareBytes_spec h h'
  have heq : decide (r < 0) = decide (chars s < chars s') := decide_eq_decide.mpr hlt
  rw [cmpSingle, hdec, except_ok_bind]
  dsimp only
  rw [hdec', except_ok_bind]
  dsimp only
  rw [hr, except_ok_bind, heq]
  rfl

/-- `cmp_pair` compares the pairs of byte strings. -/
theorem cmpPair_spec {n n' : ℕ} (h : Spells bf o nxt s) (ht : Spells bf nxt n t)
    (h' : Spells bf o' nxt' s') (ht' : Spells bf nxt' n' t') :
    cmpPair bf o o' = .ok (decide (toLex (chars s, chars t) < toLex (chars s', chars t'))) := by
  obtain ⟨type, hdec⟩ := h.decoded
  obtain ⟨type', hdec'⟩ := h'.decoded
  obtain ⟨r, hr, hlt, hzero⟩ := compareBytes_spec h h'
  have hlex := Prod.Lex.toLex_lt_toLex (x := (chars s, chars t)) (y := (chars s', chars t'))
  rw [cmpPair, hdec, except_ok_bind]
  dsimp only
  rw [hdec', except_ok_bind]
  dsimp only
  rw [hr, except_ok_bind]
  split
  · rename_i hequal
    have hss : chars s = chars s' := congrArg chars (hzero.mp hequal)
    rw [cmpSingle_spec ht ht']
    refine congrArg Except.ok (decide_eq_decide.mpr (Iff.trans ?_ hlex.symm))
    exact ⟨fun h => .inr ⟨hss, h⟩, fun h => (h.resolve_left (by rw [hss]; exact lt_irrefl _)).2⟩
  · rename_i hne
    have hne : chars s ≠ chars s' := fun heq => hne (hzero.mpr (chars_inj (codeBytes_ok h.bytes).2
      (codeBytes_ok h'.bytes).2 heq))
    have heq : decide (r < 0) = decide (toLex (chars s, chars t) < toLex (chars s', chars t')) :=
      decide_eq_decide.mpr (hlt.trans ((or_iff_left fun h => hne h.1).symm.trans hlex.symm))
    rw [heq]
    rfl

end Orders

/-! ### The orders on offsets -/

/-- A whole instruction lies at `o`. -/
def Whole (bf : Bytefile) (o : ℕ) : Prop := ∃ nxt s, Spells bf o nxt s

/-- A whole instruction lies at `o` and another one behind it. -/
def WholePair (bf : Bytefile) (o : ℕ) : Prop :=
  ∃ nxt s n t, Spells bf o nxt s ∧ Spells bf nxt n t

/-- What the comparisons look at. -/
def singleKey (bf : Bytefile) (o : ℕ) : List ℤ :=
  match instructionBytes bf o with
  | .ok s => chars s
  | .error _ => []

def pairKey (bf : Bytefile) (o : ℕ) : List ℤ ×ₗ List ℤ :=
  match pairBytes bf o with
  | .ok p => toLex (chars p.1, chars p.2)
  | .error _ => toLex ([], [])

section Keys

variable {bf : Bytefile} {o o' : ℕ}

theorem cmpSingle_key (h : Whole bf o) (h' : Whole bf o') :
    cmpSingle bf o o' = .ok (decide (singleKey bf o < singleKey bf o')) := by
  obtain ⟨nxt, s, h⟩ := h
  obtain ⟨nxt', s', h'⟩ := h'
  rw [cmpSingle_spec h h', singleKey, h.instructionBytes_eq, singleKey, h'.instructionBytes_eq]

theorem cmpPair_key (h : WholePair bf o) (h' : WholePair bf o') :
    cmpPair bf o o' = .ok (decide (pairKey bf o < pairKey bf o')) := by
  obtain ⟨nxt, s, n, t, h, ht⟩ := h
  obtain ⟨nxt', s', n', t', h', ht'⟩ := h'
  rw [cmpPair_spec h ht h' ht', pairKey, pairBytes_eq h ht, pairKey, pairBytes_eq h' ht']

theorem singleKey_inj (h : Whole bf o) (h' : Whole bf o') :
    singleKey bf o = singleKey bf o' ↔ instructionBytes bf o = instructionBytes bf o' := by
  obtain ⟨nxt, s, h⟩ := h
  obtain ⟨nxt', s', h'⟩ := h'
  rw [singleKey, h.instructionBytes_eq, singleKey, h'.instructionBytes_eq, Except.ok.injEq]
  exact ⟨chars_inj (codeBytes_ok h.bytes).2 (codeBytes_ok h'.bytes).2, congrArg chars⟩

theorem pairKey_inj (h : WholePair bf o) (h' : WholePair bf o') :
    pairKey bf o = pairKey bf o' ↔ pairBytes bf o = pairBytes bf o' := by
  obtain ⟨nxt, s, n, t, h, ht⟩ := h
  obtain ⟨nxt', s', n', t', h', ht'⟩ := h'
  rw [pairKey, pairBytes_eq h ht, pairKey, pairBytes_eq h' ht', Except.ok.injEq, Prod.mk.injEq]
  refine ⟨fun heq => ?_, fun heq => by rw [heq.1, heq.2]⟩
  obtain ⟨hs, hts⟩ := Prod.mk.inj heq
  exact ⟨chars_inj (codeBytes_ok h.bytes).2 (codeBytes_ok h'.bytes).2 hs,
    chars_inj (codeBytes_ok ht.bytes).2 (codeBytes_ok ht'.bytes).2 hts⟩

end Keys

/-! ### The groups -/

section Groups

variable {κ L : Type} [LinearOrder L] {cmp : ℕ → ℕ → Result Bool} {P : ℕ → Prop} {name : ℕ → κ}
  {key : ℕ → L}

/-- A comparison of whole instructions: by a key that is as fine as the name. -/
structure Compares (cmp : ℕ → ℕ → Result Bool) (P : ℕ → Prop) (name : ℕ → κ) (key : ℕ → L) : Prop where
  less : ∀ a b, P a → P b → cmp a b = .ok (decide (key a < key b))
  key_eq : ∀ {a b}, P a → P b → (key a = key b ↔ name a = name b)

/-- Over a sorted rest the inner loop passes the elements with the same name and stops before the
    others. -/
theorem groupLength_ok (h : Compares cmp P name key) {x : ℕ} (hx : P x) : ∀ {ys : List ℕ},
    (∀ y ∈ ys, P y) → ys.Pairwise (fun a b => key a ≤ key b) → (∀ y ∈ ys, key x ≤ key y) →
      ∃ n ≤ ys.length, groupLength cmp x ys = .ok n ∧ (∀ y ∈ ys.take n, name y = name x) ∧
        ∀ y ∈ ys.drop n, name y ≠ name x
  | [], _, _, _ => ⟨0, Nat.le_refl 0, rfl, by simp, by simp⟩
  | y :: ys, hP, hsorted, hle => by
    obtain ⟨hy, hsorted⟩ := List.pairwise_cons.mp hsorted
    have hPy := hP y List.mem_cons_self
    by_cases hlt : key x < key y
    · refine ⟨0, Nat.zero_le _, ?_, by simp, fun z hz heq => ?_⟩
      · rw [groupLength, h.less x y hx hPy, except_ok_bind, if_pos (by simpa using hlt)]
        rfl
      · have hxz := (h.key_eq (hP z hz) hx).mpr heq
        rcases List.mem_cons.mp hz with rfl | hz
        · exact absurd hxz hlt.ne'
        · exact absurd hxz (hlt.trans_le (hy z hz)).ne'
    · obtain ⟨n, hn, hok, hsame, hother⟩ := groupLength_ok h hx
        (fun z hz => hP z (List.mem_cons_of_mem y hz)) hsorted
        fun z hz => hle z (List.mem_cons_of_mem y hz)
      refine ⟨n + 1, Nat.succ_le_succ hn, ?_, fun z hz => ?_, hother⟩
      · rw [groupLength, h.less x y hx hPy, except_ok_bind, if_neg (by simpa using hlt), hok]
        rfl
      · rcases List.mem_cons.mp hz with rfl | hz
        · exact (h.key_eq hPy hx).mp (le_antisymm (not_lt.mp hlt) (hle _ List.mem_cons_self))
        · exact hsame z hz

/-- An entry of `counter` for a group. -/
def entryOf (kind : ℕ) (e : ℕ × ℕ) : ℕ × ℕ := (toU32 e.1, toU32 (kind ||| (e.2 <<< 1) : ℕ))

/-- The loops over a sorted vector find its groups. -/
theorem countGroups_ok (h : Compares cmp P name key) (kind : ℕ) {xs : List ℕ} (hP : ∀ x ∈ xs, P x)
    (hsorted : xs.Pairwise fun a b => key a ≤ key b) : ∀ (fuel i : ℕ) (counter : List (ℕ × ℕ)),
      i ≤ xs.length → xs.length - i < fuel →
        ∃ es, Groups i ((xs.drop i).map name) es ∧
          countGroups cmp kind xs fuel i counter = .ok (counter ++ es.map (entryOf kind))
  | fuel + 1, i, counter, hi, hfuel => by
    rw [countGroups]
    cases hx : xs[i]? with
    | none =>
      have hend : xs.drop i = [] := List.drop_eq_nil_of_le (List.getElem?_eq_none_iff.mp hx)
      rw [hend]
      exact ⟨[], .nil, by rw [List.map_nil, List.append_nil]; rfl⟩
    | some x =>
      obtain ⟨hlt, hget⟩ := List.getElem?_eq_some_iff.mp hx
      have hdrop : xs.drop i = x :: xs.drop (i + 1) := by rw [List.drop_eq_getElem_cons hlt, hget]
      have hmem : ∀ y ∈ xs.drop i, y ∈ xs := fun y hy => List.mem_of_mem_drop hy
      have hsorted' := hsorted.sublist (List.drop_sublist i xs)
      have hle : ∀ y ∈ xs.drop i, key x ≤ key y := by
        rw [hdrop] at hsorted' ⊢
        intro y hy
        rcases List.mem_cons.mp hy with rfl | hy
        · exact le_rfl
        · exact (List.pairwise_cons.mp hsorted').1 y hy
      obtain ⟨n, hn, hok, hsame, hother⟩ := groupLength_ok h (hP x (List.mem_of_getElem? hx))
        (fun y hy => hP y (hmem y hy)) hsorted' hle
      -- the element at `i` is not less than itself, so the loop makes a step
      have hpos : 0 < n := by
        refine Nat.pos_of_ne_zero ?_
        rintro rfl
        exact hother x (by rw [List.drop_zero, hdrop]; exact List.mem_cons_self) rfl
      rw [List.length_drop] at hn
      obtain ⟨es, hes, hrest⟩ := countGroups_ok h kind hP hsorted fuel (i + n)
        (counter ++ [entryOf kind (n, i)]) (by omega) (by omega)
      refine ⟨(n, i) :: es, ?_, ?_⟩
      · have hsplit : (xs.drop i).map name =
            List.replicate n (name x) ++ (xs.drop (i + n)).map name := by
          have htake : ((xs.drop i).take n).map name = List.replicate n (name x) := by
            refine List.eq_replicate_iff.mpr ⟨by rw [List.length_map, List.length_take, List.length_drop]; omega, ?_⟩
            intro k hk
            obtain ⟨y, hy, rfl⟩ := List.mem_map.mp hk
            exact hsame y hy
          rw [← htake, ← List.drop_drop, ← List.map_append, List.take_append_drop]
        rw [hsplit]
        refine .cons hpos (fun hk => ?_) hes
        obtain ⟨y, hy, heq⟩ := List.mem_map.mp hk
        exact hother y (by rw [List.drop_drop]; exact hy) heq
      · dsimp only
        rw [hok, except_ok_bind, Nat.add_sub_cancel_left]
        refine hrest.trans ?_
        rw [List.map_cons, List.append_assoc, List.singleton_append]

/-- The entry of a group leads to an element whose name occurs as often as the entry says. -/
theorem entryOf_eq {kind : ℕ} (hkind : kind < 2) {xs : List ℕ} (hlen : xs.length < 2 ^ 30)
    [DecidableEq κ] {es : List (ℕ × ℕ)} (hes : Groups 0 (xs.map name) es) : ∀ g ∈ es,
      entryOf kind g = (g.1, 2 * g.2 + kind) ∧
        ∃ o, xs[g.2]? = some o ∧ g.1 = (xs.map name).count (name o) := by
  intro g hg
  obtain ⟨k, hk, hcount⟩ := hes.count g hg
  rw [Nat.sub_zero, List.getElem?_map] at hk
  obtain ⟨o, ho, rfl⟩ := Option.map_eq_some_iff.mp hk
  obtain ⟨hlt, -⟩ := List.getElem?_eq_some_iff.mp ho
  have hle : g.1 ≤ xs.length := by
    rw [hcount]
    exact List.count_le_length.trans (Nat.le_of_eq (List.length_map _))
  have hbits : kind ||| g.2 <<< 1 = 2 * g.2 + kind := by
    rw [Nat.or_comm, ← Nat.shiftLeft_add_eq_or_of_lt (by simpa using hkind), Nat.shiftLeft_eq]
    omega
  refine ⟨?_, o, ho, hcount⟩
  rw [entryOf, hbits, toU32_of_lt (by omega), toU32_of_lt (by omega)]

/-- Sorting by such a comparison sorts by the key. -/
theorem Compares.sorts (h : Compares cmp P name key) (S : Sorter Fault) {l : List ℕ}
    (hl : ∀ o ∈ l, P o) : ∃ xs, S.sort cmp l = .ok xs ∧ xs.Perm l ∧
      xs.Pairwise fun a b => key a ≤ key b := by
  have hweak : StrictWeak cmp (· ∈ l) :=
    strictWeak_of_key fun a b ha hb => h.less a b (hl a ha) (hl b hb)
  obtain ⟨xs, hsort, hperm, hsorted⟩ := S.sorts cmp l hweak
  refine ⟨xs, hsort, hperm, hsorted.imp_of_mem fun {a b} ha hb hab => ?_⟩
  rw [h.less b a (hl b (hperm.mem_iff.mp hb)) (hl a (hperm.mem_iff.mp ha))] at hab
  exact not_lt.mp (of_decide_eq_false (Except.ok.inj hab))

end Groups

/-! ### The counts -/

/-- What an entry of `counter` is about: the byte string of an instruction, or of two. -/
inductive Subject
  | single (bytes : List ℕ)
  | pair (bytes next : List ℕ)
  deriving DecidableEq

/-- The byte string of what `results` prints for an entry of `counter`. -/
def Counted.subject (bf : Bytefile) (c : Counted) (s : ℕ) : Option Subject :=
  match c.offsetOf s with
  | none => none
  | some (false, o) => (instructionBytes bf o).toOption.map .single
  | some (true, o) => (pairBytes bf o).toOption.map fun p => .pair p.1 p.2

/-- The number of recorded offsets with this byte string. -/
def occurrences (bf : Bytefile) (single pairs : List ℕ) : Subject → ℕ
  | .single s => single.countP fun o => instructionBytes bf o = .ok s
  | .pair s t => pairs.countP fun o => pairBytes bf o = .ok (s, t)

/-- The counts are exact: an entry for each distinct byte string, with the number of its offsets. -/
structure CountsExact (bf : Bytefile) (single pairs : List ℕ) (c : Counted) : Prop where
  single_perm : c.collectSingle.Perm single
  pairs_perm : c.collectPairs.Perm pairs
  count : ∀ e ∈ c.counter, ∃ k, c.subject bf e.2 = some k ∧ e.1 = occurrences bf single pairs k
  once : ∀ k, c.counter.countP (fun e => c.subject bf e.2 = some k) =
    if 0 < occurrences bf single pairs k then 1 else 0
  single_sum : ((c.counter.filter fun e => e.2 &&& 1 = 0).map Prod.fst).sum = single.length
  pairs_sum : ((c.counter.filter fun e => e.2 &&& 1 = 1).map Prod.fst).sum = pairs.length
  descending : c.counter.Pairwise fun a b => b.1 ≤ a.1

section Counts

variable {bf : Bytefile} {c : Counted} {i o : ℕ}

theorem subject_single (ho : c.collectSingle[i]? = some o) {s : List ℕ}
    (hs : instructionBytes bf o = .ok s) : c.subject bf (2 * i + 0) = some (.single s) := by
  have hbit : (2 * i + 0) &&& 1 = 0 := by rw [Nat.and_one_is_mod]; omega
  have hindex : (2 * i + 0) >>> 1 = i := by rw [Nat.shiftRight_eq_div_pow]; omega
  rw [Counted.subject, Counted.offsetOf, hbit, hindex, ho]
  simp [hs, Except.toOption]

theorem subject_pair (ho : c.collectPairs[i]? = some o) {s t : List ℕ}
    (hs : pairBytes bf o = .ok (s, t)) : c.subject bf (2 * i + 1) = some (.pair s t) := by
  have hbit : (2 * i + 1) &&& 1 = 1 := by rw [Nat.and_one_is_mod]; omega
  have hindex : (2 * i + 1) >>> 1 = i := by rw [Nat.shiftRight_eq_div_pow]; omega
  rw [Counted.subject, Counted.offsetOf, hbit, hindex, ho]
  simp [hs, Except.toOption]

theorem counterLess_key (a b : ℕ × ℕ) : counterLess a b = .ok (decide (toLex a < toLex b)) :=
  congrArg Except.ok (decide_eq_decide.mpr Prod.Lex.toLex_lt_toLex.symm)

end Counts

/-- What the loops over one sorted vector add to `counter`. -/
structure Grouped {κ : Type} [DecidableEq κ] (name : ℕ → κ) (kind : ℕ) (xs : List ℕ)
    (entries : List (ℕ × ℕ)) : Prop where
  entry : ∀ e ∈ entries, ∃ i o, e.2 = 2 * i + kind ∧ xs[i]? = some o ∧
    e.1 = xs.countP fun o' => name o' = name o
  once : ∀ k, entries.countP (fun e => (xs[e.2 / 2]?).map name = some k) =
    if 0 < xs.countP (fun o => name o = k) then 1 else 0
  sum : (entries.map Prod.fst).sum = xs.length

section Grouped

variable {κ L : Type} [DecidableEq κ] [LinearOrder L] {cmp : ℕ → ℕ → Result Bool} {P : ℕ → Prop}
  {name : ℕ → κ} {key : ℕ → L} {kind : ℕ} {xs : List ℕ}

theorem count_map_eq (k : κ) : (xs.map name).count k = xs.countP fun o => name o = k := by
  rw [List.count, List.countP_map]
  exact List.countP_congr fun o _ => by simp

theorem grouped_of_groups (hkind : kind < 2) (hlen : xs.length < 2 ^ 30) {es : List (ℕ × ℕ)}
    (hes : Groups 0 (xs.map name) es) : Grouped name kind xs (es.map (entryOf kind)) := by
  have hentry := entryOf_eq hkind hlen hes
  refine ⟨fun e he => ?_, fun k => ?_, ?_⟩
  · obtain ⟨g, hg, rfl⟩ := List.mem_map.mp he
    obtain ⟨heq, o, ho, hcount⟩ := hentry g hg
    exact ⟨g.2, o, by rw [heq], ho, by rw [heq, hcount, count_map_eq]⟩
  · have honce := hes.once k
    have hmem : k ∈ xs.map name ↔ 0 < xs.countP (fun o => name o = k) := by
      rw [← count_map_eq, List.count_pos_iff]
    rw [← if_congr hmem rfl rfl, ← honce, List.countP_map]
    refine List.countP_congr fun g hg => ?_
    have hhalf : (2 * g.2 + kind) / 2 = g.2 := by omega
    rw [Function.comp_apply, (hentry g hg).1, hhalf, Nat.sub_zero, List.getElem?_map]
  · have hfst : (es.map (entryOf kind)).map Prod.fst = es.map Prod.fst := by
      rw [List.map_map]
      exact List.map_congr_left fun g hg => by rw [Function.comp_apply, (hentry g hg).1]
    rw [hfst, hes.sum_eq, List.length_map]

/-- The loops over a sorted vector. -/
theorem countGroups_grouped (kind : ℕ) (h : Compares cmp P name key) (hkind : kind < 2)
    (hlen : xs.length < 2 ^ 30) (hP : ∀ x ∈ xs, P x)
    (hsorted : xs.Pairwise fun a b => key a ≤ key b) (counter : List (ℕ × ℕ)) :
    ∃ entries, countGroups cmp kind xs (xs.length + 1) 0 counter = .ok (counter ++ entries) ∧
      Grouped name kind xs entries := by
  obtain ⟨es, hes, hok⟩ := countGroups_ok h kind hP hsorted (xs.length + 1) 0 counter
    (Nat.zero_le _) (by omega)
  rw [List.drop_zero] at hes
  exact ⟨_, hok, grouped_of_groups hkind hlen hes⟩

end Grouped

section Exact

variable {β : Type} [DecidableEq β] {name : ℕ → Result β} {bf : Bytefile} {c : Counted} {kind : ℕ}
  {xs ys : List ℕ} {entries : List (ℕ × ℕ)} {mk : β → Subject}

/-- The entries of a vector lead to byte strings of its offsets and count them. -/
theorem Grouped.subject_count (h : Grouped name kind xs entries) (hname : ∀ o ∈ xs, ∃ b, name o = .ok b)
    (hsubject : ∀ i o b, xs[i]? = some o → name o = .ok b → c.subject bf (2 * i + kind) = some (mk b)) :
    ∀ e ∈ entries, ∃ b, c.subject bf e.2 = some (mk b) ∧ e.1 = xs.countP fun o => name o = .ok b := by
  intro e he
  obtain ⟨i, o, hindex, ho, hcount⟩ := h.entry e he
  obtain ⟨b, hb⟩ := hname o (List.mem_of_getElem? ho)
  rw [hb] at hcount
  exact ⟨b, hindex ▸ hsubject i o b ho hb, hcount⟩

/-- Each byte string of the vector has one of its entries. -/
theorem Grouped.subject_once (h : Grouped name kind xs entries) (hkind : kind < 2)
    (hmk : Function.Injective mk) (hname : ∀ o ∈ xs, ∃ b, name o = .ok b)
    (hsubject : ∀ i o b, xs[i]? = some o → name o = .ok b → c.subject bf (2 * i + kind) = some (mk b))
    (b : β) : entries.countP (fun e => c.subject bf e.2 = some (mk b)) =
      if 0 < xs.countP (fun o => name o = .ok b) then 1 else 0 := by
  rw [← h.once]
  refine List.countP_congr fun e he => ?_
  obtain ⟨i, o, hindex, ho, -⟩ := h.entry e he
  obtain ⟨b', hb'⟩ := hname o (List.mem_of_getElem? ho)
  have hhalf : (2 * i + kind) / 2 = i := by omega
  rw [hindex, hsubject i o b' ho hb', hhalf, ho, Option.map_some, hb']
  simp [hmk.eq_iff]

/-- No byte string of the other vector has one. -/
theorem Grouped.subject_none (h : Grouped name kind xs entries) (hname : ∀ o ∈ xs, ∃ b, name o = .ok b)
    (hsubject : ∀ i o b, xs[i]? = some o → name o = .ok b → c.subject bf (2 * i + kind) = some (mk b))
    {k : Subject} (hk : ∀ b, mk b ≠ k) :
    entries.countP (fun e => c.subject bf e.2 = some k) = 0 := by
  refine List.countP_eq_zero.mpr fun e he => ?_
  obtain ⟨b, hb, -⟩ := h.subject_count hname hsubject e he
  rw [hb, decide_eq_true_iff, Option.some.injEq]
  exact hk b

/-- The lowest bit of its entries. -/
theorem Grouped.kind_eq (h : Grouped name kind xs entries) (hkind : kind < 2) :
    ∀ e ∈ entries, e.2 &&& 1 = kind := by
  intro e he
  obtain ⟨i, o, hindex, -, -⟩ := h.entry e he
  rw [hindex, Nat.and_one_is_mod]
  omega

/-- The counts of the entries with one kind bit. -/
theorem sum_of_kind {entries' counter : List (ℕ × ℕ)} (hperm : counter.Perm (entries ++ entries'))
    (hall : ∀ e ∈ entries, e.2 &&& 1 = kind) (hnone : ∀ e ∈ entries', e.2 &&& 1 ≠ kind) :
    ((counter.filter fun e => e.2 &&& 1 = kind).map Prod.fst).sum = (entries.map Prod.fst).sum := by
  have hfilter : (entries ++ entries').filter (fun e => e.2 &&& 1 = kind) = entries := by
    rw [List.filter_append, List.filter_eq_self.mpr fun e he => decide_eq_true (hall e he),
      List.filter_eq_nil_iff.mpr fun e he => by simpa using hnone e he, List.append_nil]
  have hkind := hperm.filter fun e => e.2 &&& 1 = kind
  rw [hfilter] at hkind
  exact (hkind.map Prod.fst).sum_nat

end Exact

section Final

variable {bf : Bytefile} {single pairs : List ℕ}

theorem compares_single (bf : Bytefile) :
    Compares (cmpSingle bf) (Whole bf) (instructionBytes bf) (singleKey bf) :=
  ⟨fun _ _ ha hb => (cmpSingle_key ha hb).trans (congrArg _ (decide_eq_decide.mpr .rfl)),
    singleKey_inj⟩

theorem compares_pair (bf : Bytefile) :
    Compares (cmpPair bf) (WholePair bf) (pairBytes bf) (pairKey bf) :=
  ⟨fun _ _ ha hb => (cmpPair_key ha hb).trans (congrArg _ (decide_eq_decide.mpr .rfl)), pairKey_inj⟩

theorem Whole.bytes_ok {o : ℕ} (h : Whole bf o) : ∃ s, instructionBytes bf o = .ok s := by
  obtain ⟨nxt, s, h⟩ := h
  exact ⟨s, h.instructionBytes_eq⟩

theorem WholePair.bytes_ok {o : ℕ} (h : WholePair bf o) : ∃ p, pairBytes bf o = .ok p := by
  obtain ⟨nxt, s, n, t, h, ht⟩ := h
  exact ⟨(s, t), pairBytes_eq h ht⟩

theorem counter_sorted (S : Sorter Fault) (entries : List (ℕ × ℕ)) :
    ∃ sorted, S.sort counterLess entries = .ok sorted ∧ sorted.Perm entries ∧
      sorted.Pairwise fun a b => a.1 ≤ b.1 := by
  obtain ⟨sorted, hsort, hperm, hsorted⟩ :=
    S.sorts counterLess entries (strictWeak_of_key fun a b _ _ => counterLess_key a b)
  refine ⟨sorted, hsort, hperm, hsorted.imp fun {a b} hab => ?_⟩
  rw [counterLess_key] at hab
  have hle : toLex a ≤ toLex b := not_lt.mp (of_decide_eq_false (Except.ok.inj hab))
  exact Prod.Lex.monotone_fst _ _ hle

/-- The sorted vectors with the entries of both, in any order, have the exact counts. -/
theorem CountsExact.of_grouped {c : Counted} {entries entries' : List (ℕ × ℕ)}
    (hsingle : c.collectSingle.Perm single) (hpairs : c.collectPairs.Perm pairs)
    (hwhole : ∀ o ∈ c.collectSingle, Whole bf o) (hwhole' : ∀ o ∈ c.collectPairs, WholePair bf o)
    (h : Grouped (instructionBytes bf) 0 c.collectSingle entries)
    (h' : Grouped (pairBytes bf) 1 c.collectPairs entries')
    (hcounter : c.counter.Perm (entries ++ entries')) (hdesc : c.counter.Pairwise fun a b => b.1 ≤ a.1) :
    CountsExact bf single pairs c := by
  have hname := fun o ho => (hwhole o ho).bytes_ok
  have hname' := fun o ho => (hwhole' o ho).bytes_ok
  have hsub : ∀ i o s, c.collectSingle[i]? = some o → instructionBytes bf o = .ok s →
      c.subject bf (2 * i + 0) = some (.single s) := fun i o s ho hs => subject_single ho hs
  have hsub' : ∀ i o (p : List ℕ × List ℕ), c.collectPairs[i]? = some o → pairBytes bf o = .ok p →
      c.subject bf (2 * i + 1) = some (.pair p.1 p.2) := fun i o p ho hp => subject_pair ho hp
  have hmk : Function.Injective Subject.single := fun _ _ h => Subject.single.inj h
  have hmk' : Function.Injective fun p : List ℕ × List ℕ => Subject.pair p.1 p.2 :=
    fun p q h => Prod.ext (Subject.pair.inj h).1 (Subject.pair.inj h).2
  have hone : ∀ e ∈ entries, e.2 &&& 1 = 0 := h.kind_eq (by omega)
  have hone' : ∀ e ∈ entries', e.2 &&& 1 = 1 := h'.kind_eq (by omega)
  refine ⟨hsingle, hpairs, fun e he => ?_, fun k => ?_, ?_, ?_, hdesc⟩
  · rcases List.mem_append.mp (hcounter.mem_iff.mp he) with he | he
    · obtain ⟨s, hs, hcount⟩ := h.subject_count hname hsub e he
      exact ⟨_, hs, hcount.trans (hsingle.countP_eq _)⟩
    · obtain ⟨p, hp, hcount⟩ := h'.subject_count hname' hsub' e he
      exact ⟨_, hp, hcount.trans (hpairs.countP_eq _)⟩
  · rw [hcounter.countP_eq, List.countP_append]
    cases k with
    | single s =>
      rw [h.subject_once (by omega) hmk hname hsub, h'.subject_none hname' hsub' (by simp),
        Nat.add_zero, hsingle.countP_eq]
      rfl
    | pair s t =>
      rw [h.subject_none hname hsub (by simp),
        h'.subject_once (by omega) hmk' hname' hsub' (s, t), Nat.zero_add, hpairs.countP_eq]
      rfl
  · rw [sum_of_kind hcounter hone fun e he => by rw [hone' e he]; omega, h.sum, hsingle.length_eq]
  · rw [sum_of_kind (hcounter.trans List.perm_append_comm) hone' fun e he => by rw [hone e he]; omega,
      h'.sum, hpairs.length_eq]

/-- The counts after sorting and grouping are exact. -/
theorem sortAndCount_ok (S : Sorter Fault) (hsingle : ∀ o ∈ single, Whole bf o)
    (hpairs : ∀ o ∈ pairs, WholePair bf o) (hlen : single.length < 2 ^ 30)
    (hlen' : pairs.length < 2 ^ 30) :
    ∃ c, sortAndCount S bf single pairs = .ok c ∧ CountsExact bf single pairs c := by
  have hs := compares_single bf
  have hp := compares_pair bf
  obtain ⟨xs, hsort, hperm, hsorted⟩ := hs.sorts S hsingle
  obtain ⟨ys, hsort', hperm', hsorted'⟩ := hp.sorts S hpairs
  have hwhole : ∀ o ∈ xs, Whole bf o := fun o ho => hsingle o (hperm.mem_iff.mp ho)
  have hwhole' : ∀ o ∈ ys, WholePair bf o := fun o ho => hpairs o (hperm'.mem_iff.mp ho)
  obtain ⟨entries, hcount, hgrouped⟩ := countGroups_grouped 0 hs (by omega)
    (by rw [hperm.length_eq]; exact hlen) hwhole hsorted []
  obtain ⟨entries', hcount', hgrouped'⟩ := countGroups_grouped 1 hp (by omega)
    (by rw [hperm'.length_eq]; exact hlen') hwhole' hsorted' entries
  obtain ⟨sorted, hfinal, hperm'', hsorted''⟩ := counter_sorted S (entries ++ entries')
  refine ⟨⟨xs, ys, sorted.reverse⟩, ?_, ?_⟩
  · rw [sortAndCount, hsort, except_ok_bind, hsort', except_ok_bind, hcount, except_ok_bind,
      List.nil_append, hcount', except_ok_bind, hfinal]
    rfl
  · exact .of_grouped hperm hperm' hwhole hwhole' hgrouped hgrouped'
      ((List.reverse_perm sorted).trans hperm'') (List.pairwise_reverse.mpr hsorted'')

/-- The comparisons are strict weak orderings whose equivalence is equality of the bytes, and the
    counts are exact. -/
theorem counts_exact (S : Sorter Fault) (hsingle : ∀ o ∈ single, Whole bf o)
    (hpairs : ∀ o ∈ pairs, WholePair bf o) (hlen : single.length < 2 ^ 30)
    (hlen' : pairs.length < 2 ^ 30) :
    (StrictWeak (cmpSingle bf) (Whole bf) ∧ ∀ a b, Whole bf a → Whole bf b →
      (Incomparable (cmpSingle bf) a b ↔ instructionBytes bf a = instructionBytes bf b)) ∧
    (StrictWeak (cmpPair bf) (WholePair bf) ∧ ∀ a b, WholePair bf a → WholePair bf b →
      (Incomparable (cmpPair bf) a b ↔ pairBytes bf a = pairBytes bf b)) ∧
    ∃ c, sortAndCount S bf single pairs = .ok c ∧ CountsExact bf single pairs c := by
  have hs := compares_single bf
  have hp := compares_pair bf
  refine ⟨⟨strictWeak_of_key hs.less, fun a b ha hb => ?_⟩,
    ⟨strictWeak_of_key hp.less, fun a b ha hb => ?_⟩, sortAndCount_ok S hsingle hpairs hlen hlen'⟩
  · exact (incomparable_iff_key hs.less ha hb).trans (hs.key_eq ha hb)
  · exact (incomparable_iff_key hp.less ha hb).trans (hp.key_eq ha hb)

end Final

/-! ### The recorded offsets -/

section Recorded

variable {bf : Bytefile} {o : ℕ}

theorem codeBytes_of_placed : ∀ {bs : List UInt8} {o : ℤ}, Placed bf o bs →
    codeBytes bf bs.length o = .ok (bs.map UInt8.toNat)
  | [], _, _ => rfl
  | b :: bs, o, h => by
    rw [List.length_cons, codeBytes, h.1, except_ok_bind, codeBytes_of_placed h.2]
    rfl

theorem spells_of_placed {i : Instruction} (h : Placed bf o i.encode) (hlt : o + i.length < 2 ^ 31) :
    Spells bf o (o + i.length) (i.encode.map UInt8.toNat) where
  decoded := ⟨_, Instruction.generalByterun_eq h (by omega)⟩
  le := Nat.le_add_right _ _
  lt := hlt
  bytes := by
    rw [Nat.add_sub_cancel_left, ← i.length_encode]
    exact codeBytes_of_placed h

/-- Where the sweep meets an instruction, it is a whole one. -/
theorem WellSwept.placed (hw : WellSwept bf) (h : Swept bf o) (hff : bf.code o ≠ .ok 0xFF) :
    ∃ i : Instruction, Placed bf o i.encode ∧ o + i.length < 2 ^ 31 := by
  obtain ⟨i, hi, hle⟩ := (hw.inside o h).2.resolve_left hff
  have hsize := bf.codeSize_lt
  exact ⟨i, hi, by omega⟩

/-- The vectors `analyze` fills are counted exactly, whatever routine sorts them. -/
theorem analyze_counted {a : Analyzer} (S : Sorter Fault) (hw : WellSwept bf) (h : analyze bf = .ok a)
    (hsize : bf.codeSize < 2 ^ 30) : ∃ c, sortAndCount S bf a.collectSingle a.collectPairs = .ok c ∧
      CountsExact bf a.collectSingle a.collectPairs c := by
  obtain ⟨hend, hrec⟩ := analyze_ok hw h
  have hplaced : ∀ o, Reachable bf o → ∃ i : Instruction, Placed bf o i.encode ∧
      o + i.length < 2 ^ 31 := fun o ho => hw.placed ho.swept (hend o ho)
  have hshort : ∀ l : List ℕ, l.Nodup → (∀ o ∈ l, Reachable bf o) → l.length < 2 ^ 30 := by
    intro l hl hreach
    have hsub : l ⊆ List.range bf.codeSize.toNat := fun o ho =>
      List.mem_range.mpr (hw.lt (hreach o ho).swept)
    have hle := (List.subperm_of_subset hl hsub).length_le
    rw [List.length_range] at hle
    omega
  refine sortAndCount_ok S (fun o ho => ?_) (fun o ho => ?_)
    (hshort _ hrec.single_once fun o ho => (hrec.single o).mp ho)
    (hshort _ hrec.pairs_once fun o ho => ((hrec.pairs o).mp ho).1)
  · obtain ⟨i, hi, hlt⟩ := hplaced o ((hrec.single o).mp ho)
    exact ⟨_, _, spells_of_placed hi hlt⟩
  · obtain ⟨hreach, c, hfalls, -⟩ := (hrec.pairs o).mp ho
    obtain ⟨j, hj, hlt'⟩ := hplaced c (.step hreach (.inr hfalls))
    obtain ⟨i, hi, -, rfl⟩ := hfalls
    exact ⟨_, _, _, _, spells_of_placed hi (by omega), spells_of_placed hj hlt'⟩

end Recorded

/-- Whole instructions of a file, one of them recorded twice. -/
theorem counts_exact_pairFile :
    ∃ c, sortAndCount (mergeSorter Fault) pairFile [0, 5, 0] [0] = .ok c ∧
      CountsExact pairFile [0, 5, 0] [0] c := by
  have hconst : Spells pairFile 0 5 [0x10, 7, 0, 0, 0] :=
    ⟨⟨.const, by decide⟩, by decide, by decide, by decide⟩
  have hend : Spells pairFile 5 6 [0x16] :=
    ⟨⟨.end, by decide⟩, by decide, by decide, by decide⟩
  refine (counts_exact (mergeSorter Fault) (fun o ho => ?_) (fun o ho => ?_) (by decide) (by decide)).2.2
  · simp only [List.mem_cons, List.not_mem_nil, or_false] at ho
    rcases ho with rfl | rfl | rfl
    · exact ⟨_, _, hconst⟩
    · exact ⟨_, _, hend⟩
    · exact ⟨_, _, hconst⟩
  · rw [List.mem_singleton.mp ho]
    exact ⟨_, _, _, _, hconst, hend⟩

end Analyzer

end LamaSM
