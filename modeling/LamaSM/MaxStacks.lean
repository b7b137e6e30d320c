import LamaSM.Rewrites
import Mathlib.Order.Bounds.Basic

/-! Which depth `verify` writes behind a BEGIN, and when it is the one of that function.

    The depth that goes with a closing is the largest one since the marked END before
    (`closings_depth`), and it goes behind the BEGIN that END closes as a closing bracket
    (`closings_closes`). `RightDepth` asks for the largest depth from the BEGIN to the next one; the
    two differ for functions whose ENDs are not reached or are several, and from `2 ^ 16` on. -/

namespace LamaSM
open Lib

/-! ### Depths of a decode -/

/-- The depths marked at these offsets. -/
def depthsOf (visited : List ℤ) (P : ℕ → Prop) : Set ℤ :=
  {d | ∃ o, P o ∧ visited.getD o (-1) = d ∧ d ≠ -1}

/-- The starts from the BEGIN at `b` up to the next BEGIN or CBEGIN. -/
def Segment (l : List (ℕ × InstructionType)) (b o : ℕ) : Prop :=
  (∃ type, (b, type) ∈ l) ∧ (∃ type, (o, type) ∈ l) ∧ b ≤ o ∧
    ∀ a ∈ l, OpensFunction a.2 → b < a.1 → o < a.1

/-- A marked END. -/
def MarkedEnd (visited : List ℤ) (a : ℕ × InstructionType) : Prop :=
  a.2 = .end ∧ visited.getD a.1 (-1) ≠ -1

instance (visited : List ℤ) (a : ℕ × InstructionType) : Decidable (MarkedEnd visited a) :=
  inferInstanceAs (Decidable (_ ∧ _))

/-- The starts behind the marked ENDs. -/
def Since (visited : List ℤ) (l : List (ℕ × InstructionType)) (o : ℕ) : Prop :=
  (∃ type, (o, type) ∈ l) ∧ ∀ a ∈ l, MarkedEnd visited a → a.1 < o

/-- The starts up to the END at `e` and behind the marked ENDs before it. -/
def Window (visited : List ℤ) (l : List (ℕ × InstructionType)) (e o : ℕ) : Prop :=
  (∃ type, (o, type) ∈ l) ∧ o ≤ e ∧ ∀ a ∈ l, MarkedEnd visited a → a.1 < e → a.1 < o

/-- The marked END that closes a function, with `k` more functions opened inside and not closed yet. -/
def closedBy (visited : List ℤ) : ℕ → List (ℕ × InstructionType) → Option ℕ
  | _, [] => none
  | k, (o, type) :: l =>
    if visited.getD o (-1) = -1 then closedBy visited k l
    else if type = .end then if k = 0 then some o else closedBy visited (k - 1) l
    else if OpensFunction type then closedBy visited (k + 1) l
    else closedBy visited k l

/-- The END at `e` closes the function that starts at `b`. -/
def Closes (visited : List ℤ) (l : List (ℕ × InstructionType)) (b e : ℕ) : Prop :=
  ∃ pre type post, l = pre ++ (b, type) :: post ∧ closedBy visited 0 post = some e

section Closes

variable {visited : List ℤ} {l : List (ℕ × InstructionType)} {m : ℤ} {begins : List ℕ}

theorem Closes.cons {b e : ℕ} (h : Closes visited l b e) (a : ℕ × InstructionType) :
    Closes visited (a :: l) b e := by
  obtain ⟨pre, type, post, rfl, hclosed⟩ := h
  exact ⟨a :: pre, type, post, rfl, hclosed⟩

/-- An END closes the function opened last and not closed yet. -/
theorem closings_closes : ∀ {l : List (ℕ × InstructionType)} {m : ℤ} {begins : List ℕ},
    ∀ c ∈ closings visited m begins l,
      (∃ k, begins[k]? = some c.opens ∧ closedBy visited k l = some c.closes) ∨
        Closes visited l c.opens c.closes
  | [], _, _, _, hc => nomatch hc
  | (o, type) :: l, m, begins, c, hc => by
    rw [closings] at hc
    split at hc
    · rename_i hunmarked
      rcases closings_closes c hc with ⟨k, hk, hclosed⟩ | hcloses
      · exact .inl ⟨k, hk, by rw [closedBy, if_pos hunmarked]; exact hclosed⟩
      · exact .inr (hcloses.cons _)
    rename_i hmarked
    split at hc
    · rename_i hend
      rcases List.mem_append.mp hc with hc | hc
      · cases begins with
        | nil => cases hc
        | cons b begins =>
          rw [List.mem_singleton.mp hc]
          exact .inl ⟨0, rfl, by rw [closedBy, if_neg hmarked, if_pos hend, if_pos rfl]⟩
      · rcases closings_closes c hc with ⟨k, hk, hclosed⟩ | hcloses
        · refine .inl ⟨k + 1, by rw [← hk, List.getElem?_tail], ?_⟩
          rw [closedBy, if_neg hmarked, if_pos hend, if_neg (Nat.succ_ne_zero k)]
          exact hclosed
        · exact .inr (hcloses.cons _)
    rename_i hend
    split at hc
    · rename_i hopens
      rcases closings_closes c hc with ⟨k, hk, hclosed⟩ | hcloses
      · cases k with
        | zero =>
          cases hk
          exact .inr ⟨[], type, l, rfl, hclosed⟩
        | succ k =>
          refine .inl ⟨k, hk, ?_⟩
          rw [closedBy, if_neg hmarked, if_neg hend, if_pos hopens]
          exact hclosed
      · exact .inr (hcloses.cons _)
    · rename_i hopens
      rcases closings_closes c hc with ⟨k, hk, hclosed⟩ | hcloses
      · refine .inl ⟨k, hk, ?_⟩
        rw [closedBy, if_neg hmarked, if_neg hend, if_neg hopens]
        exact hclosed
      · exact .inr (hcloses.cons _)

/-- The END that closes a function opened before the rest of the decode. -/
theorem closings_of_closedBy {b e : ℕ} : ∀ {l : List (ℕ × InstructionType)} (m : ℤ) (begins : List ℕ)
    (k : ℕ), begins[k]? = some b → closedBy visited k l = some e →
      ∃ c ∈ closings visited m begins l, c.opens = b ∧ c.closes = e
  | [], _, _, _, _, h => nomatch h
  | (o, type) :: l, m, begins, k, hk, h => by
    rw [closedBy] at h
    rw [closings]
    split at h
    · rename_i hunmarked
      rw [if_pos hunmarked]
      exact closings_of_closedBy _ _ _ hk h
    rename_i hmarked
    rw [if_neg hmarked]
    split at h
    · rename_i hend
      rw [if_pos hend]
      split at h
      · rename_i hzero
        obtain rfl : o = e := Option.some.inj h
        rw [hzero, ← List.head?_eq_getElem?] at hk
        rw [hk]
        exact ⟨_, List.mem_append_left _ (List.mem_singleton.mpr rfl), rfl, rfl⟩
      · rename_i hpos
        have hk' : begins.tail[k - 1]? = some b := by
          rw [List.getElem?_tail, Nat.sub_add_cancel (Nat.pos_of_ne_zero hpos)]
          exact hk
        obtain ⟨c, hc, heq⟩ := closings_of_closedBy (-1) _ _ hk' h
        exact ⟨c, List.mem_append_right _ hc, heq⟩
    rename_i hend
    rw [if_neg hend]
    split at h
    · rename_i hopens
      rw [if_pos hopens]
      exact closings_of_closedBy _ (o :: begins) (k + 1) hk h
    · rename_i hopens
      rw [if_neg hopens]
      exact closings_of_closedBy _ _ _ hk h

/-- What is closed in the rest of the decode is closed in the whole. -/
theorem closings_append (pre l : List (ℕ × InstructionType)) : ∀ (m : ℤ) (begins : List ℕ),
    ∃ m' begins', ∀ c ∈ closings visited m' begins' l, c ∈ closings visited m begins (pre ++ l) := by
  induction pre with
  | nil => exact fun m begins => ⟨m, begins, fun c hc => hc⟩
  | cons a pre ih =>
    intro m begins
    rw [List.cons_append, closings]
    split
    · exact ih _ _
    · split
      · obtain ⟨m', begins', h⟩ := ih (-1) begins.tail
        exact ⟨m', begins', fun c hc => List.mem_append_right _ (h c hc)⟩
      · split <;> exact ih _ _

/-- A marked BEGIN that an END closes is among the closings. -/
theorem closings_of_closes {b e : ℕ} (hmarked : visited.getD b (-1) ≠ -1)
    (hopens : ∀ type, (b, type) ∈ l → OpensFunction type) (h : Closes visited l b e) :
    ∃ c ∈ closings visited m begins l, c.opens = b ∧ c.closes = e := by
  obtain ⟨pre, type, post, rfl, hclosed⟩ := h
  obtain ⟨m', begins', hall⟩ := closings_append pre ((b, type) :: post) m begins
  have htype := hopens type (List.mem_append_right pre List.mem_cons_self)
  have hne : type ≠ .end := by rintro rfl; rcases htype with h | h <;> cases h
  obtain ⟨c, hc, heq⟩ := closings_of_closedBy (max m' (visited.getD b (-1))) (b :: begins') 0 rfl hclosed
  refine ⟨c, hall c ?_, heq⟩
  rw [closings, if_neg hmarked, if_neg hne, if_pos htype]
  exact hc

end Closes

/-! ### The largest depth -/

/-- `max_stack` after these instructions: the largest depth since the last marked END, or not
    positive when none was met. -/
structure Largest (visited : List ℤ) (pre : List (ℕ × InstructionType)) (m : ℤ) : Prop where
  le : ∀ d ∈ depthsOf visited (Since visited pre), d ≤ m
  mem : m ∈ depthsOf visited (Since visited pre) ∨ m ≤ 0

section Largest

variable {visited : List ℤ} {pre l : List (ℕ × InstructionType)} {m : ℤ} {o : ℕ}
  {type : InstructionType}

theorem mem_depthsOf_since (visited : List ℤ) (type : InstructionType) (hlt : ∀ a ∈ pre, a.1 < o)
    (hend : ¬ MarkedEnd visited (o, type)) (d : ℤ) :
    d ∈ depthsOf visited (Since visited (pre ++ [(o, type)])) ↔
      d ∈ depthsOf visited (Since visited pre) ∨ visited.getD o (-1) = d ∧ d ≠ -1 := by
  constructor
  · rintro ⟨x, ⟨⟨t, hx⟩, hsince⟩, hd⟩
    rcases List.mem_append.mp hx with hx | hx
    · exact .inl ⟨x, ⟨⟨t, hx⟩, fun a ha => hsince a (List.mem_append_left _ ha)⟩, hd⟩
    · rw [(Prod.mk.inj (List.mem_singleton.mp hx)).1] at hd
      exact .inr hd
  · rintro (⟨x, ⟨⟨t, hx⟩, hsince⟩, hd⟩ | hd)
    · refine ⟨x, ⟨⟨t, List.mem_append_left _ hx⟩, fun a ha hmarked => ?_⟩, hd⟩
      rcases List.mem_append.mp ha with ha | ha
      · exact hsince a ha hmarked
      · exact absurd (List.mem_singleton.mp ha ▸ hmarked) hend
    · refine ⟨o, ⟨⟨type, List.mem_append_right _ List.mem_cons_self⟩, fun a ha hmarked => ?_⟩, hd⟩
      rcases List.mem_append.mp ha with ha | ha
      · exact hlt a ha
      · exact absurd (List.mem_singleton.mp ha ▸ hmarked) hend

/-- In the window of an END are the depths since the END before and its own. -/
theorem mem_depthsOf_window (visited : List ℤ) (type : InstructionType) (hlt : ∀ a ∈ pre, a.1 < o)
    (hgt : ∀ a ∈ l, o < a.1) (d : ℤ) :
    d ∈ depthsOf visited (Window visited (pre ++ (o, type) :: l) o) ↔
      d ∈ depthsOf visited (Since visited pre) ∨ visited.getD o (-1) = d ∧ d ≠ -1 := by
  have hbefore : ∀ a ∈ pre ++ (o, type) :: l, a.1 < o → a ∈ pre := by
    intro a ha hao
    rcases List.mem_append.mp ha with ha | ha
    · exact ha
    · rcases List.mem_cons.mp ha with rfl | ha
      · exact absurd hao (Nat.lt_irrefl _)
      · exact absurd hao (Nat.lt_asymm (hgt a ha))
  constructor
  · rintro ⟨x, ⟨⟨t, hx⟩, hle, hwindow⟩, hd⟩
    rcases Nat.lt_or_eq_of_le hle with hxo | rfl
    · exact .inl ⟨x, ⟨⟨t, hbefore _ hx hxo⟩, fun a ha hmarked =>
        hwindow a (List.mem_append_left _ ha) hmarked (hlt a ha)⟩, hd⟩
    · exact .inr hd
  · rintro (⟨x, ⟨⟨t, hx⟩, hsince⟩, hd⟩ | hd)
    · exact ⟨x, ⟨⟨t, List.mem_append_left _ hx⟩, Nat.le_of_lt (hlt _ hx),
        fun a ha hmarked hao => hsince a (hbefore a ha hao) hmarked⟩, hd⟩
    · exact ⟨o, ⟨⟨type, List.mem_append_right _ List.mem_cons_self⟩, Nat.le_refl o,
        fun _ _ _ hao => hao⟩, hd⟩

/-- The greater of it and one more depth is the largest of all. -/
theorem Largest.max_depth (h : Largest visited pre m) (hv : 0 ≤ visited.getD o (-1)) :
    (max m (visited.getD o (-1)) ∈ depthsOf visited (Since visited pre) ∨
      visited.getD o (-1) = max m (visited.getD o (-1)) ∧ max m (visited.getD o (-1)) ≠ -1) ∧
    ∀ d, d ∈ depthsOf visited (Since visited pre) ∨ visited.getD o (-1) = d ∧ d ≠ -1 →
      d ≤ max m (visited.getD o (-1)) := by
  refine ⟨?_, fun d hd => ?_⟩
  · rcases Int.le_total m (visited.getD o (-1)) with hle | hle
    · rw [max_eq_right hle]
      exact .inr ⟨rfl, by omega⟩
    · rw [max_eq_left hle]
      rcases h.mem with hm | hm
      · exact .inl hm
      · exact .inr ⟨by omega, by omega⟩
  · rcases hd with hd | ⟨rfl, -⟩
    · exact Int.le_trans (h.le d hd) (Int.le_max_left _ _)
    · exact Int.le_max_right _ _

theorem Largest.unmarked (h : Largest visited pre m) (hlt : ∀ a ∈ pre, a.1 < o)
    (hv : visited.getD o (-1) = -1) : Largest visited (pre ++ [(o, type)]) m := by
  have hmem := mem_depthsOf_since visited type hlt fun hend => hend.2 hv
  refine ⟨fun d hd => ?_, h.mem.imp (fun hm => (hmem m).mpr (.inl hm)) id⟩
  rcases (hmem d).mp hd with hd | ⟨heq, hne⟩
  · exact h.le d hd
  · exact absurd (heq.symm.trans hv) hne

theorem Largest.marked (h : Largest visited pre m) (hlt : ∀ a ∈ pre, a.1 < o) (htype : type ≠ .end)
    (hv : 0 ≤ visited.getD o (-1)) :
    Largest visited (pre ++ [(o, type)]) (max m (visited.getD o (-1))) := by
  have hmem := mem_depthsOf_since visited type hlt fun hend => htype hend.1
  obtain ⟨hmax, hle⟩ := h.max_depth hv
  exact ⟨fun d hd => hle d ((hmem d).mp hd), .inl ((hmem _).mpr hmax)⟩

/-- After a marked END nothing was met yet. -/
theorem largest_end (hlt : ∀ a ∈ pre, a.1 < o) (hend : MarkedEnd visited (o, type)) :
    Largest visited (pre ++ [(o, type)]) (-1) := by
  refine ⟨?_, .inr (by omega)⟩
  rintro d ⟨x, ⟨⟨t, hx⟩, hsince⟩, -⟩
  have hox : o < x := hsince (o, type) (List.mem_append_right _ List.mem_cons_self) hend
  rcases List.mem_append.mp hx with hx | hx
  · exact absurd hox (Nat.lt_asymm (hlt _ hx))
  · rw [(Prod.mk.inj (List.mem_singleton.mp hx)).1] at hox
    exact absurd hox (Nat.lt_irrefl _)

/-- The depth at a marked END is the largest one in its window. -/
theorem Largest.window (h : Largest visited pre m) (hlt : ∀ a ∈ pre, a.1 < o) (hgt : ∀ a ∈ l, o < a.1)
    (hv : 0 ≤ visited.getD o (-1)) :
    IsGreatest (depthsOf visited (Window visited (pre ++ (o, type) :: l) o))
      (max m (visited.getD o (-1))) := by
  have hmem := mem_depthsOf_window visited type hlt hgt
  obtain ⟨hmax, hle⟩ := h.max_depth hv
  exact ⟨(hmem _).mpr hmax, fun d hd => hle d ((hmem d).mp hd)⟩

theorem largest_nil : Largest visited [] 0 :=
  ⟨fun _ ⟨_, ⟨⟨_, hx⟩, _⟩, _⟩ => (nomatch hx), .inr (Int.le_refl 0)⟩

/-- The depth that goes with a closing is the largest one in the window of its END. -/
theorem closings_depth (hv : ∀ o, visited.getD o (-1) ≠ -1 → 0 ≤ visited.getD o (-1)) :
    ∀ (l pre : List (ℕ × InstructionType)) {m : ℤ} {begins : List ℕ},
      ((pre ++ l).map Prod.fst).Pairwise (· < ·) → Largest visited pre m →
        ∀ c ∈ closings visited m begins l,
          IsGreatest (depthsOf visited (Window visited (pre ++ l) c.closes)) c.depth
  | [], _, _, _, _, _, _, hc => nomatch hc
  | (o, type) :: l, pre, m, begins, hsorted, h, c, hc => by
    have hsplit : pre ++ (o, type) :: l = pre ++ [(o, type)] ++ l := by
      rw [List.append_assoc, List.singleton_append]
    have hlt : ∀ a ∈ pre, a.1 < o := by
      rw [List.map_append, List.pairwise_append] at hsorted
      exact fun a ha => hsorted.2.2 a.1 (List.mem_map_of_mem ha) o List.mem_cons_self
    have hgt : ∀ a ∈ l, o < a.1 := by
      rw [List.map_append, List.pairwise_append] at hsorted
      exact fun a ha => (List.pairwise_cons.mp hsorted.2.1).1 a.1 (List.mem_map_of_mem ha)
    have hsorted' := hsorted
    rw [hsplit] at hsorted'
    rw [closings] at hc
    split at hc
    · rename_i hunmarked
      rw [hsplit]
      exact closings_depth hv _ _ hsorted' (h.unmarked hlt hunmarked) c hc
    rename_i hmarked
    split at hc
    · rename_i hend
      rcases List.mem_append.mp hc with hc | hc
      · cases begins with
        | nil => cases hc
        | cons b begins =>
          rw [List.mem_singleton.mp hc]
          exact h.window hlt hgt (hv o hmarked)
      · rw [hsplit]
        exact closings_depth hv _ _ hsorted' (largest_end hlt ⟨hend, hmarked⟩) c hc
    · rename_i hend
      rw [hsplit]
      split at hc <;> exact closings_depth hv _ _ hsorted' (h.marked hlt hend (hv o hmarked)) c hc

end Largest

/-! ### The operand of a BEGIN -/

section Operand

variable {bf : Bytefile} {cs : List Closing} {b : ℕ}

theorem code32_of_bytes {k : ℤ} {b0 b1 b2 b3 : ℕ} (h0 : bf.code k = .ok b0)
    (h1 : bf.code (k + 1) = .ok b1) (h2 : bf.code (k + 2) = .ok b2) (h3 : bf.code (k + 2 + 1) = .ok b3) :
    bf.code32 k = .ok (b0 + 2 ^ 8 * b1 + 2 ^ 16 * (b2 + 2 ^ 8 * b3)) := by
  simp only [Bytefile.code, ← Int.add_assoc] at h0 h1 h2 h3
  simp only [Bytefile.code32, Bytefile.uint32, Bytefile.uint16, h0, h1, h2, h3, except_ok_bind]
  rfl

/-- Behind a closed BEGIN the upper half was zero and is the depth. -/
theorem operand_closed (hcs : Unwritten bf cs) {c : Closing} (hc : c ∈ cs) {t : InstructionType}
    (htype : bf.typeAt c.opens = .ok t) :
    ∃ w, bf.code32 (c.opens + 1) = .ok w ∧ w < 2 ^ 16 ∧
      (patched bf cs).code32 (c.opens + 1) = .ok (w + 2 ^ 16 * toU16 c.depth) := by
  obtain ⟨b2, b3, h2, h3, hzero⟩ := Bytefile.uint16_ok (hcs.zero c hc)
  obtain ⟨b, hb, -⟩ := Bytefile.typeAt_ok htype
  have hlow := (Bytefile.byte_ok hb).1
  have hhigh := (Bytefile.byte_ok h2).2.1
  obtain ⟨b0, h0⟩ : ∃ b0, bf.code (c.opens + 1) = .ok b0 := Bytefile.byte_of_lt (by omega) (by omega)
  obtain ⟨b1, h1⟩ : ∃ b1, bf.code (c.opens + 1 + 1) = .ok b1 :=
    Bytefile.byte_of_lt (by omega) (by omega)
  have hb0 := (Bytefile.byte_ok h0).2.2
  have hb1 := (Bytefile.byte_ok h1).2.2
  have hkeep : ∀ k : ℤ, k = c.opens + 1 ∨ k = c.opens + 1 + 1 → (patched bf cs).code k = bf.code k := by
    intro k hk
    refine patched_code hcs fun d hd => ?_
    by_cases hdc : d = c
    · rw [hdc]
      omega
    · rcases hcs.of_ne hc hd hdc with h | h <;> omega
  obtain ⟨hw2, hw3⟩ := patched_written hcs c hc
  have hw : toU16 c.depth < 2 ^ 16 := toU16_lt _
  refine ⟨b0 + 2 ^ 8 * b1 + 2 ^ 16 * (b2 + 2 ^ 8 * b3), code32_of_bytes h0 h1 h2 ?_, by omega, ?_⟩
  · rw [Bytefile.code, ← Int.add_assoc]
    exact h3
  · have hword := code32_of_bytes ((hkeep _ (.inl rfl)).trans h0) ((hkeep _ (.inr rfl)).trans h1) hw2 hw3
    rw [hword]
    congr 1
    omega

/-- Behind another BEGIN everything is as it was. -/
theorem operand_open (hcs : Unwritten bf cs) (hb : ∀ c ∈ cs, Apart b c.opens) :
    (patched bf cs).code32 (b + 1) = bf.code32 (b + 1) := by
  refine code32_congr fun j h0 h4 => patched_code hcs fun c hc => ?_
  rcases hb c hc with h | h <;> omega

end Operand

/-! ### The right depth -/

/-- The upper half of the first operand is the largest depth of the function, the lower half is what
    it was. -/
def RightDepth (visited : List ℤ) (bf bf' : Bytefile) (l : List (ℕ × InstructionType)) (b : ℕ) : Prop :=
  ∃ w w', bf.code32 (b + 1) = .ok w ∧ bf'.code32 (b + 1) = .ok w' ∧
    IsGreatest (depthsOf visited (Segment l b)) (w' / 2 ^ 16 : ℕ) ∧ w' % 2 ^ 16 = w % 2 ^ 16

/-- An END closes the function and the largest depth in its window is, in 16 bits, the one of the
    function; or no END closes it and this depth is there from the start. -/
def ClosedRight (visited : List ℤ) (bf : Bytefile) (l : List (ℕ × InstructionType)) (b : ℕ) : Prop :=
  (∃ e d, Closes visited l b e ∧ IsGreatest (depthsOf visited (Window visited l e)) d ∧
    IsGreatest (depthsOf visited (Segment l b)) (d % 2 ^ 16)) ∨
  (∀ e, ¬ Closes visited l b e) ∧ ∃ w, bf.code32 (b + 1) = .ok w ∧
    IsGreatest (depthsOf visited (Segment l b)) (w / 2 ^ 16 : ℕ)

/-- The depth behind a marked BEGIN is the right one exactly when the END that closes it is its own
    and late enough, or none closes it and it needs no other. -/
theorem rightDepth_iff {bf bf' : Bytefile} {fuel : ℕ} {visited : List ℤ}
    {l : List (ℕ × InstructionType)} {b : ℕ} {t : InstructionType}
    (hmarks : collectMarks bf = .ok visited) (hok : verify fuel bf = .ok bf') (hl : Linear bf 0 l)
    (htype : bf.typeAt b = .ok t) (hopens : OpensFunction t) (hmarked : visited.getD b (-1) ≠ -1) :
    RightDepth visited bf bf' l b ↔ ClosedRight visited bf l b := by
  obtain ⟨rfl, hcs⟩ := verify_patched hmarks hok hl
  have hexact := collectMarksBy_ok List.Perm.refl hmarks
  have hsize : 0 ≤ bf.codeSize := by
    have := hexact.length
    omega
  have hmem : ∀ c ∈ closings visited 0 [] l, _ :=
    (closings_apart hsize hl 0 [] .nil fun _ h => nomatch h).2
  have hnonneg := fun o => hexact.getD_nonneg (o := o)
  have hdepth : ∀ c ∈ closings visited 0 [] l,
      IsGreatest (depthsOf visited (Window visited l c.closes)) c.depth :=
    closings_depth hnonneg l [] hl.sorted largest_nil
  have hcloses : ∀ c ∈ closings visited 0 [] l, Closes visited l c.opens c.closes := fun c hc =>
    (closings_closes c hc).resolve_left fun ⟨k, hk, _⟩ => nomatch hk
  have hvalue : ∀ {w : ℕ} {d : ℤ}, w < 2 ^ 16 →
      (((w + 2 ^ 16 * toU16 d) / 2 ^ 16 : ℕ) : ℤ) = d % 2 ^ 16 := by
    intro w d hw
    unfold toU16
    omega
  by_cases hmet : ∃ type, (b, type) ∈ l
  · have hopened : ∀ type, (b, type) ∈ l → OpensFunction type := by
      intro type hmem
      have htype' := hl.typeAt _ hmem
      rw [htype] at htype'
      cases htype'
      exact hopens
    have hclosed : ∀ e, Closes visited l b e →
        ∃ c ∈ closings visited 0 [] l, c.opens = b ∧ c.closes = e :=
      fun e => closings_of_closes hmarked hopened
    have hopen : (¬ ∃ c ∈ closings visited 0 [] l, c.opens = b) →
        (patched bf (closings visited 0 [] l)).code32 (b + 1) = bf.code32 (b + 1) := by
      intro hnone
      refine operand_open hcs fun c hc => ?_
      obtain ⟨type, hb⟩ := hmet
      obtain ⟨type', hc', hopens', -⟩ := (hmem c hc).resolve_left (fun h => nomatch h)
      rcases Nat.lt_trichotomy b c.opens with hlt | heq | hlt
      · exact .inl (hl.apart hsize hb hc' (hopened type hb) hlt)
      · exact absurd ⟨c, hc, heq.symm⟩ hnone
      · exact .inr (hl.apart hsize hc' hb hopens' hlt)
    constructor
    · rintro ⟨w, w', hw, hw', hgreatest, -⟩
      by_cases hc : ∃ c ∈ closings visited 0 [] l, c.opens = b
      · obtain ⟨c, hc, rfl⟩ := hc
        obtain ⟨v, -, hlt, hv'⟩ := operand_closed hcs hc htype
        rw [hv'] at hw'
        cases hw'
        rw [hvalue hlt] at hgreatest
        exact .inl ⟨c.closes, c.depth, hcloses c hc, hdepth c hc, hgreatest⟩
      · rw [hopen hc] at hw'
        refine .inr ⟨fun e he => ?_, w', hw', hgreatest⟩
        obtain ⟨c, hc', ho, -⟩ := hclosed e he
        exact hc ⟨c, hc', ho⟩
    · rintro (⟨e, d, he, hd, hgreatest⟩ | ⟨hnone, w, hw, hgreatest⟩)
      · obtain ⟨c, hc, rfl, rfl⟩ := hclosed e he
        obtain rfl := (hdepth c hc).unique hd
        obtain ⟨v, hv, hlt, hv'⟩ := operand_closed hcs hc htype
        refine ⟨v, _, hv, hv', ?_, by omega⟩
        rw [hvalue hlt]
        exact hgreatest
      · have hc : ¬ ∃ c ∈ closings visited 0 [] l, c.opens = b := by
          rintro ⟨c, hc, rfl⟩
          exact hnone _ (hcloses c hc)
        exact ⟨w, w, hw, by rw [hopen hc]; exact hw, hgreatest, rfl⟩
  · constructor
    · rintro ⟨w, w', -, -, ⟨⟨o, hsegment, -⟩, -⟩, -⟩
      exact absurd hsegment.1 hmet
    · rintro (⟨e, d, -, -, ⟨⟨o, hsegment, -⟩, -⟩⟩ | ⟨-, w, -, ⟨⟨o, hsegment, -⟩, -⟩⟩)
      · exact absurd hsegment.1 hmet
      · exact absurd hsegment.1 hmet

/-- A main function that pushes and drops a constant forever: its END is not there. -/
def loopFile : Bytefile := .ofMain 0
  [0x52, 0, 0, 0, 0, 0, 0, 0, 0, 0x10, 1, 0, 0, 0, 0x18, 0x15, 9, 0, 0, 0, 0xFF]

/-- BEGIN 0 0; CONST 1; DROP; JMP 9 -/
def loopInstructions : List Instruction :=
  [beginInstruction, ⟨0x10, [1], [], opcode_known, one_operand, no_capture⟩,
    ⟨0x18, [], [], opcode_known, no_operand, no_capture⟩,
    ⟨0x15, [9], [], opcode_known, one_operand, no_capture⟩]

/-- Its depths. -/
def loopVisited : List ℤ :=
  [0, -1, -1, -1, -1, -1, -1, -1, -1, 0, -1, -1, -1, -1, 1, 0, -1, -1, -1, -1, -1]

/-- The function needs one place on the stack, its BEGIN says none. -/
theorem not_rightDepth_loopFile :
    collectMarks loopFile = .ok loopVisited ∧ verify 5 loopFile = .ok loopFile ∧
      Linear loopFile 0 (met 0 loopInstructions) ∧
      ¬ RightDepth loopVisited loopFile loopFile (met 0 loopInstructions) 0 := by
  have hdec : Decodes loopFile 0 loopInstructions := ⟨by decide, .inr ⟨by decide, by decide⟩⟩
  refine ⟨by decide, by decide, hdec.linear, ?_⟩
  rintro ⟨w, w', -, hw', hgreatest, -⟩
  have hzero : loopFile.code32 ((0 : ℕ) + 1) = .ok 0 := by decide
  rw [hzero] at hw'
  cases hw'
  have hone : (1 : ℤ) ∈ depthsOf loopVisited (Segment (met 0 loopInstructions) 0) :=
    ⟨14, ⟨⟨.begin, by decide⟩, ⟨.drop, by decide⟩, by decide, by decide⟩, rfl, by decide⟩
  exact absurd (hgreatest.2 hone) (by decide)

theorem rightDepth_constFile :
    RightDepth [0, -1, -1, -1, -1, -1, -1, -1, -1, 0, -1, -1, -1, -1, 1, -1] constFile
      (constFile.setCode16 3 1) (met 0 constInstructions) 0 := by
  have hverify : verify 4 constFile = .ok (constFile.setCode16 3 1) := by decide
  have hdec : Decodes constFile 0 constInstructions := ⟨by decide, .inr ⟨by decide, by decide⟩⟩
  have hbound : ∀ P : ℕ → Prop, ∀ d ∈ depthsOf
      [0, -1, -1, -1, -1, -1, -1, -1, -1, 0, -1, -1, -1, -1, 1, -1] P, d ≤ 1 := by
    rintro P d ⟨o, -, rfl, -⟩
    by_cases ho : o < 16
    · revert o
      decide
    · rw [List.getD_eq_getElem?_getD, List.getElem?_eq_none (by simpa using ho)]
      decide
  refine (rightDepth_iff (t := .begin) collectMarks_constFile hverify hdec.linear (by decide)
    (.inl rfl) (by decide)).mpr (.inl ⟨14, 1, ⟨[], .begin, _, rfl, by decide⟩, ⟨?_, hbound _⟩, ⟨?_, hbound _⟩⟩)
  · exact ⟨14, ⟨⟨.end, by decide⟩, by decide, by decide⟩, rfl, by decide⟩
  · exact ⟨14, ⟨⟨.begin, by decide⟩, ⟨.end, by decide⟩, by decide, by decide⟩, rfl, by decide⟩

end LamaSM
