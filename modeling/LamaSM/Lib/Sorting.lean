import Mathlib.Algebra.GroupWithZero.Nat
import Mathlib.Data.List.Lex
import Mathlib.Data.Prod.Lex
import Mathlib.Data.List.Count

/-! Sorting by a comparison that may fail, and what adjacent equal keys leave of a sorted list.

    A sorting routine promises something only for a comparison that is a strict weak ordering of the
    elements it is given (`StrictWeak`); `Sorter` is any routine with that promise. A comparison of
    keys in a linear order is one (`strictWeak_of_key`). `Groups` says how a list falls into groups of
    equal elements, each with its length and the place it starts at. -/

namespace Lib

variable {α ε κ : Type}

/-- None is less than the other. -/
def Incomparable (less : α → α → Except ε Bool) (a b : α) : Prop :=
  less a b = .ok false ∧ less b a = .ok false

/-- The comparison returns on all elements with `P` and is a strict weak ordering of them. -/
structure StrictWeak (less : α → α → Except ε Bool) (P : α → Prop) : Prop where
  total : ∀ a b, P a → P b → ∃ r, less a b = .ok r
  irrefl : ∀ a, P a → less a a = .ok false
  trans : ∀ a b c, P a → P b → P c → less a b = .ok true → less b c = .ok true → less a c = .ok true
  incomparable : ∀ a b c, P a → P b → P c → Incomparable less a b → Incomparable less b c →
    Incomparable less a c

/-- A sorting routine: what it promises for a strict weak ordering. -/
structure Sorter (ε : Type) where
  sort : ∀ {α : Type}, (α → α → Except ε Bool) → List α → Except ε (List α)
  sorts : ∀ {α : Type} (less : α → α → Except ε Bool) (l : List α), StrictWeak less (· ∈ l) →
    ∃ l', sort less l = .ok l' ∧ l'.Perm l ∧ l'.Pairwise fun a b => less b a = .ok false

section Key

variable [LinearOrder κ] {less : α → α → Except ε Bool} {P : α → Prop} {key : α → κ}

/-- Comparing keys of a linear order is a strict weak ordering. -/
theorem strictWeak_of_key (h : ∀ a b, P a → P b → less a b = .ok (decide (key a < key b))) :
    StrictWeak less P := by
  have htrue : ∀ a b, P a → P b → (less a b = .ok true ↔ key a < key b) := fun a b ha hb => by
    rw [h a b ha hb, Except.ok.injEq, decide_eq_true_iff]
  have hfalse : ∀ a b, P a → P b → (less a b = .ok false ↔ key b ≤ key a) := fun a b ha hb => by
    rw [h a b ha hb, Except.ok.injEq, decide_eq_false_iff_not, not_lt]
  refine ⟨fun a b ha hb => ⟨_, h a b ha hb⟩, fun a ha => (hfalse a a ha ha).mpr le_rfl,
    fun a b c ha hb hc hab hbc => ?_, fun a b c ha hb hc hab hbc => ?_⟩
  · exact (htrue a c ha hc).mpr (((htrue a b ha hb).mp hab).trans ((htrue b c hb hc).mp hbc))
  · exact ⟨(hfalse a c ha hc).mpr (((hfalse b c hb hc).mp hbc.1).trans ((hfalse a b ha hb).mp hab.1)),
      (hfalse c a hc ha).mpr (((hfalse b a hb ha).mp hab.2).trans ((hfalse c b hc hb).mp hbc.2))⟩

/-- Its equivalence is equality of the keys. -/
theorem incomparable_iff_key (h : ∀ a b, P a → P b → less a b = .ok (decide (key a < key b))) {a b : α}
    (ha : P a) (hb : P b) : Incomparable less a b ↔ key a = key b := by
  rw [Incomparable, h a b ha hb, h b a hb ha]
  simp only [Except.ok.injEq, decide_eq_false_iff_not, not_lt]
  exact ⟨fun hab => le_antisymm hab.2 hab.1, fun hab => ⟨hab.ge, hab.le⟩⟩

end Key

section MergeSort

variable {less : α → α → Except ε Bool}

/-- Whether the comparison does not say that `b` is less than `a`. -/
def notLess (less : α → α → Except ε Bool) (a b : α) : Bool :=
  match less b a with
  | .ok true => false
  | _ => true

/-- Merge sort on the elements of the list. -/
def mergeSorted (less : α → α → Except ε Bool) (l : List α) : List α :=
  (l.attach.mergeSort fun a b => notLess less a.1 b.1).map Subtype.val

theorem mergeSorted_perm (l : List α) : (mergeSorted less l).Perm l :=
  ((List.mergeSort_perm _ _).map Subtype.val).trans (List.Perm.of_eq l.attach_map_subtype_val)

section

variable {P : α → Prop} {a b c : α}

theorem StrictWeak.notLess_iff (h : StrictWeak less P) (ha : P a) (hb : P b) :
    notLess less a b = true ↔ less b a = .ok false := by
  obtain ⟨r, hr⟩ := h.total b a hb ha
  rw [notLess, hr]
  cases r <;> simp

theorem StrictWeak.eq_false_or_true (h : StrictWeak less P) (ha : P a) (hb : P b) :
    less a b = .ok false ∨ less a b = .ok true := by
  obtain ⟨r, hr⟩ := h.total a b ha hb
  cases r
  · exact .inl hr
  · exact .inr hr

/-- Of two elements one is not less than the other. -/
theorem StrictWeak.asymm (h : StrictWeak less P) (ha : P a) (hb : P b) :
    less b a = .ok false ∨ less a b = .ok false := by
  rcases h.eq_false_or_true hb ha with hba | hba
  · exact .inl hba
  · refine .inr ((h.eq_false_or_true ha hb).resolve_right fun hab => ?_)
    have haa := h.trans a b a ha hb ha hab hba
    rw [h.irrefl a ha] at haa
    cases haa

/-- Not being less is transitive. -/
theorem StrictWeak.notLess_trans (h : StrictWeak less P) (ha : P a) (hb : P b) (hc : P c)
    (hba : less b a = .ok false) (hcb : less c b = .ok false) : less c a = .ok false := by
  refine (h.eq_false_or_true hc ha).resolve_right fun hca => ?_
  have hab : less a b = .ok false := by
    refine (h.eq_false_or_true ha hb).resolve_right fun hab => ?_
    rw [h.trans c a b hc ha hb hca hab] at hcb
    cases hcb
  have hbc : less b c = .ok false := by
    refine (h.eq_false_or_true hb hc).resolve_right fun hbc => ?_
    rw [h.trans b c a hb hc ha hbc hca] at hba
    cases hba
  rw [(h.incomparable a b c ha hb hc ⟨hab, hba⟩ ⟨hbc, hcb⟩).2] at hca
  cases hca

end

theorem mergeSorted_sorted {l : List α} (h : StrictWeak less (· ∈ l)) :
    (mergeSorted less l).Pairwise fun a b => less b a = .ok false := by
  have hsorted : (l.attach.mergeSort fun a b => notLess less a.1 b.1).Pairwise
      fun a b => notLess less a.1 b.1 = true := by
    refine List.pairwise_mergeSort (fun a b c hab hbc => ?_) (fun a b => ?_) l.attach
    · rw [h.notLess_iff a.2 b.2] at hab
      rw [h.notLess_iff b.2 c.2] at hbc
      rw [h.notLess_iff a.2 c.2]
      exact h.notLess_trans a.2 b.2 c.2 hab hbc
    · rw [Bool.or_eq_true, h.notLess_iff a.2 b.2, h.notLess_iff b.2 a.2]
      exact h.asymm a.2 b.2
  exact List.pairwise_map.mpr (hsorted.imp fun {a b} hab => (h.notLess_iff a.2 b.2).mp hab)

/-- Merge sort keeps the promise. -/
def mergeSorter (ε : Type) : Sorter ε where
  sort less l := .ok (mergeSorted less l)
  sorts _ l h := ⟨_, rfl, mergeSorted_perm l, mergeSorted_sorted h⟩

end MergeSort

/-! ### Groups of equal elements -/

/-- The list falls into groups of equal elements, no two of the same element; `es` gives the length of
    each and the place it starts at, counted from `i`. -/
inductive Groups : ℕ → List κ → List (ℕ × ℕ) → Prop
  | nil {i : ℕ} : Groups i [] []
  | cons {i n : ℕ} {k : κ} {rest : List κ} {es : List (ℕ × ℕ)} (pos : 0 < n) (fresh : k ∉ rest)
      (tail : Groups (i + n) rest es) : Groups i (List.replicate n k ++ rest) ((n, i) :: es)

section Groups

variable {i : ℕ} {ks : List κ} {es : List (ℕ × ℕ)}

/-- The lengths add up. -/
theorem Groups.sum_eq (h : Groups i ks es) : (es.map Prod.fst).sum = ks.length := by
  induction h with
  | nil => rfl
  | cons _ _ _ ih => simp [ih]

theorem Groups.le (h : Groups i ks es) : ∀ e ∈ es, i ≤ e.2 := by
  induction h with
  | nil => exact fun _ he => nomatch he
  | cons _ _ _ ih =>
    intro e he
    rcases List.mem_cons.mp he with rfl | he
    · exact le_rfl
    · exact le_trans (Nat.le_add_right _ _) (ih e he)

/-- A group starts at one of its elements and is as long as that element occurs. -/
theorem Groups.count [DecidableEq κ] (h : Groups i ks es) :
    ∀ e ∈ es, ∃ k, ks[e.2 - i]? = some k ∧ e.1 = ks.count k := by
  induction h with
  | nil => exact fun _ he => nomatch he
  | @cons i n k rest es hpos hfresh htail ih =>
    intro e he
    rcases List.mem_cons.mp he with rfl | he
    · refine ⟨k, ?_, ?_⟩
      · rw [Nat.sub_self, List.getElem?_append_left (by simpa using hpos), List.getElem?_replicate,
          if_pos hpos]
      · rw [List.count_append, List.count_replicate_self, List.count_eq_zero.mpr hfresh]
        rfl
    · obtain ⟨k', hk', hcount⟩ := ih e he
      have hle := htail.le e he
      refine ⟨k', ?_, ?_⟩
      · rw [List.getElem?_append_right (by rw [List.length_replicate]; omega), List.length_replicate,
          show e.2 - i - n = e.2 - (i + n) by omega, hk']
      · have hne : k ≠ k' := by
          rintro rfl
          exact hfresh (List.mem_of_getElem? hk')
        rw [List.count_append, List.count_replicate, if_neg (by simpa using hne), Nat.zero_add, hcount]

/-- Each element has one group. -/
theorem Groups.once [DecidableEq κ] (h : Groups i ks es) (k : κ) :
    es.countP (fun e => ks[e.2 - i]? = some k) = if k ∈ ks then 1 else 0 := by
  induction h with
  | nil => rfl
  | @cons i n k' rest es hpos hfresh htail ih =>
    have hhead : (List.replicate n k' ++ rest)[i - i]? = some k' := by
      rw [Nat.sub_self, List.getElem?_append_left (by simpa using hpos), List.getElem?_replicate,
        if_pos hpos]
    have hlater : es.countP (fun e => (List.replicate n k' ++ rest)[e.2 - i]? = some k) =
        es.countP (fun e => rest[e.2 - (i + n)]? = some k) := by
      refine List.countP_congr fun e he => ?_
      have hle := htail.le e he
      rw [List.getElem?_append_right (by rw [List.length_replicate]; omega), List.length_replicate,
        show e.2 - i - n = e.2 - (i + n) by omega]
    rw [List.countP_cons, hlater, ih, hhead]
    by_cases hk : k' = k
    · subst hk
      simp [hfresh, hpos.ne']
    · have hne : ¬ (k = k') := fun h => hk h.symm
      simp [hk, hne]

end Groups

end Lib
