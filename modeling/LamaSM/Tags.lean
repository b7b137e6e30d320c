import LamaSM.Aggregates
import Mathlib.Data.List.GetD
import Mathlib.Data.Nat.Digits.Lemmas

/-! `LtagHash` and `de_hash`: a tag is the number its first ten characters write in base 64, with
    `chars` as the digits and '_' as the zero.

    A leading '_' adds nothing to the number and does not come back, which `LtagHash` takes for a failure. -/

namespace LamaSM
open Lib

/-! ### Numbers and their digits -/

section Digits

variable {c : UInt8} {cs buf : List UInt8} {h v n fuel : ℕ}

/-- The number a name writes. -/
def tagNumber (cs : List UInt8) : ℕ := Nat.ofDigits 64 (cs.map fun c => chars.idxOf c).reverse

/-- `chars` gives every character a digit of its own. -/
theorem chars_idxOf : ∀ c ∈ chars, chars.idxOf? c = some (chars.idxOf c) ∧ chars.idxOf c < 64 ∧
    chars.getD (chars.idxOf c) 0 = c := by
  intro c hc
  obtain ⟨i, hi⟩ := Option.isSome_iff_exists.mp (List.isSome_idxOf?.mpr hc)
  have hidx : chars.idxOf c = i := by rw [List.idxOf_eq_getD_idxOf?, hi, Option.getD_some]
  have hlt : chars.idxOf c < chars.length := List.idxOf_lt_length_of_mem hc
  refine ⟨hidx ▸ hi, hlt, ?_⟩
  rw [List.getD_eq_getElem chars 0 hlt, List.getElem_idxOf hlt]

theorem chars_getD : ∀ d < 64, chars.getD d 0 ∈ chars ∧ chars.idxOf (chars.getD d 0) = d := by
  intro d hd
  have hnodup : chars.Nodup := by decide
  have hlt : d < chars.length := hd
  rw [List.getD_eq_getElem chars 0 hlt]
  exact ⟨List.getElem_mem hlt, List.Nodup.idxOf_getElem hnodup d hlt⟩

theorem tagNumber_cons : tagNumber (c :: cs) = chars.idxOf c * 64 ^ cs.length + tagNumber cs := by
  rw [tagNumber, List.map_cons, List.reverse_cons, Nat.ofDigits_append, Nat.ofDigits_singleton, List.length_reverse,
    List.length_map, Nat.mul_comm, Nat.add_comm]
  rfl

theorem tagNumber_lt (hcs : ∀ c ∈ cs, c ∈ chars) : tagNumber cs < 64 ^ cs.length := by
  have hlt := Nat.ofDigits_lt_base_pow_length (b := 64) (l := (cs.map fun c => chars.idxOf c).reverse) (by decide) fun d hd => by
    obtain ⟨c, hc, rfl⟩ := List.mem_map.mp (List.mem_reverse.mp hd)
    exact (chars_idxOf c (hcs c hc)).2.1
  rwa [List.length_reverse, List.length_map] at hlt

/-- The loop of `LtagHash` reads the number, if every character is a digit. -/
theorem tagHashLoop_ok : ∀ {cs : List UInt8} {h v : ℕ}, tagHashLoop cs h = .ok v ↔
    (∀ c ∈ cs, c ∈ chars) ∧ v = h * 64 ^ cs.length + tagNumber cs
  | [], h, v => by
    rw [tagHashLoop, except_pure_ok]
    simp [tagNumber, eq_comm]
  | c :: cs, h, v => by
    rw [tagHashLoop]
    by_cases hc : c ∈ chars
    · rw [(chars_idxOf c hc).1]
      dsimp only
      rw [tagHashLoop_ok, List.forall_mem_cons, tagNumber_cons, List.length_cons, Nat.pow_succ]
      have hvalue : (h * 64 + chars.idxOf c) * 64 ^ cs.length + tagNumber cs =
          h * (64 ^ cs.length * 64) + (chars.idxOf c * 64 ^ cs.length + tagNumber cs) := by ring
      rw [hvalue]
      exact ⟨fun h => ⟨⟨hc, h.1⟩, h.2⟩, fun h => ⟨h.1.2, h.2⟩⟩
    · rw [List.idxOf?_eq_none_iff.mpr hc]
      constructor
      · intro heq
        cases heq
      · exact fun h => absurd (h.1 c List.mem_cons_self) hc

/-- `de_hash` writes the digits of a number, none of them a leading zero. -/
theorem deHash_eq : ∀ {fuel n : ℕ} {buf : List UInt8}, n < 64 ^ fuel →
    deHash fuel n buf = (Nat.digits 64 n).reverse.map (fun d => chars.getD d 0) ++ buf
  | 0, n, buf, hn => by
    obtain rfl : n = 0 := by omega
    simp [deHash]
  | fuel + 1, n, buf, hn => by
    rw [deHash]
    by_cases hzero : n = 0
    · rw [if_pos hzero, hzero]
      simp
    · have hdiv : n / 64 < 64 ^ fuel := Nat.div_lt_of_lt_mul (by rwa [Nat.pow_succ'] at hn)
      rw [if_neg hzero, deHash_eq hdiv, Nat.digits_def' (n := n) (by decide) (by omega)]
      simp

theorem deHash_number (hn : n < 64 ^ fuel) : (∀ c ∈ deHash fuel n [], c ∈ chars) ∧ tagNumber (deHash fuel n []) = n ∧
    (deHash fuel n []).length ≤ fuel ∧ (deHash fuel n []).head? ≠ some 95 := by
  rw [deHash_eq hn, List.append_nil]
  have hdigit : ∀ d ∈ (Nat.digits 64 n).reverse, d < 64 :=
    fun d hd => Nat.digits_lt_base (by decide) (List.mem_reverse.mp hd)
  refine ⟨fun c hc => ?_, ?_, ?_, fun hhead => ?_⟩
  · obtain ⟨d, hd, rfl⟩ := List.mem_map.mp hc
    exact (chars_getD d (hdigit d hd)).1
  · have hback : ((Nat.digits 64 n).reverse.map (fun d => chars.getD d 0)).map (fun c => chars.idxOf c) =
        (Nat.digits 64 n).reverse := by
      rw [List.map_map]
      exact (List.map_congr_left fun d hd => (chars_getD d (hdigit d hd)).2).trans (List.map_id _)
    rw [tagNumber, hback, List.reverse_reverse, Nat.ofDigits_digits]
  · rw [List.length_map, List.length_reverse]
    exact (Nat.digits_length_le_iff (by decide) n).mpr hn
  · have hzero : n ≠ 0 := by
      rintro rfl
      cases hhead
    have hnil : Nat.digits 64 n ≠ [] := Nat.digits_ne_nil_iff_ne_zero.mpr hzero
    rw [List.head?_map, List.head?_reverse, List.getLast?_eq_getLast_of_ne_nil hnil, Option.map_some, Option.some_inj] at hhead
    have hback := (chars_getD _ (hdigit _ (List.mem_reverse.mpr (List.getLast_mem hnil)))).2
    rw [hhead] at hback
    exact Nat.getLast_digit_ne_zero 64 hzero (hback.symm.trans (by decide))

/-- A name of digits comes back from its number unless it begins with the zero. -/
theorem deHash_tagNumber (hcs : ∀ c ∈ cs, c ∈ chars) (hlen : cs.length ≤ fuel) :
    deHash fuel (tagNumber cs) [] = cs ↔ cs.head? ≠ some 95 := by
  have hlt : tagNumber cs < 64 ^ fuel := (tagNumber_lt hcs).trans_le (Nat.pow_le_pow_right (by decide) hlen)
  constructor
  · intro heq
    rw [← heq]
    exact (deHash_number hlt).2.2.2
  · intro hhead
    rw [deHash_eq hlt, List.append_nil, tagNumber, Nat.digits_ofDigits 64 (by decide)]
    · rw [List.reverse_reverse, List.map_map]
      exact (List.map_congr_left fun c hc => (chars_idxOf c (hcs c hc)).2.2).trans (List.map_id _)
    · intro d hd
      obtain ⟨c, hc, rfl⟩ := List.mem_map.mp (List.mem_reverse.mp hd)
      exact (chars_idxOf c (hcs c hc)).2.1
    · cases cs with
      | nil => exact fun h => absurd rfl h
      | cons c cs =>
        intro hnil hlast
        have hzero : chars.idxOf c = 0 := by simpa using hlast
        refine hhead ?_
        rw [List.head?_cons, ← (chars_idxOf c (hcs c List.mem_cons_self)).2.2, hzero]
        rfl

end Digits

/-! ### Names and tags -/

/-- What `LtagHash` accepts: the first ten characters are among `chars`, and the first is not '_'. -/
def Hashable (name : List UInt8) : Prop := (∀ c ∈ name.take maxSexpTaglen, c ∈ chars) ∧ name.head? ≠ some 95

section Hash

variable {name : List UInt8} {w d : Word} {n : ℕ}

theorem head?_take : (name.take maxSexpTaglen).head? = name.head? := by
  rw [List.head?_take, if_neg (by decide)]

/-- `LtagHash` gives the number of the first ten characters. -/
theorem tagHash_eq : tagHash name = .ok w ↔
    Hashable name ∧ w = boxInt (tagNumber (name.take maxSexpTaglen)) := by
  have hlen : (name.take maxSexpTaglen).length ≤ maxSexpTaglen := List.length_take_le _ _
  have hnumber : ∀ h, tagHashLoop (name.take maxSexpTaglen) 0 = .ok h ↔
      (∀ c ∈ name.take maxSexpTaglen, c ∈ chars) ∧ h = tagNumber (name.take maxSexpTaglen) := by
    intro h
    rw [tagHashLoop_ok, Nat.zero_mul, Nat.zero_add]
  rw [tagHash, Hashable, ← head?_take]
  constructor
  · intro h
    obtain ⟨v, hv, h⟩ := except_bind_ok.mp h
    obtain ⟨hcs, rfl⟩ := (hnumber v).mp hv
    split_ifs at h with hname
    rw [except_pure_ok] at h
    exact ⟨⟨hcs, (deHash_tagNumber hcs hlen).mp (not_ne_iff.mp hname).symm⟩, h.symm⟩
  · rintro ⟨⟨hcs, hhead⟩, rfl⟩
    rw [(hnumber _).mpr ⟨hcs, rfl⟩, except_ok_bind, if_neg (not_ne_iff.mpr ((deHash_tagNumber hcs hlen).mpr hhead).symm)]
    rfl

/-- `de_hash` gives back a name `LtagHash` accepts, and `LtagHash` accepts what `de_hash` gives. -/
theorem deHash_tagHash (hn : n < 64 ^ maxSexpTaglen) : tagHash (deHash maxSexpTaglen n []) = .ok (boxInt n) := by
  obtain ⟨hcs, hnumber, hlen, hhead⟩ := deHash_number hn
  have htake := List.take_of_length_le hlen
  exact tagHash_eq.mpr ⟨⟨fun c hc => hcs c (List.mem_of_mem_take hc), hhead⟩, by rw [htake, hnumber]⟩

/-- `LtagHash` and `de_hash` are inverse to each other between the names accepted, cut to ten characters, and
    the numbers of sixty bits. Names get the same tag just when their first ten characters agree. -/
theorem tagHash_roundtrip :
    (∀ name w, tagHash name = .ok w ↔
      Hashable name ∧ ∃ h : ℕ, h < 2 ^ 60 ∧ w = boxInt h ∧ deHash maxSexpTaglen h [] = name.take maxSexpTaglen) ∧
    (∀ h : ℕ, h < 2 ^ 60 → tagHash (deHash maxSexpTaglen h []) = .ok (boxInt h)) ∧
    ∀ name name' w w', tagHash name = .ok w → tagHash name' = .ok w' →
      (w = w' ↔ name.take maxSexpTaglen = name'.take maxSexpTaglen) := by
  have hsize : 64 ^ maxSexpTaglen = 2 ^ 60 := by decide
  have hback : ∀ name : List UInt8, Hashable name → tagNumber (name.take maxSexpTaglen) < 2 ^ 60 ∧
      deHash maxSexpTaglen (tagNumber (name.take maxSexpTaglen)) [] = name.take maxSexpTaglen := by
    rintro name ⟨hcs, hhead⟩
    have hlen : (name.take maxSexpTaglen).length ≤ maxSexpTaglen := List.length_take_le _ _
    rw [← head?_take] at hhead
    refine ⟨(tagNumber_lt hcs).trans_le ?_, (deHash_tagNumber hcs hlen).mpr hhead⟩
    exact (Nat.pow_le_pow_right (by decide) hlen).trans hsize.le
  refine ⟨fun name w => ?_, fun h hh => deHash_tagHash (hsize ▸ hh), fun name name' w w' hw hw' => ?_⟩
  · rw [tagHash_eq]
    refine and_congr_right fun hname => ⟨?_, ?_⟩
    · rintro rfl
      obtain ⟨hlt, hdehash⟩ := hback name hname
      exact ⟨_, hlt, rfl, hdehash⟩
    · rintro ⟨h, hh, rfl, hdehash⟩
      rw [← hdehash, (deHash_number (hsize ▸ hh)).2.1]
  · obtain ⟨hname, rfl⟩ := tagHash_eq.mp hw
    obtain ⟨hname', rfl⟩ := tagHash_eq.mp hw'
    obtain ⟨hlt, hdehash⟩ := hback name hname
    obtain ⟨hlt', hdehash'⟩ := hback name' hname'
    refine ⟨fun heq => ?_, fun heq => by rw [heq]⟩
    have hunbox := congrArg unbox heq
    rw [unbox_boxInt (by omega) (by omega), unbox_boxInt (by omega) (by omega)] at hunbox
    rw [← hdehash, ← hdehash', Int.ofNat_inj.mp hunbox]

end Hash
end LamaSM
