import LamaSM.Lib.Bytes
import Mathlib.Data.List.Basic

/-! Memory as a function from addresses to bytes, with 64-bit words in it.

    `Copied m a m' b n` says that the `n` bytes from `b` on in `m'` are those from `a` on in `m`. What
    is read from memory (bytes, words) is read alike from a copy, so one relation serves for moving a
    block, for copying a region and for leaving a region alone. -/

namespace Lib

/-- A byte at every address. -/
structure ByteMemory where
  byte : ℕ → UInt8

instance : CoeFun ByteMemory fun _ => ℕ → UInt8 := ⟨ByteMemory.byte⟩

/-- The `n` bytes from `a` on. -/
def bytesFrom (m : ByteMemory) (a : ℕ) : ℕ → List UInt8
  | 0 => []
  | n + 1 => m a :: bytesFrom m (a + 1) n

/-- Writes the bytes from `a` on. -/
def storeBytes (m : ByteMemory) (a : ℕ) (bs : List UInt8) : ByteMemory :=
  ⟨fun b => if a ≤ b ∧ b < a + bs.length then bs.getD (b - a) 0 else m b⟩

/-- The word at `a`, its lowest byte first. -/
def load64 (m : ByteMemory) (a : ℕ) : BitVec 64 := BitVec.ofNat 64 (byteValue (bytesFrom m a 8))

/-- Writes the word at `a`. -/
def store64 (m : ByteMemory) (a : ℕ) (w : BitVec 64) : ByteMemory := storeBytes m a (digits 8 w.toNat)

/-- `memmove (dst, src, n)`; `memcpy` where the two do not overlap. -/
def moveBytes (m : ByteMemory) (dst src n : ℕ) : ByteMemory :=
  ⟨fun b => if dst ≤ b ∧ b < dst + n then m (src + (b - dst)) else m b⟩

/-- `memset (a, 0, n)` -/
def clearBytes (m : ByteMemory) (a n : ℕ) : ByteMemory := ⟨fun b => if a ≤ b ∧ b < a + n then 0 else m b⟩

/-- The bytes from `b` on in `m'` are those from `a` on in `m`. -/
def Copied (m : ByteMemory) (a : ℕ) (m' : ByteMemory) (b n : ℕ) : Prop :=
  ∀ k < n, m' (b + k) = m (a + k)

section Copied

variable {m m' m'' : ByteMemory} {a b c n k l : ℕ}

theorem Copied.refl (m : ByteMemory) (a n : ℕ) : Copied m a m a n := fun _ _ => rfl

theorem Copied.trans (h : Copied m a m' b n) (h' : Copied m' b m'' c n) : Copied m a m'' c n :=
  fun k hk => (h' k hk).trans (h k hk)

/-- A part of what is copied. -/
theorem Copied.sub (h : Copied m a m' b n) (hkl : k + l ≤ n) : Copied m (a + k) m' (b + k) l := by
  intro i hi
  rw [Nat.add_assoc, Nat.add_assoc]
  exact h (k + i) (by omega)

theorem Copied.mono (h : Copied m a m' b n) (hl : l ≤ n) : Copied m a m' b l :=
  fun k hk => h k (Nat.lt_of_lt_of_le hk hl)

theorem Copied.bytesFrom : ∀ {n a b : ℕ}, Copied m a m' b n → Lib.bytesFrom m' b n = Lib.bytesFrom m a n
  | 0, _, _, _ => rfl
  | n + 1, a, b, h => by
    have hhead := h 0 (Nat.zero_lt_succ n)
    have htail : Copied m (a + 1) m' (b + 1) n := h.sub (by omega)
    rw [Lib.bytesFrom, Lib.bytesFrom, htail.bytesFrom]
    simp only [Nat.add_zero] at hhead
    rw [hhead]

theorem Copied.load64 (h : Copied m a m' b 8) : Lib.load64 m' b = Lib.load64 m a := by
  rw [Lib.load64, Lib.load64, h.bytesFrom]

/-- The word at an offset into what is copied. -/
theorem Copied.load64_at (h : Copied m a m' b n) (hk : k + 8 ≤ n) :
    Lib.load64 m' (b + k) = Lib.load64 m (a + k) := (h.sub hk).load64

/-- What is the same from `lo` up to `hi`. -/
theorem copied_between {lo hi : ℕ} (h : ∀ x, lo ≤ x → x < hi → m' x = m x) (ha : lo ≤ a)
    (hn : a + n ≤ hi) : Copied m a m' a n := fun k _ => h (a + k) (by omega) (by omega)

end Copied

section Bytes

variable {m : ByteMemory} {a b n : ℕ} {bs : List UInt8}

@[simp] theorem bytesFrom_length : ∀ (n a : ℕ), (bytesFrom m a n).length = n
  | 0, _ => rfl
  | n + 1, a => congrArg (· + 1) (bytesFrom_length n (a + 1))

theorem bytesFrom_getElem? : ∀ (n a k : ℕ), k < n → (bytesFrom m a n)[k]? = some (m (a + k))
  | 0, _, _, h => absurd h (Nat.not_lt_zero _)
  | n + 1, a, 0, _ => rfl
  | n + 1, a, k + 1, h => by
    rw [bytesFrom, List.getElem?_cons_succ, bytesFrom_getElem? n (a + 1) k (Nat.lt_of_succ_lt_succ h)]
    congr 2
    omega

theorem bytesFrom_add (n : ℕ) : ∀ k a : ℕ, bytesFrom m a (k + n) = bytesFrom m a k ++ bytesFrom m (a + k) n
  | 0, a => by rw [Nat.zero_add]; rfl
  | k + 1, a => by
    rw [Nat.succ_add, bytesFrom, bytesFrom_add n k (a + 1), bytesFrom, Nat.add_assoc, Nat.add_comm 1 k]
    rfl

theorem bytesFrom_eq (h : ∀ k, k < bs.length → bs[k]? = some (m (a + k))) :
    bytesFrom m a bs.length = bs := by
  apply List.ext_getElem?
  intro k
  by_cases hk : k < bs.length
  · rw [bytesFrom_getElem? _ _ _ hk, h k hk]
  · rw [List.getElem?_eq_none (by rw [bytesFrom_length]; omega), List.getElem?_eq_none (by omega)]

end Bytes

section Stores

variable {m : ByteMemory} {a b n dst src : ℕ} {bs : List UInt8} {w : BitVec 64}

theorem storeBytes_of_not_mem (h : b < a ∨ a + bs.length ≤ b) : storeBytes m a bs b = m b := by
  show (if _ then _ else _) = _
  rw [if_neg (by omega)]

theorem storeBytes_of_mem (h : a ≤ b) (hb : b < a + bs.length) : storeBytes m a bs b = bs.getD (b - a) 0 := by
  show (if _ then _ else _) = _
  rw [if_pos ⟨h, hb⟩]

theorem bytesFrom_storeBytes (m : ByteMemory) (a : ℕ) (bs : List UInt8) :
    bytesFrom (storeBytes m a bs) a bs.length = bs := by
  refine bytesFrom_eq fun k hk => ?_
  show _ = some (if _ then _ else _)
  rw [if_pos (by omega), Nat.add_sub_cancel_left, List.getD_eq_getElem?_getD, List.getElem?_eq_getElem hk]
  rfl

/-- Some bytes among others are written. -/
theorem bytesFrom_storeBytes_at {cs : List UInt8} {k : ℕ} (h : bytesFrom m a cs.length = cs)
    (hk : k + bs.length ≤ cs.length) :
    bytesFrom (storeBytes m (a + k) bs) a cs.length = cs.take k ++ bs ++ cs.drop (k + bs.length) := by
  apply List.ext_getElem?
  intro l
  rcases Nat.lt_or_ge l cs.length with hl | hl
  · have hbyte := bytesFrom_getElem? (m := m) cs.length a l hl
    rw [h] at hbyte
    rw [bytesFrom_getElem? _ _ _ hl]
    rcases Nat.lt_or_ge l k with hlk | hlk
    · rw [storeBytes_of_not_mem (by omega), List.getElem?_append_left (by simp; omega),
        List.getElem?_append_left (by simp; omega), List.getElem?_take_of_lt hlk, hbyte]
    have htake : (cs.take k).length = k := by simp; omega
    rcases Nat.lt_or_ge l (k + bs.length) with hlb | hlb
    · rw [storeBytes_of_mem (by omega) (by omega), List.getElem?_append_left (by simp; omega),
        List.getElem?_append_right (by omega), htake, List.getD_eq_getElem?_getD,
        show a + l - (a + k) = l - k by omega, List.getElem?_eq_getElem (by omega)]
      rfl
    · rw [storeBytes_of_not_mem (by omega), List.getElem?_append_right (by simp; omega), List.length_append, htake,
        List.getElem?_drop, show k + bs.length + (l - (k + bs.length)) = l by omega, hbyte]
  · rw [List.getElem?_eq_none (by simp; omega), List.getElem?_eq_none (by simp; omega)]

@[simp] theorem digits_length : ∀ k n : ℕ, (digits k n).length = k
  | 0, _ => rfl
  | k + 1, n => congrArg (· + 1) (digits_length k (n / 2 ^ 8))

theorem store64_of_not_mem (h : b < a ∨ a + 8 ≤ b) : store64 m a w b = m b :=
  storeBytes_of_not_mem (by rwa [digits_length])

theorem load64_store64 : load64 (store64 m a w) a = w := by
  have hbytes := bytesFrom_storeBytes m a (digits 8 w.toNat)
  rw [digits_length] at hbytes
  rw [load64, store64, hbytes, byteValue_digits]
  apply BitVec.eq_of_toNat_eq
  rw [BitVec.toNat_ofNat]
  have := w.isLt
  omega

/-- A word is read as before where another one is written. -/
theorem load64_store64_of_disjoint (h : b + 8 ≤ a ∨ a + 8 ≤ b) : load64 (store64 m a w) b = load64 m b :=
  Copied.load64 fun k hk => store64_of_not_mem (by omega)

theorem moveBytes_of_not_mem (h : b < dst ∨ dst + n ≤ b) : moveBytes m dst src n b = m b := by
  show (if _ then _ else _) = _
  rw [if_neg (by omega)]

theorem copied_moveBytes : Copied m src (moveBytes m dst src n) dst n := fun k hk => by
  show (if _ then _ else _) = _
  rw [if_pos (by omega), Nat.add_sub_cancel_left]

theorem clearBytes_of_not_mem (h : b < a ∨ a + n ≤ b) : clearBytes m a n b = m b := by
  show (if _ then _ else _) = _
  rw [if_neg (by omega)]

theorem clearBytes_of_mem (h : a ≤ b) (hn : b < a + n) : clearBytes m a n b = 0 := by
  show (if _ then _ else _) = _
  rw [if_pos ⟨h, hn⟩]

end Stores

/-! ### Words turned round -/

/-- `std::reverse` on the `n` words from `a` on -/
def reverseWords (m : ByteMemory) (a : ℕ) : ℕ → ByteMemory
  | 0 => m
  | 1 => m
  | n + 2 =>
    reverseWords (store64 (store64 m a (load64 m (a + 8 * (n + 1)))) (a + 8 * (n + 1)) (load64 m a)) (a + 8) n

section Reverse

variable {b : ℕ}

theorem reverseWords_of_not_mem : ∀ {n : ℕ} {m : ByteMemory} {a : ℕ}, (b < a ∨ a + 8 * n ≤ b) →
    reverseWords m a n b = m b
  | 0, _, _, _ => rfl
  | 1, _, _, _ => rfl
  | n + 2, m, a, h => by
    rw [reverseWords, reverseWords_of_not_mem (by omega), store64_of_not_mem (by omega), store64_of_not_mem (by omega)]

theorem load64_reverseWords : ∀ {n k : ℕ} {m : ByteMemory} {a : ℕ}, k < n →
    load64 (reverseWords m a n) (a + 8 * k) = load64 m (a + 8 * (n - 1 - k))
  | 0, _, _, _, h => absurd h (Nat.not_lt_zero _)
  | 1, k, m, a, h => by
    obtain rfl : k = 0 := by omega
    rfl
  | n + 2, k, m, a, h => by
    rw [reverseWords]
    have houter {c : ℕ} (hc : c + 8 ≤ a + 8 ∨ a + 8 + 8 * n ≤ c) (m : ByteMemory) :
        load64 (reverseWords m (a + 8) n) c = load64 m c :=
      Copied.load64 fun i hi => reverseWords_of_not_mem (by omega)
    rcases Nat.eq_zero_or_pos k with rfl | hpos
    · rw [Nat.mul_zero, houter (by omega), load64_store64_of_disjoint (by omega)]
      exact load64_store64
    rcases Nat.lt_or_ge k (n + 1) with hlt | hge
    · obtain ⟨l, rfl⟩ := Nat.exists_eq_add_of_le hpos
      rw [show a + 8 * (1 + l) = a + 8 + 8 * l by omega, load64_reverseWords (by omega),
        load64_store64_of_disjoint (by omega), load64_store64_of_disjoint (by omega)]
      congr 1
      omega
    · obtain rfl : k = n + 1 := by omega
      rw [houter (by omega), load64_store64]
      congr 1
      omega

end Reverse

/-! ### C strings -/

/-- `strlen`; `fuel` bounds the bytes that are looked at. -/
def strlen (m : ByteMemory) : ℕ → ℕ → Option ℕ
  | 0, _ => none
  | fuel + 1, a => if m a = 0 then some 0 else (strlen m fuel (a + 1)).map (· + 1)

/-- The characters of a C string; `fuel` bounds the bytes that are looked at. -/
def cString (m : ByteMemory) : ℕ → ℕ → Option (List UInt8)
  | 0, _ => none
  | fuel + 1, a => if m a = 0 then some [] else (cString m fuel (a + 1)).map (m a :: ·)

/-- `strncpy (dst, src, n)`: what is left behind the NUL is filled with zeros. -/
def strncpy (m : ByteMemory) (dst src : ℕ) : ℕ → ByteMemory
  | 0 => m
  | n + 1 =>
    if m src = 0 then clearBytes m dst (n + 1)
    else strncpy (storeBytes m dst [m src]) (dst + 1) (src + 1) n

/-- The characters, none of them NUL, and a NUL lie from `a` on. -/
def CString (m : ByteMemory) : ℕ → List UInt8 → Prop
  | a, [] => m a = 0
  | a, c :: cs => c ≠ 0 ∧ m a = c ∧ CString m (a + 1) cs

section CStrings

variable {m m' : ByteMemory} {a b src : ℕ} {c : UInt8}

theorem CString.strlen : ∀ {cs : List UInt8} {a fuel : ℕ}, CString m a cs → cs.length < fuel →
    Lib.strlen m fuel a = some cs.length
  | _, _, 0, _, hfuel => absurd hfuel (Nat.not_lt_zero _)
  | [], a, fuel + 1, h, _ => by
    have hzero : m a = 0 := h
    rw [Lib.strlen, if_pos hzero]
    rfl
  | c :: cs, a, fuel + 1, h, hfuel => by
    obtain ⟨hc, ha, hcs⟩ := h
    rw [Lib.strlen, if_neg (by rw [ha]; exact hc), hcs.strlen (Nat.lt_of_succ_lt_succ hfuel)]
    rfl

theorem CString.copied : ∀ {cs : List UInt8} {a b : ℕ}, CString m a cs → Copied m a m' b (cs.length + 1) →
    CString m' b cs
  | [], a, b, h, hc => (hc 0 (Nat.zero_lt_succ _)).trans h
  | c :: cs, a, b, h, hc => by
    obtain ⟨hne, ha, hcs⟩ := h
    have htail : Copied m (a + 1) m' (b + 1) (cs.length + 1) := hc.sub (by rw [List.length_cons]; omega)
    exact ⟨hne, (hc 0 (Nat.zero_lt_succ _)).trans ha, hcs.copied htail⟩

theorem CString.bytesFrom : ∀ {cs : List UInt8} {a : ℕ}, CString m a cs →
    Lib.bytesFrom m a (cs.length + 1) = cs ++ [0]
  | [], a, h => by
    have hzero : m a = 0 := h
    rw [List.length_nil, Lib.bytesFrom, hzero]
    rfl
  | c :: cs, a, h => by
    obtain ⟨-, ha, hcs⟩ := h
    rw [List.length_cons, Lib.bytesFrom, ha, hcs.bytesFrom]
    rfl

/-- Bytes that are not NUL, with a NUL behind them. -/
theorem cString_of_chars : ∀ {cs : List UInt8} {a : ℕ}, Lib.bytesFrom m a cs.length = cs → 0 ∉ cs →
    m (a + cs.length) = 0 → CString m a cs
  | [], _, _, _, hend => hend
  | c :: cs, a, hbytes, hzero, hend => by
    obtain ⟨hc, hcs⟩ := List.cons_eq_cons.mp hbytes
    rw [List.mem_cons, not_or] at hzero
    refine ⟨fun h => hzero.1 h.symm, hc, cString_of_chars hcs hzero.2 ?_⟩
    rw [List.length_cons] at hend
    rwa [show a + 1 + cs.length = a + (cs.length + 1) by omega]

/-- A C string ends at the first NUL among the bytes. -/
theorem cString_of_bytes : ∀ {bs rest : List UInt8} {fuel a : ℕ}, bytesFrom m a fuel = bs ++ rest → 0 ∈ bs →
    cString m fuel a = some (bs.takeWhile (· ≠ 0))
  | [], _, _, _, _, hzero => absurd hzero List.not_mem_nil
  | _ :: _, _, 0, _, h, _ => by cases h
  | c :: bs, rest, fuel + 1, a, h, hzero => by
    obtain ⟨hc, htail⟩ := List.cons_eq_cons.mp h
    rw [cString, hc]
    by_cases hnul : c = 0
    · rw [if_pos hnul, List.takeWhile_cons_of_neg (by simp [hnul])]
    · rw [if_neg hnul, cString_of_bytes htail ((List.mem_cons.mp hzero).resolve_left (Ne.symm hnul)),
        List.takeWhile_cons_of_pos (by simp [hnul])]
      rfl

theorem storeBytes_singleton : storeBytes m a [c] a = c := by
  show (if _ then _ else _) = _
  rw [if_pos ⟨Nat.le_refl a, Nat.lt_succ_self a⟩, Nat.sub_self]
  rfl

theorem strncpy_of_not_mem : ∀ {n : ℕ} {m : ByteMemory} {dst src : ℕ}, (b < dst ∨ dst + n ≤ b) →
    strncpy m dst src n b = m b
  | 0, _, _, _, _ => rfl
  | n + 1, m, dst, src, h => by
    rw [strncpy]
    split
    · exact clearBytes_of_not_mem h
    · rw [strncpy_of_not_mem (by omega), storeBytes_of_not_mem (by rw [List.length_singleton]; omega)]

/-- A C string is copied to a place apart from it. -/
theorem CString.strncpy : ∀ {cs : List UInt8} {m : ByteMemory} {dst src : ℕ}, CString m src cs →
    (src + cs.length < dst ∨ dst + cs.length < src) → CString (Lib.strncpy m dst src (cs.length + 1)) dst cs
  | [], m, dst, src, h, _ => by
    have hzero : m src = 0 := h
    rw [List.length_nil, Lib.strncpy, if_pos hzero]
    exact clearBytes_of_mem (Nat.le_refl _) (Nat.lt_succ_self _)
  | c :: cs, m, dst, src, h, hapart => by
    obtain ⟨hne, hc, hcs⟩ := h
    rw [List.length_cons] at hapart ⊢
    rw [Lib.strncpy, if_neg (by rw [hc]; exact hne), hc]
    have hkept : CString (storeBytes m dst [c]) (src + 1) cs := hcs.copied fun k hk =>
      storeBytes_of_not_mem (by rw [List.length_singleton]; omega)
    refine ⟨hne, ?_, hkept.strncpy (by omega)⟩
    rw [strncpy_of_not_mem (.inl (Nat.lt_succ_self dst)), storeBytes_singleton]

end CStrings

end Lib
