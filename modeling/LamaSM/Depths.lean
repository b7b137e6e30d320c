import LamaSM.Transfer
import LamaSM.Marks

/-! The depths `collect_marks` computes against the operands of a run.

    The invariant of a run (`Counting`) says that the running activation holds as many operands as
    the verifier counts at `code_ptr`, and that each suspended one will again when its callee
    returns. A turn keeps it under the conditions of `Sound`; one of them, that the instruction is no
    CALL_STRING, is only needed for equality, without it the verifier counts too many. -/

namespace LamaSM
open Lib

/-! ### Instructions the verifier did not overwrite -/

/-- The instruction at `o` reads the same in both files, the first operand of BEGIN and CBEGIN, where
    `verify` writes, apart. -/
structure SameInstruction (bf bf' : Bytefile) (o : ℤ) : Prop where
  code : bf'.code o = bf.code o
  operands : ∀ type, bf.typeAt o = .ok type → type ≠ .begin → type ≠ .cbegin →
    ∀ k < (fixedLength type - 1) / 4, bf'.code32 (o + 1 + 4 * k) = bf.code32 (o + 1 + 4 * k)

instance (bf bf' : Bytefile) (o : ℤ) : Decidable (SameInstruction bf bf' o) :=
  match h : bf.typeAt o with
  | .ok type => decidable_of_iff (bf'.code o = bf.code o ∧ (type ≠ .begin → type ≠ .cbegin →
      ∀ k < (fixedLength type - 1) / 4, bf'.code32 (o + 1 + 4 * (k : ℕ)) = bf.code32 (o + 1 + 4 * (k : ℕ))))
    ⟨fun hs => ⟨hs.1, fun _ ht => Except.ok.inj (h.symm.trans ht) ▸ hs.2⟩,
      fun hs => ⟨hs.code, hs.operands type h⟩⟩
  | .error _ => decidable_of_iff (bf'.code o = bf.code o)
    ⟨fun hs => ⟨hs, fun _ ht => by rw [h] at ht; cases ht⟩, SameInstruction.code⟩

section SameInstruction

variable {bf bf' : Bytefile} {o : ℤ} {type : InstructionType}

theorem SameInstruction.typeAt (h : SameInstruction bf bf' o) : bf'.typeAt o = bf.typeAt o := by
  rw [Bytefile.typeAt, Bytefile.typeAt, h.code]

theorem SameInstruction.lowBitsAt (h : SameInstruction bf bf' o) :
    bf'.lowBitsAt o = bf.lowBitsAt o := by
  rw [Bytefile.lowBitsAt, Bytefile.lowBitsAt, h.code]

theorem SameInstruction.first (h : SameInstruction bf bf' o) (ht : bf.typeAt o = .ok type)
    (hb : type ≠ .begin) (hc : type ≠ .cbegin) (hlen : 5 ≤ fixedLength type) :
    bf'.code32 (o + 1) = bf.code32 (o + 1) := by
  have h0 := h.operands type ht hb hc 0 (by omega)
  simpa using h0

theorem SameInstruction.second (h : SameInstruction bf bf' o) (ht : bf.typeAt o = .ok type)
    (hb : type ≠ .begin) (hc : type ≠ .cbegin) (hlen : 9 ≤ fixedLength type) :
    bf'.code32 (o + 1 + 4) = bf.code32 (o + 1 + 4) := by
  have h1 := h.operands type ht hb hc 1 (by omega)
  simpa using h1

theorem SameInstruction.operandEffect (h : SameInstruction bf bf' o) (ht : bf.typeAt o = .ok type)
    (i : Bool) : operandEffect bf' o type i = operandEffect bf o type i := by
  cases type
  case binop | st | patt => rw [LamaSM.operandEffect, LamaSM.operandEffect, h.lowBitsAt]
  case callArray | callc =>
    rw [LamaSM.operandEffect, LamaSM.operandEffect, h.first ht (by decide) (by decide) (by decide)]
  case sexp | call =>
    rw [LamaSM.operandEffect, LamaSM.operandEffect, h.second ht (by decide) (by decide) (by decide)]
  all_goals rfl

theorem SameInstruction.complete (h : SameInstruction bf bf' o) (ht : bf.typeAt o = .ok type)
    (hc : Complete bf' o type) : Complete bf o type := by
  cases type
  case binop | st | patt =>
    obtain ⟨low, hlow, hknown⟩ := hc
    exact ⟨low, h.lowBitsAt ▸ hlow, hknown⟩
  case callArray | callc =>
    obtain ⟨n, hn⟩ := hc
    exact ⟨n, by rw [← h.first ht (by decide) (by decide) (by decide), hn]⟩
  case sexp =>
    obtain ⟨n, hn, hlt⟩ := hc
    exact ⟨n, by rw [← h.second ht (by decide) (by decide) (by decide), hn], hlt⟩
  case call =>
    obtain ⟨n, hn⟩ := hc
    exact ⟨n, by rw [← h.second ht (by decide) (by decide) (by decide), hn]⟩
  all_goals exact hc

theorem SameInstruction.nextOffset (h : SameInstruction bf bf' o) (ht : bf.typeAt o = .ok type)
    {o' : ℤ} (hn : NextOffset bf' o type o') : NextOffset bf o type o' := by
  cases type
  case jmp =>
    obtain ⟨target, htarget, ho⟩ := hn
    exact ⟨target, by rw [← h.first ht (by decide) (by decide) (by decide), htarget], ho⟩
  case cjmpz | cjmpnz =>
    rcases hn with ho | ⟨target, htarget, ho⟩
    · exact .inl ho
    · exact .inr ⟨target, by rw [← h.first ht (by decide) (by decide) (by decide), htarget], ho⟩
  case closure =>
    obtain ⟨n, hle, hn, ho⟩ := hn
    exact ⟨n, hle, by rw [← h.second ht (by decide) (by decide) (by decide), hn], ho⟩
  all_goals exact hn

end SameInstruction

/-! ### The verifier's step -/

section DepthStep

variable {bf : Bytefile} {o nxt : ℕ} {type : InstructionType}

/-- The offset `general_byterun` returns. -/
theorem generalByterun_next (h : generalByterun bf o = .ok (nxt, type)) :
    (type ≠ .closure → nxt = toU32 (o + fixedLength type)) ∧
      (type = .closure → ∃ n, bf.code32 (o + 1 + 4) = .ok n ∧ nxt = toU32 (o + 9 + 5 * n)) := by
  simp only [generalByterun, except_bind_ok] at h
  obtain ⟨t, -, h⟩ := h
  cases t
  case closure =>
    simp only [except_bind_ok, except_pure_ok, Prod.mk.injEq] at h
    obtain ⟨n, hn, rfl, rfl⟩ := h
    exact ⟨fun hne => absurd rfl hne, fun _ => ⟨n, hn, rfl⟩⟩
  case other => cases h
  all_goals
    simp only [except_pure_ok, Prod.mk.injEq] at h
    obtain ⟨rfl, rfl⟩ := h
    exact ⟨fun _ => rfl, fun hc => (nomatch hc)⟩

/-- An offset the handler goes to, or returns to, is a successor for the verifier. -/
theorem depthStep_next {d : ℤ} {v : ℕ} (hlt : (o : ℤ) < 2 ^ 31)
    (hbyte : generalByterun bf o = .ok (nxt, type)) (hnew : getNewStack bf (toU32 d) o type = .ok v)
    (hend : type ≠ .end) (hfail : type ≠ .fail)
    (hlabel : type = .call ∨ type = .cjmpz ∨ type = .cjmpnz → ∃ label, bf.code32 (o + 1) = .ok label)
    {o' : ℤ}
    (hnext : NextOffset bf o type o') : ∃ n : ℕ, o' = n ∧ DepthStep bf (o, d) (n, toI32 v) := by
  have hsucc : ∀ l, successorsOf bf o nxt type (toI32 v) = .ok l → successors bf o d = .ok l := by
    intro l hl
    simp only [successors, hbyte, hnew, except_ok_bind]
    exact hl
  obtain ⟨hfixed, hclosure⟩ := generalByterun_next hbyte
  have fall : o' = o + fixedLength type → type ≠ .closure → fixedLength type ≤ 9 → o' = nxt := by
    intro ho hne hlen
    rw [hfixed hne, ho]
    unfold toU32
    omega
  cases type
  case «end» => exact absurd rfl hend
  case fail => exact absurd rfl hfail
  case jmp =>
    obtain ⟨label, hl, rfl⟩ := hnext
    exact ⟨label, rfl, _, hsucc [(label, toI32 v)] (by rw [successorsOf, hl]; rfl), List.mem_cons_self⟩
  case cjmpz | cjmpnz =>
    obtain ⟨label, hl⟩ := hlabel (by simp)
    have hl' := hsucc [(label, toI32 v), (nxt, toI32 v)] (by rw [successorsOf, hl]; rfl)
    rcases hnext with ho | ⟨target, htarget, rfl⟩
    · exact ⟨nxt, fall ho (by decide) (by decide), _, hl', by simp⟩
    · rw [hl] at htarget
      cases htarget
      exact ⟨label, rfl, _, hl', by simp⟩
  case call =>
    obtain ⟨label, hl⟩ := hlabel (.inl rfl)
    exact ⟨nxt, fall hnext (by decide) (by decide), _,
      hsucc [(label, 0), (nxt, toI32 v)] (by rw [successorsOf, hl]; rfl), by simp⟩
  case closure =>
    obtain ⟨n, hle, hn, rfl⟩ := hnext
    obtain ⟨m, hm, hnxt⟩ := hclosure rfl
    rw [hn] at hm
    cases hm
    refine ⟨nxt, ?_, _, hsucc [(nxt, toI32 v)] rfl, List.mem_cons_self⟩
    rw [hnxt]
    unfold maxExtraRootsNumber at hle
    unfold toU32
    omega
  case other => cases hnew
  all_goals
    exact ⟨nxt, fall hnext (by decide) (by decide), _, hsucc [(nxt, toI32 v)] rfl, List.mem_cons_self⟩

/-- A call's target is a successor at depth 0. -/
theorem depthStep_call {d : ℤ} {v label : ℕ} (hbyte : generalByterun bf o = .ok (nxt, .call))
    (hnew : getNewStack bf (toU32 d) o .call = .ok v) (hlabel : bf.code32 (o + 1) = .ok label) :
    DepthStep bf (o, d) (label, 0) := by
  refine ⟨[(label, 0), (nxt, toI32 v)], ?_, List.mem_cons_self⟩
  simp only [successors, hbyte, hnew, successorsOf, hlabel, except_ok_bind]
  rfl

end DepthStep

/-! ### Counting -/

/-- At offset `o` the verifier counts at least `ops` operands, exactly `ops` when `exact`. -/
def Counted (bf : Bytefile) (exact : Prop) (o ops : ℤ) : Prop :=
  ∃ (n : ℕ) (d : ℤ), o = n ∧ DepthReach bf (n, d) ∧ ops ≤ d ∧ (exact → ops = d)

/-- Each suspended activation is counted at its return offset, with the operands it will have. -/
def Suspended (M : Machine) (bf : Bytefile) (exact : Prop) : List Activation → Prop
  | a :: c :: as => Counted bf exact (M.codeOffset a.ra) (c.floor - a.last + 1) ∧
      Suspended M bf exact (c :: as)
  | _ => True

/-- `e` is the entry of the closure that the CALLC at `code_ptr` calls. -/
def ClosureEntry (M : Machine) (s : State) (e : ℤ) : Prop :=
  At M s .callc ∧ ∃ (n : ℕ) (o : Obj) (w : Word), M.bf.code32 (s.codePtr + 1) = .ok n ∧
    s.heap (s.stack (s.top + 1 + n)) = some o ∧ o.elem 0 = some w ∧ e = unbox w

/-- The conditions under which a turn does what the verifier of `bf` foresees: the instruction stays
    inside its activation, was not overwritten, the index of an STA is an integer, a called closure
    enters where the verifier starts a function; and for an exact count it is no CALL_STRING. -/
structure Sound (bf : Bytefile) (M : Machine) (exact : Prop) (bound : ℤ) (s : State) : Prop where
  stays : Stays M bound s
  same : SameInstruction bf M.bf s.codePtr
  string : exact → ¬ At M s .callString
  sta : At M s .sta → integerIndex s = true
  entry : ∀ e, ClosureEntry M s e → ∃ n : ℕ, e = n ∧ DepthReach bf (n, 0)

section Counting

variable {bf : Bytefile} {M : Machine} {E : Env M} {exact : Prop}

/-- The depth after an instruction is at least the number of operands it leaves. -/
theorem depth_after {o cur : ℕ} {type : InstructionType} {i : Bool} {n l v : ℕ} {ops : ℤ}
    (hc : Complete bf o type) (heff : operandEffect bf o type i = .ok (n, l)) (hn : n ≤ ops)
    (hle : ops ≤ cur) (hsta : type = .sta → i = true) (hcur : cur < 2 ^ 31)
    (hnew : getNewStack bf cur o type = .ok v) (hv : 0 ≤ toI32 v) :
    ops - n + l ≤ toI32 v ∧ (type ≠ .callString → ops = cur → ops - n + l = toI32 v) := by
  by_cases hstring : type = .callString
  · subst hstring
    cases heff
    cases hnew
    have hv' : toI32 (toU32 (cur + 1)) = cur + 1 := by
      unfold toI32 toU32 at hv ⊢
      omega
    exact ⟨by omega, fun h => absurd rfl h⟩
  · rw [getNewStack_eq hc heff (by omega) (by omega) hstring hsta] at hnew
    cases hnew
    have hgrow := operandEffect_grow heff
    have hv' : toI32 (cur - n + l : ℕ) = (cur - n + l : ℕ) := by
      unfold toI32 at hv ⊢
      omega
    exact ⟨by omega, fun _ h => by omega⟩

/-- What a counted instruction tells about the offset control comes to next in its activation. -/
theorem Counted.next {visited : List ℤ} (hv : MarksExact bf visited) {s s' : State} {ended : Bool}
    {type : InstructionType} {ops : ℤ} (h : Counted bf exact s.codePtr ops)
    (hsame : SameInstruction bf M.bf s.codePtr) (hat : At M s type)
    (hd : dispatch E type s = .ok ended s') (hstring : exact → type ≠ .callString)
    (hsta : type = .sta → integerIndex s = true)
    (hneed : need M.bf s.codePtr type (integerIndex s) ≤ ops) (hend : type ≠ .end) {o' : ℤ}
    (hnext : NextOffset M.bf s.codePtr type o') :
    Counted bf exact o' (ops - need M.bf s.codePtr type (integerIndex s)
      + leaves M.bf s.codePtr type (integerIndex s)) := by
  obtain ⟨o, d, ho, hreach, hle, hexact⟩ := h
  have hat' : bf.typeAt o = .ok type := by rw [← ho, ← hsame.typeAt]; exact hat
  rw [ho] at hsame hneed hnext ⊢
  have hcomplete := complete_of_dispatch hd
  rw [ho] at hcomplete
  have hcomplete := hsame.complete hat' hcomplete
  obtain ⟨n, l, heff⟩ := operandEffect_of_complete (i := integerIndex s) hcomplete
  have heff' := hsame.operandEffect hat' (integerIndex s)
  obtain ⟨hn, hl⟩ := need_of_ok (heff'.trans heff)
  rw [hn] at hneed ⊢
  rw [hl]
  obtain ⟨nxt, type', v, hbyte, -, hnew, hpos⟩ := hv.passes _ hreach
  have htype : type = type' := by
    have hbyteAt := (generalByterun_typeAt hbyte).1
    rw [hat'] at hbyteAt
    exact Except.ok.inj hbyteAt
  subst htype
  obtain ⟨h0, hlt⟩ := hv.nonneg _ hreach
  have hoffset := hv.offset_lt hreach
  have hsize := bf.codeSize_lt
  obtain ⟨cur, rfl⟩ : ∃ cur : ℕ, d = cur := ⟨d.toNat, by omega⟩
  dsimp only at hlt hnew
  have hnew' := hnew
  rw [toU32_of_lt (by omega)] at hnew
  obtain ⟨hle', hexact'⟩ := depth_after hcomplete heff hneed hle hsta (by omega) hnew hpos
  have hlabel : type = .call ∨ type = .cjmpz ∨ type = .cjmpnz →
      ∃ label, bf.code32 (o + 1) = .ok label := by
    rintro (rfl | rfl | rfl)
    · obtain ⟨-, label, -, hlabel, -⟩ := call_ok hd
      exact ⟨label, by rw [← hsame.first hat' (by decide) (by decide) (by decide), ← ho, hlabel]⟩
    · obtain ⟨label, _, hargs, -⟩ := exec_bind_ok.mp (go_ok hd).2
      exact ⟨label, by rw [← hsame.first hat' (by decide) (by decide) (by decide), ← ho,
        (consumeArgs1_ok hargs).1]⟩
    · obtain ⟨label, _, hargs, -⟩ := exec_bind_ok.mp (go_ok hd).2
      exact ⟨label, by rw [← hsame.first hat' (by decide) (by decide) (by decide), ← ho,
        (consumeArgs1_ok hargs).1]⟩
  have hfail : type ≠ .fail := by
    rintro rfl
    exact hcomplete
  obtain ⟨m, hm, hstep⟩ := depthStep_next (by omega) hbyte hnew' hend hfail hlabel
    (hsame.nextOffset hat' hnext)
  exact ⟨m, _, hm, .step hreach hstep, hle', fun he => hexact' (hstring he) (hexact he)⟩

/-- The target of a call the verifier counts is counted at depth 0. -/
theorem Counted.target {visited : List ℤ} (hv : MarksExact bf visited) {s : State} {target : ℕ}
    {ops : ℤ} (h : Counted bf exact s.codePtr ops) (hsame : SameInstruction bf M.bf s.codePtr)
    (hat : At M s .call) (htarget : M.bf.code32 (s.codePtr + 1) = .ok target) :
    Counted bf exact target 0 := by
  obtain ⟨o, d, ho, hreach, -, -⟩ := h
  have hat' : bf.typeAt o = .ok .call := by rw [← ho, ← hsame.typeAt]; exact hat
  rw [ho] at hsame htarget
  rw [hsame.first hat' (by decide) (by decide) (by decide)] at htarget
  obtain ⟨nxt, type', v, hbyte, -, hnew, -⟩ := hv.passes _ hreach
  have htype : InstructionType.call = type' := by
    have hbyteAt := (generalByterun_typeAt hbyte).1
    rw [hat'] at hbyteAt
    exact Except.ok.inj hbyteAt
  subst htype
  exact ⟨target, 0, rfl, .step hreach (depthStep_call hbyte hnew htarget), Int.le_refl _, fun _ => rfl⟩

/-- The running activation and the suspended ones are counted. -/
def Counting (bf : Bytefile) (M : Machine) (exact : Prop) (B : Base) (s : State) : Prop :=
  ∃ a as, Chain M B [] [] (a :: as) s ∧ Counted bf exact s.codePtr s.operands ∧
    Suspended M bf exact (a :: as)

/-- A fresh activation holds no operands. -/
theorem Pushed.operands {s s' : State} {n isClosure : ℕ} {ra : Word} {entry : ℤ}
    (hp : Pushed M s n isClosure ra entry s') : s'.operands = 0 := by
  unfold State.operands State.floor State.reserved
  rw [hp.fp, hp.top, hp.activations]
  show s.top - 3 - ((0 : ℕ) : ℤ) - (s.top - 3) = 0
  omega

/-- What a suspended caller will hold when the callee it pushed a frame for returns. -/
theorem Chain.pushed_last {B : Base} {A : List Activation} {sizes : List ℤ} {a : Activation}
    {as : List Activation} {s : State} (h : Chain M B A sizes (a :: as) s) (n isClosure : ℕ) (ra : Word) :
    a.floor - (⟨s.top - 3, n, isClosure, ra, 0⟩ : Activation).last + 1 =
      s.operands - (n + isClosure : ℕ) + 1 := by
  rw [State.operands, h.floor_eq]
  unfold Activation.last
  dsimp only
  omega

theorem counting_step {visited : List ℤ} (hv : MarksExact bf visited) {B : Base} {bound : ℤ}
    (hmax : M.maxStack < 2 ^ 32) (hB : B.Valid M) (hnull : B.bottom.ra = 0) (hbound : B.floor ≤ bound)
    (hM : bound < M.maxStack) {s s' : State} (h : Counting bf M exact B s)
    (hg : Sound bf M exact bound s) (hstep : Step E s s') : Counting bf M exact B s' := by
  obtain ⟨a, as, hc, hcount, hsusp⟩ := h
  obtain ⟨hturned, -⟩ := (turn_chain hmax hB hbound hM hc hg.stays hstep).2 rfl
  have next : ∀ {type} o', At M s type → dispatch E type s = .ok false s' → type ≠ .end →
      NextOffset M.bf s.codePtr type o' →
      Counted bf exact o' (s.operands - need M.bf s.codePtr type (integerIndex s)
        + leaves M.bf s.codePtr type (integerIndex s)) := by
    intro type o' hat hd hend hnext
    exact hcount.next hv hg.same hat hd (fun he ht => hg.string he (ht ▸ hat))
      (fun ht => hg.sta (ht ▸ hat)) (hg.stays type hat).operands hend hnext
  have hframe : s.activations ≠ [] := by
    rw [hc.activations]
    exact List.cons_ne_nil _ _
  cases hturned with
  | plain hat hplain hd hc' =>
    rename_i type
    have hne : type ≠ .call ∧ type ≠ .callc ∧ type ≠ .end := by
      refine ⟨?_, ?_, ?_⟩ <;> rintro rfl <;> cases hplain
    obtain ⟨-, pc', hnext, -, -, hpc⟩ := (dispatch_plain E type hplain s).of_ok rfl hd
    refine ⟨a, as, hc', ?_, hsusp⟩
    rw [operands_of_dispatch hframe hne.1 hne.2.1 hne.2.2 hd, hpc]
    exact next _ hat hd hne.2.2 hnext
  | enter hat hbegin hd harg hn hroom hs' hc' =>
    rename_i type arg nLocals
    have hne : type ≠ .call ∧ type ≠ .callc ∧ type ≠ .end := by
      rcases hbegin with rfl | rfl <;> exact ⟨by decide, by decide, by decide⟩
    have hnext : NextOffset M.bf s.codePtr type s'.codePtr := by
      rw [hs']
      rcases hbegin with rfl | rfl <;> exact rfl
    refine ⟨_, as, hc', ?_, ?_⟩
    · rw [operands_of_dispatch hframe hne.1 hne.2.1 hne.2.2 hd]
      exact next _ hat hd hne.2.2 hnext
    · cases as with
      | nil => trivial
      | cons c as => exact ⟨hsusp.1, hsusp.2⟩
  | call hat hd htarget hn hp hback hc' =>
    rename_i target n
    have hret := next (s.codePtr + 9) hat hd (by decide) rfl
    have heff : operandEffect M.bf s.codePtr .call (integerIndex s) = .ok (n, 1) := by
      rw [operandEffect, hn]
      rfl
    obtain ⟨hneed, hleaves⟩ := need_of_ok heff
    rw [hneed, hleaves] at hret
    refine ⟨_, _, hc', ?_, ?_, hsusp⟩
    · rw [hp.codePtr, hp.operands]
      exact hcount.target hv hg.same hat htarget
    · rw [hback, hc.pushed_last]
      exact hret
  | callc hat hd hn hentry hp hback hc' =>
    rename_i n elem
    have hret := next (s.codePtr + 5) hat hd (by decide) rfl
    have heff : operandEffect M.bf s.codePtr .callc (integerIndex s) = .ok (n + 1, 1) := by
      rw [operandEffect, hn]
      rfl
    obtain ⟨hneed, hleaves⟩ := need_of_ok heff
    rw [hneed, hleaves] at hret
    refine ⟨_, _, hc', ?_, ?_, hsusp⟩
    · obtain ⟨o, ho, helem⟩ := hentry
      obtain ⟨e, he, hreach⟩ := hg.entry (unbox elem) ⟨hat, n, o, elem, hn, ho, helem, rfl⟩
      rw [hp.codePtr, hp.operands]
      exact ⟨e, 0, he, hreach, Int.le_refl _, fun _ => rfl⟩
    · rw [hback, hc.pushed_last]
      exact hret
  | leave hat hd hra hpc htop hstack hc' =>
    cases as with
    | nil =>
      obtain ⟨-, hsame, -⟩ := hc.linked
      exact absurd ((hsame rfl).2.2.2.trans hnull) hra
    | cons c as =>
      refine ⟨c, as, hc', ?_, hsusp.2⟩
      have hops : s'.operands = c.floor - a.last + 1 := by
        rw [State.operands, hc'.floor_eq, htop]
        omega
      rw [hpc, hops]
      exact hsusp.1

end Counting

/-! ### Runs -/

section Runs

variable {bf : Bytefile} {M : Machine} {E : Env M} {exact : Prop} {visited : List ℤ}

/-- In every run of sound turns the verifier counts at least the operands there are, and exactly
    those when `exact`. -/
theorem run_counted (hv : MarksExact bf visited) (hmax : M.maxStack < 2 ^ 32) {s₀ s : State}
    (hstart : Starts E s₀) (hmain : DepthStart bf (0, 0))
    (hrun : Run (Step E) (Sound bf M exact (s₀.fp + 3)) s₀ s) :
    Counted bf exact s.codePtr s.operands := by
  obtain ⟨B, hB, hfloor, hnull, a₀, hc₀⟩ := chain_of_starts hstart
  obtain ⟨_, s₁, hctor, hpush⟩ := exec_bind_ok.mp hstart
  have hp := pushStackFrame_ok hpush
  have hM := hB.floor_lt
  have hinit : Counting bf M exact B s₀ := by
    refine ⟨a₀, [], hc₀, ⟨0, 0, ?_, .start hmain, ?_, fun _ => ?_⟩, trivial⟩
    · rw [hp.codePtr]
      exact (frameStack_registers hctor).2.2.2
    · rw [hp.operands]
    · rw [hp.operands]
  obtain ⟨a, as, -, hcount, -⟩ := Run.invariant (I := Counting bf M exact B)
    (fun u v hu hg huv => counting_step hv hmax hB hnull (by omega) (by omega) hu hg huv) hinit hrun
  exact hcount

/-- The verifier's table agrees with every state of every run whose turns are all sound: each executed
    offset is marked with the number of operands of the current frame. The run is one of any file that
    reads the same at the offsets executed, such as the one `verify` makes of `bf`; that the second pass
    accepts it is not needed. -/
theorem depths_sound (bf : Bytefile) (visited : List ℤ) (hmarks : collectMarks bf = .ok visited)
    (M : Machine) (hstack : M.maxStack = stackSize) (hmain : DepthStart bf (0, 0)) (E : Env M)
    (s₀ s : State) (hstart : Starts E s₀)
    (hrun : Run (Step E) (Sound bf M True (s₀.fp + 3)) s₀ s) :
    ∃ o : ℕ, s.codePtr = o ∧ visited[o]? = some s.operands ∧ s.operands ≠ -1 := by
  have hv : MarksExact bf visited := collectMarksBy_ok List.Perm.refl
    (show collectMarksBy id bf = .ok visited from hmarks)
  have hmax : M.maxStack < 2 ^ 32 := by rw [hstack]; decide
  obtain ⟨o, d, ho, hreach, -, hexact⟩ := run_counted hv hmax hstart hmain hrun
  obtain ⟨hget, hne⟩ := (hv.marked o d).mpr hreach
  rw [hexact trivial]
  exact ⟨o, ho, hget, hne⟩

end Runs

/-- `main` makes a closure of a function that returns 7, and calls it. -/
def closureFile : Bytefile := .ofMain 0
  [0x52, 0, 0, 0, 0, 0, 0, 0, 0, 0x54, 24, 0, 0, 0, 0, 0, 0, 0, 0x55, 0, 0, 0, 0, 0x16,
    0x53, 0, 0, 0, 0, 0, 0, 0, 0, 0x10, 7, 0, 0, 0, 0x16, 0xFF]

def closureVerified : Bytefile :=
  closureFile.withBytes (closureFile.bytes.set 28 1)

def closureMachine : Machine := Machine.layout closureVerified stackSize (by decide) stackSize_le

def closureEnv : Env closureMachine :=
  Env.bump closureMachine fun k => BitVec.ofNat 64 (2 ^ 50 + 64 * k)

/-- The state of `closureFile` after `n` turns. -/
def closureState : ℕ → State
  | 0 => startState closureEnv
  | n + 1 => nextState closureEnv (closureState n)

/-- The depths of `closureFile`; the closure is not marked. -/
def closureMarks : List ℤ :=
  [0, -1, -1, -1, -1, -1, -1, -1, -1, 0, -1, -1, -1, -1, -1, -1, -1, -1, 1, -1, -1, -1, -1, 1,
    -1, -1, -1, -1, -1, -1, -1, -1, -1, -1, -1, -1, -1, -1, -1, -1]

/-- The accepted file executes the closure, which the verifier has not looked at. -/
theorem closure_unmarked :
    verify 20 closureFile = .ok closureVerified ∧ collectMarks closureFile = .ok closureMarks ∧
      Starts closureEnv (closureState 0) ∧
      (∀ n < 3, Step closureEnv (closureState n) (closureState (n + 1))) ∧
      (closureState 3).codePtr = 24 ∧ closureMarks[24]? = some (-1) := by
  refine ⟨by decide +kernel, by decide +kernel, starts_startState closureEnv (by decide +kernel),
    fun n hn => turn_nextState closureEnv ?_, by decide +kernel, rfl⟩
  have hall : ∀ n < 3, turnResult closureEnv (closureState n) = some false := by decide +kernel
  exact hall n hn

/-- `main` passes 7 to a function that returns it, adds it to 5 and jumps to its END. -/
def depthsFile : Bytefile := .ofMain 0
  [0x52, 0, 0, 0, 0, 0, 0, 0, 0, 0x10, 5, 0, 0, 0, 0x10, 7, 0, 0, 0, 0x56, 46, 0, 0, 0, 1, 0, 0, 0,
    0x01, 0x10, 0, 0, 0, 0, 0x50, 45, 0, 0, 0, 0x10, 9, 0, 0, 0, 0x18, 0x16,
    0x52, 1, 0, 0, 0, 0, 0, 0, 0, 0x22, 0, 0, 0, 0, 0x16, 0xFF]

def depthsVerified : Bytefile :=
  depthsFile.withBytes ((depthsFile.bytes.set 28 2).set 74 1)

def depthsMachine : Machine := Machine.layout depthsVerified stackSize (by decide) stackSize_le

def depthsEnv : Env depthsMachine := Env.bump depthsMachine fun k => BitVec.ofNat 64 (2 ^ 50 + 64 * k)

/-- The state of `depthsFile` after `n` turns. -/
def depthsState : ℕ → State
  | 0 => startState depthsEnv
  | n + 1 => nextState depthsEnv (depthsState n)

/-- The depths of `depthsFile`. -/
def depthsMarks : List ℤ :=
  [0, -1, -1, -1, -1, -1, -1, -1, -1, 0, -1, -1, -1, -1, 1, -1, -1, -1, -1, 2, -1, -1, -1, -1, -1, -1, -1, -1,
    2, 1, -1, -1, -1, -1, 2, -1, -1, -1, -1, 1, -1, -1, -1, -1, 2, 1,
    0, -1, -1, -1, -1, -1, -1, -1, -1, 0, -1, -1, -1, -1, 1, -1]

/-- At its last END `main` of the accepted file holds one operand, as marked. -/
theorem depths_sound_depthsFile : verify 40 depthsFile = .ok depthsMachine.bf ∧
    ∃ o : ℕ, (depthsState 10).codePtr = o ∧ depthsMarks[o]? = some (depthsState 10).operands ∧
      (depthsState 10).operands ≠ -1 := by
  have htrace : ∀ n < 10, turnResult depthsEnv (depthsState n) = some false ∧
      Stays depthsMachine ((depthsState 0).fp + 3) (depthsState n) ∧
      SameInstruction depthsFile depthsMachine.bf (depthsState n).codePtr ∧
      ¬ At depthsMachine (depthsState n) .callString ∧ ¬ At depthsMachine (depthsState n) .sta ∧
      ¬ At depthsMachine (depthsState n) .callc := by decide +kernel
  have hstep : ∀ n < 10, Sound depthsFile depthsMachine True ((depthsState 0).fp + 3) (depthsState n) ∧
      Step depthsEnv (depthsState n) (depthsState (n + 1)) := by
    intro n hn
    obtain ⟨hturn, hstays, hsame, hstring, hsta, hcallc⟩ := htrace n hn
    exact ⟨⟨hstays, hsame, fun _ => hstring, fun hat => absurd hat hsta, fun e he => absurd he.1 hcallc⟩,
      turn_nextState depthsEnv hturn⟩
  have hmarks : collectMarks depthsFile = .ok depthsMarks := by decide +kernel
  refine ⟨by decide +kernel, ?_⟩
  exact depths_sound depthsFile depthsMarks hmarks depthsMachine rfl
    ⟨rfl, 0, by decide, by decide, by decide⟩ depthsEnv (depthsState 0) (depthsState 10)
    (starts_startState depthsEnv (by decide +kernel)) (Run.of_turns hstep)

end LamaSM
