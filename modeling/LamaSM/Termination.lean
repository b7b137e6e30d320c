import LamaSM.Marks
import LamaSM.Sweeps
import LamaSM.Lib.Runs

/-! The loops of `verify` end, unless a CLOSURE leads backwards.

    `collect_marks` handles an offset once: what it handles next was on the queue, each offset once,
    or was not marked yet (`handledOffsets_nodup`). The second pass moves forward at every
    instruction but a CLOSURE, whose length is narrowed to `uint32_t`: `Forward` is the condition on
    its capture count under which it does so too. -/

namespace LamaSM
open Lib

/-! ### The offsets `collect_marks` handles -/

/-- The offsets the loops of `collect_marks` handle in `fuel` turns, in their order. -/
def handledOffsets (pick : List ℕ → List ℕ) (bf : Bytefile) : ℕ → Marks → Option (ℕ × ℤ) → List ℕ
  | 0, _, _ => []
  | fuel + 1, m, some (symbolOffset, curStack) =>
    symbolOffset :: match visitInstruction bf symbolOffset curStack m with
      | .error _ => []
      | .ok (m, cur) => handledOffsets pick bf fuel m cur
  | fuel + 1, m, none =>
    match pick m.labels with
    | [] => []
    | symbolOffset :: rest =>
      match m.visited[symbolOffset]? with
      | none => []
      | some curStack =>
        handledOffsets pick bf fuel { m with labels := rest } (some (symbolOffset, curStack))

/-- The offsets `collect_marks` handles in `fuel` turns of its loops. -/
def collectHandled (fuel : ℕ) (bf : Bytefile) : List ℕ :=
  if bf.codeSize < 0 then []
  else match seedMarks bf (List.range bf.publicSymbolsNumber.toNat) (noMarks bf) with
    | .error _ => []
    | .ok m => handledOffsets id bf fuel m none

/-- The offsets on the queue and the one handled next. -/
def queued (m : Marks) (cur : Option (ℕ × ℤ)) : List ℕ := m.labels ++ cur.toList.map Prod.fst

section Handled

variable {bf : Bytefile} {pick : List ℕ → List ℕ}

theorem Marked.not_unmarked {m : Marks} {o : ℕ} {d : ℤ} (h : Marked m (o, d)) :
    m.visited[o]? ≠ some (-1) := by
  intro hget
  rw [show m.visited[o]? = some d from h.1] at hget
  exact h.2 (Option.some.inj hget)

/-- What was not marked after a turn was not marked before. -/
theorem Marking.unmarked {m m' : Marks} {cur : Option (ℕ × ℤ)} {l : List (ℕ × ℤ)} {x : ℕ}
    (h : Marking m m' cur l) (hx : m'.visited[x]? = some (-1)) : m.visited[x]? = some (-1) := by
  obtain ⟨hlt, -⟩ := List.getElem?_eq_some_iff.mp hx
  rw [h.length] at hlt
  have hget := List.getElem?_eq_getElem hlt
  by_contra hne
  have hmarked : Marked m (x, m.visited[x]) := ⟨hget, fun hd => hne (by rw [hget]; exact congrArg some hd)⟩
  exact (h.keeps _ hmarked).not_unmarked hx

/-- The loops handle each offset once: those that wait, and then only offsets not marked yet. -/
theorem handledOffsets_nodup (hpick : ∀ l, (pick l).Perm l) :
    ∀ (fuel : ℕ) (m : Marks) (cur : Option (ℕ × ℤ)), MarksInv bf m cur → (queued m cur).Nodup →
      (handledOffsets pick bf fuel m cur).Nodup ∧
        ∀ x ∈ handledOffsets pick bf fuel m cur, x ∈ queued m cur ∨ m.visited[x]? = some (-1)
  | 0, _, _, _, _ => ⟨List.nodup_nil, fun _ hx => (nomatch hx)⟩
  | fuel + 1, m, some (o, d), hinv, hq => by
    have hmarked : Marked m (o, d) := hinv.cur_marked _ rfl
    have ho : o ∉ m.labels := fun hmem => (List.nodup_append.mp hq).2.2 o hmem o (by simp) rfl
    have hself : o ∈ queued m (some (o, d)) := by simp [queued]
    rw [handledOffsets]
    cases hv : visitInstruction bf o d m with
    | error e => exact ⟨by simp, fun x hx => .inl (by rw [List.mem_singleton.mp hx]; exact hself)⟩
    | ok next =>
      obtain ⟨m', cur⟩ := next
      obtain ⟨-, l, -, hm⟩ := visit_ok hinv.bounded hv
      obtain ⟨new, hnew, hnodup, hfresh⟩ := hm.fresh
      have hq' : (queued m' cur).Nodup := by
        rw [queued, hnew]
        refine List.nodup_append.mpr ⟨(List.nodup_append.mp hq).1, hnodup, ?_⟩
        rintro x hx _ hx' rfl
        obtain ⟨v, hv⟩ := hinv.labels x hx
        exact hv.not_unmarked (hfresh x hx').1
      obtain ⟨hrest, honly⟩ := handledOffsets_nodup hpick fuel m' cur (hinv.visit hv).1 hq'
      -- what is handled later was on the queue already or is new
      have hlater : ∀ x ∈ handledOffsets pick bf fuel m' cur,
          x ∈ m.labels ∨ m.visited[x]? = some (-1) := by
        intro x hx
        rcases honly x hx with hx | hx
        · rw [queued, hnew] at hx
          exact (List.mem_append.mp hx).imp id fun hx => (hfresh x hx).1
        · exact .inr (hm.unmarked hx)
      refine ⟨List.nodup_cons.mpr ⟨fun hx => ?_, hrest⟩, fun x hx => ?_⟩
      · exact (hlater o hx).elim ho hmarked.not_unmarked
      · rcases List.mem_cons.mp hx with rfl | hx
        · exact .inl hself
        · exact (hlater x hx).imp (List.mem_append_left _) id
  | fuel + 1, m, none, hinv, hq => by
    rw [handledOffsets]
    split
    · exact ⟨List.nodup_nil, fun _ hx => (nomatch hx)⟩
    · rename_i o rest hcons
      have hperm : (o :: rest).Perm m.labels := hcons ▸ hpick m.labels
      split
      · exact ⟨List.nodup_nil, fun _ hx => (nomatch hx)⟩
      · rename_i d hd
        have hqueue : (queued { m with labels := rest } (some (o, d))).Perm (queued m none) := by
          have hmove : (rest ++ [o]).Perm (o :: rest) := List.perm_append_singleton o rest
          simpa [queued] using hmove.trans hperm
        obtain ⟨hrest, honly⟩ := handledOffsets_nodup hpick fuel _ _ (hinv.pop hperm hd).1
          (hqueue.nodup_iff.mpr hq)
        exact ⟨hrest, fun x hx => (honly x hx).imp hqueue.mem_iff.mp id⟩

/-- After the first loop no offset is twice on the queue. -/
theorem seedMarks_queued {m : Marks}
    (h : seedMarks bf (List.range bf.publicSymbolsNumber.toNat) (noMarks bf) = .ok m) :
    (queued m none).Nodup := by
  obtain ⟨l, hm, -⟩ := seedMarks_ok _ _ bounded_noMarks
    (fun a ha => absurd ha (not_marked_noMarks a)) h
  obtain ⟨new, hnew, hnodup, -⟩ := hm.fresh
  rw [queued, hnew]
  exact hnodup

theorem collectHandled_nodup (fuel : ℕ) : (collectHandled fuel bf).Nodup := by
  unfold collectHandled
  split
  · exact List.nodup_nil
  · split
    · exact List.nodup_nil
    · rename_i hsize _ m hm
      exact (handledOffsets_nodup List.Perm.refl fuel m none (seedMarks_inv (by omega) hm).1
        (seedMarks_queued hm)).1

end Handled

/-! ### The second pass -/

/-- The second pass decodes the instruction at this offset: the code has not ended there. -/
structure AtInstruction (bf : Bytefile) (o : ℕ) : Prop where
  lt : o < toU32 bf.codeSize
  byte : ∃ b, bf.code o = .ok b ∧ b ≠ 0xFF

/-- The loop of the second pass goes on at this state. -/
def InLoop (st : Sweep) : Prop := AtInstruction st.bf st.symbolOffset

/-- A turn of the second pass. -/
def SweepStep (visited : List ℤ) (st st' : Sweep) : Prop := sweepInstruction visited st = .ok st'

/-- The second pass comes to this state and goes on there. -/
def SweepReaches (bf : Bytefile) (st : Sweep) : Prop :=
  ∃ visited, collectMarks bf = .ok visited ∧
    Run (SweepStep visited) InLoop ⟨bf, 0, 0, []⟩ st ∧ InLoop st

/-- A CLOSURE at this state does not lead backwards: its length, narrowed together with the sum to
    `uint32_t`, does not wrap around to its own offset or one before. -/
def Forward (st : Sweep) : Prop :=
  st.bf.typeAt st.symbolOffset = .ok .closure →
    ∀ n, st.bf.code32 (st.symbolOffset + 1 + 4) = .ok n →
      st.symbolOffset < (st.symbolOffset + 9 + 5 * n) % 2 ^ 32

section Sweep

variable {st st' : Sweep} {visited : List ℤ}

/-- A turn of the loop. -/
theorem sweepLoop_step (fuel : ℕ) (hin : InLoop st) (h : SweepStep visited st st') :
    sweepLoop visited (fuel + 1) st = sweepLoop visited fuel st' := by
  obtain ⟨b, hb, hopen⟩ := hin.byte
  rw [sweepLoop, if_neg (Nat.not_le.mpr hin.lt), hb, except_ok_bind, if_neg hopen,
    show sweepInstruction visited st = .ok st' from h, except_ok_bind]

/-- A pass that returns has stopped at once, or made a turn and gone on. -/
theorem sweepLoop_ok {fuel : ℕ} (h : sweepLoop visited (fuel + 1) st = .ok st') :
    ¬ InLoop st ∧ st' = st ∨
      InLoop st ∧ ∃ u, SweepStep visited st u ∧ sweepLoop visited fuel u = .ok st' := by
  rw [sweepLoop] at h
  split at h
  · rename_i hend
    exact .inl ⟨fun hin => absurd hin.lt (Nat.not_lt.mpr hend), (except_pure_ok.mp h).symm⟩
  · rename_i hlt
    obtain ⟨b, hb, h⟩ := except_bind_ok.mp h
    split at h
    · rename_i hclosed
      refine .inl ⟨fun hin => ?_, (except_pure_ok.mp h).symm⟩
      obtain ⟨b', hb', hopen⟩ := hin.byte
      rw [hb] at hb'
      cases hb'
      exact hopen hclosed
    · rename_i hopen
      exact .inr ⟨⟨Nat.not_le.mp hlt, b, hb, hopen⟩, except_bind_ok.mp h⟩

/-- An instruction leads forward, a CLOSURE when its length does not wrap around. -/
theorem generalByterun_lt {nxt : ℕ} {type : InstructionType} (hlt : st.symbolOffset < 2 ^ 31)
    (hf : Forward st) (h : generalByterun st.bf st.symbolOffset = .ok (nxt, type)) :
    st.symbolOffset < nxt := by
  have htype := (generalByterun_typeAt h).1
  simp only [generalByterun, htype, except_ok_bind] at h
  cases type
  case closure =>
    obtain ⟨n, hn, h⟩ := except_bind_ok.mp h
    have hnext := (Prod.mk.inj (except_pure_ok.mp h)).1
    have hwrap := hf htype n hn
    rw [← hnext]
    unfold toU32
    omega
  case other => simp at h
  all_goals
    have hnext := (Prod.mk.inj (except_pure_ok.mp h)).1
    rw [← hnext]
    unfold toU32
    omega

theorem sweepStep_codeSize (h : SweepStep visited st st') : st'.bf.codeSize = st.bf.codeSize := by
  obtain ⟨nxt, type, -, v, -, ⟨-, rfl⟩ | ⟨-, u, hu, rfl⟩⟩ := sweepInstruction_ok h
  · rfl
  · show u.bf.codeSize = st.bf.codeSize
    rcases (sweepChecks_ok hu).bf with hbf | ⟨b, -, w, -, hbf⟩
    · rw [hbf]
    · rw [hbf]
      rfl

/-- A pass that only moves forward ends within as many turns as there are offsets left. -/
theorem sweepLoop_noTimeout {fuel : ℕ} (hsize : 0 ≤ st.bf.codeSize)
    (hforward : ∀ u, Run (SweepStep visited) InLoop st u → InLoop u → Forward u) (hpos : 0 < fuel)
    (hfuel : st.bf.codeSize.toNat < fuel + st.symbolOffset) :
    NoTimeout (sweepLoop visited fuel st) := by
  induction fuel generalizing st with
  | zero => exact absurd hpos (Nat.lt_irrefl 0)
  | succ fuel ih =>
    have hbound := st.bf.codeSize_lt
    have hunsigned : toU32 st.bf.codeSize = st.bf.codeSize.toNat := by
      unfold toU32
      omega
    rw [sweepLoop]
    split
    · exact noTimeout_pure _
    · rename_i hlt
      rw [hunsigned] at hlt
      refine noTimeout_bind_ok (noTimeout_byte _ _) fun b hb => ?_
      split
      · exact noTimeout_pure _
      · rename_i hopen
        have hin : InLoop st := ⟨by omega, b, hb, hopen⟩
        refine noTimeout_bind_ok (noTimeout_sweepInstruction visited st) fun u hstep => ?_
        obtain ⟨nxt, type, hgen, v, -, hmove⟩ := sweepInstruction_ok hstep
        have hnext : u.symbolOffset = nxt := by
          obtain ⟨-, rfl⟩ | ⟨-, w, -, rfl⟩ := hmove <;> rfl
        have hcode := sweepStep_codeSize hstep
        have hmoved := generalByterun_lt (by omega) (hforward st (Run.refl st) hin) hgen
        exact ih (by omega) (fun w hw => hforward w ((Run.single hin hstep).trans hw)) (by omega)
          (by omega)

end Sweep

/-! ### Termination -/

/-- `verify` terminates: `collect_marks` handles each offset at most once and ends, the second pass
    moves forward at every instruction it comes to and ends. -/
structure Terminates (bf : Bytefile) : Prop where
  once : ∀ fuel, (collectHandled fuel bf).Nodup
  marks : NoTimeout (collectMarks bf)
  ascends : ∀ st, SweepReaches bf st → ∀ nxt type,
    generalByterun st.bf st.symbolOffset = .ok (nxt, type) → st.symbolOffset < nxt
  ends : ∀ fuel, bf.codeSize.toNat < fuel → NoTimeout (verify fuel bf)

/-- `verify` terminates exactly when no CLOSURE its second pass comes to leads backwards. -/
theorem terminates_iff (bf : Bytefile) : Terminates bf ↔ ∀ st, SweepReaches bf st → Forward st := by
  constructor
  · intro h st hst htype n hn
    have hgen : generalByterun st.bf st.symbolOffset =
        .ok (toU32 (st.symbolOffset + 1 + 2 * 4 + (1 + 4) * n), .closure) := by
      rw [generalByterun, htype, except_ok_bind]
      dsimp only
      rw [hn]
      rfl
    have hlt := h.ascends st hst _ _ hgen
    unfold toU32 at hlt
    omega
  · intro hforward
    have hmarks : NoTimeout (collectMarks bf) := collectMarksBy_noTimeout List.Perm.refl
    -- the code size is a non-negative int in every state the pass comes to
    have hsize : ∀ visited, collectMarks bf = .ok visited → 0 ≤ bf.codeSize := by
      intro visited hv
      have := (collectMarksBy_ok List.Perm.refl hv).length
      omega
    refine ⟨collectHandled_nodup, hmarks, ?_, fun fuel hfuel => ?_⟩
    · intro st hst nxt type hgen
      obtain ⟨visited, hv, hrun, hin⟩ := id hst
      have hcode : st.bf.codeSize = bf.codeSize :=
        Run.invariant (I := fun u : Sweep => u.bf.codeSize = bf.codeSize)
          (fun _ _ hu _ hs => (sweepStep_codeSize hs).trans hu) rfl hrun
      have hlt := hin.lt
      have hbound := bf.codeSize_lt
      have h0 := hsize visited hv
      rw [hcode] at hlt
      refine generalByterun_lt ?_ (hforward st hst) hgen
      unfold toU32 at hlt
      omega
    · refine noTimeout_bind_ok hmarks fun visited hv => ?_
      exact noTimeout_bind (sweepLoop_noTimeout (hsize visited hv)
        (fun u hu hin => hforward u ⟨visited, hv, hu, hin⟩) (by omega) hfuel) fun _ => noTimeout_pure _

/-- A function that ends at once, and behind it a CLOSURE nothing jumps to, whose capture count
    0xCCCCCCCB makes its length `2 ^ 34`. -/
def wrapFile : Bytefile := .ofMain 0
  [0x52, 0, 0, 0, 0, 0, 0, 0, 0, 0x16, 0x54, 0, 0, 0, 0, 0xCB, 0xCC, 0xCC, 0xCC, 0xFF]

/-- The depths of `wrapFile`. -/
def wrapVisited : List ℤ := 0 :: List.replicate 8 (-1) ++ 0 :: List.replicate 10 (-1)

/-- The state of the second pass at the CLOSURE, after the function was closed. -/
def wrapSweep : Sweep := ⟨wrapFile.setCode16 3 0, 10, -1, []⟩

theorem collectMarks_wrapFile : collectMarks wrapFile = .ok wrapVisited := by
  decide

/-- At the CLOSURE the second pass stays where it is. -/
theorem sweepLoop_wrapSweep (fuel : ℕ) : sweepLoop wrapVisited fuel wrapSweep = .error .timeout := by
  have hin : InLoop wrapSweep := ⟨by decide, 0x54, by decide, by decide⟩
  have hgen : generalByterun wrapSweep.bf wrapSweep.symbolOffset = .ok (10, .closure) := by
    decide
  have hstay : SweepStep wrapVisited wrapSweep wrapSweep := by
    rw [SweepStep, sweepInstruction, hgen]
    rfl
  induction fuel with
  | zero => rfl
  | succ fuel ih => rw [sweepLoop_step fuel hin hstay, ih]

/-- The two turns before it. -/
theorem sweepLoop_wrapFile (fuel : ℕ) : sweepLoop wrapVisited (fuel + 2) ⟨wrapFile, 0, 0, []⟩ =
    sweepLoop wrapVisited fuel wrapSweep := by
  have hbegin : SweepStep wrapVisited ⟨wrapFile, 0, 0, []⟩ ⟨wrapFile, 9, 0, [0]⟩ := by
    have hgen : generalByterun wrapFile 0 = .ok (9, .begin) := by decide
    rw [SweepStep, sweepInstruction, hgen]
    rfl
  have hend : SweepStep wrapVisited ⟨wrapFile, 9, 0, [0]⟩ wrapSweep := by
    have hgen : generalByterun wrapFile 9 = .ok (10, .end) := by decide
    rw [SweepStep, sweepInstruction, hgen]
    rfl
  rw [sweepLoop_step _ ⟨by decide, 0x52, by decide, by decide⟩ hbegin,
    sweepLoop_step _ ⟨by decide, 0x16, by decide, by decide⟩ hend]

theorem verify_wrapFile : (∀ fuel, verify fuel wrapFile = .error .timeout) ∧ ¬ Terminates wrapFile := by
  have hnever : ∀ fuel, verify fuel wrapFile = .error .timeout := by
    intro fuel
    rw [verify, collectMarks_wrapFile, except_ok_bind]
    cases fuel with
    | zero => decide
    | succ fuel =>
      cases fuel with
      | zero => decide
      | succ fuel => rw [sweepLoop_wrapFile, sweepLoop_wrapSweep]; rfl
  refine ⟨hnever, fun h => ?_⟩
  exact h.ends (wrapFile.codeSize.toNat + 1) (Nat.lt_succ_self _) (hnever _)

end LamaSM
