import LamaSM.Leaders
import LamaSM.Sweeps
import Mathlib.Data.List.Nodup
import Mathlib.Data.List.Perm.Basic

/-! What the traversal of `analyze` records: every reachable instruction once, and once every pair of
    instructions control can fall through within a block.

    `Traversing` is the invariant of the loop. What bit 1 marks is recorded already, waits on the
    queue or is the next instruction, each at one place. An instruction recorded without being a
    leader was run into from the one that ends there, which is recorded before it; so each pair is
    recorded with its second instruction, and only then. -/

namespace LamaSM

namespace Analyzer
open Lib

/-- The records of the analyzer are the right ones. -/
structure Records (bf : Bytefile) (a : Analyzer) : Prop where
  single_once : a.collectSingle.Nodup
  single : ∀ o, o ∈ a.collectSingle ↔ Reachable bf o
  pairs_once : a.collectPairs.Nodup
  pairs : ∀ o, o ∈ a.collectPairs ↔ Reachable bf o ∧ ∃ c, Falls bf o c ∧ ¬ Leader bf c

/-- Two analyzers with the right records have the same ones, up to their order. -/
theorem Records.perm {bf : Bytefile} {a a' : Analyzer} (h : Records bf a) (h' : Records bf a') :
    a.collectSingle.Perm a'.collectSingle ∧ a.collectPairs.Perm a'.collectPairs := by
  constructor
  · rw [List.perm_ext_iff_of_nodup h.single_once h'.single_once]
    exact fun o => (h.single o).trans (h'.single o).symm
  · rw [List.perm_ext_iff_of_nodup h.pairs_once h'.pairs_once]
    exact fun o => (h.pairs o).trans (h'.pairs o).symm

/-- The turns the traversal can still make. -/
def labelTurns (a : Analyzer) (cur : Option ℕ) : ℕ :=
  2 * unflagged 1 a.visited + 2 * a.labels.length + cur.toList.length

/-- The offsets the traversal has met, at the place each of them is. -/
def met (a : Analyzer) (cur : Option ℕ) : List ℕ := a.collectSingle ++ a.labels ++ cur.toList

/-- The invariant of the traversal, with `cur` the instruction it goes on to and the successors of
    `active` still to be looked at. -/
structure Traversing (bf : Bytefile) (active : List ℕ) (cur : Option ℕ) (a : Analyzer) : Prop where
  length : a.visited.length = bf.codeSize.toNat
  leaders : ∀ o, Flag a.visited 2 o ↔ Leader bf o
  reached : WorklistInv (Public bf) (FlowEdge bf) (fun o => bf.code o ≠ .ok 0xFF) (Flag a.visited 1)
    (fun o => o ∈ a.labels ∨ o ∈ active)
  once : (met a cur).Nodup
  members : ∀ o, o ∈ met a cur ↔ Flag a.visited 1 o
  labels_lead : ∀ o ∈ a.labels, Leader bf o
  entry : ∀ c, cur = some c →
    Leader bf c ∨ ∃ p, a.prev = some p ∧ p ∈ a.collectSingle ∧ Falls bf p c
  entered : ∀ o ∈ a.collectSingle, Leader bf o ∨ ∃ p ∈ a.collectSingle, Falls bf p o
  pairs_once : a.collectPairs.Nodup
  pairs : ∀ o, o ∈ a.collectPairs ↔
    o ∈ a.collectSingle ∧ ∃ c ∈ a.collectSingle, Falls bf o c ∧ ¬ Leader bf c

section Traversal

variable {bf : Bytefile} {active : List ℕ} {cur : Option ℕ} {a : Analyzer} {c o : ℕ}

theorem Traversing.swept (ht : Traversing bf active cur a) (h : o ∈ met a cur) : Swept bf o :=
  Reachable.swept (ht.reached.reach o ((ht.members o).mp h))

/-- Marking an offset with bit 1 leaves the leaders. -/
theorem Traversing.leaders_set (ht : Traversing bf active cur a) {v : ℕ}
    (hv : a.visited[o]? = some v) (x : ℕ) :
    Flag (a.visited.set o (v ||| 1)) 2 x ↔ Leader bf x := by
  rw [flag_set hv, ht.leaders]
  simp

/-- What bit 1 marks after one more offset is marked. -/
theorem flag_one_set {visited : List ℕ} {v x : ℕ} (hv : visited[o]? = some v) :
    Flag (visited.set o (v ||| 1)) 1 x ↔ Flag visited 1 x ∨ x = o := by
  rw [flag_set hv]
  simp

/-- `check_label` on a leader that can be reached. -/
theorem Traversing.checkLabel (ht : Traversing bf active none a) (hlt : o < a.visited.length)
    (hlead : Leader bf o) (hreach : Reachable bf o) :
    ∃ a', a.checkLabel o = .ok a' ∧ Traversing bf active none a' ∧ Flag a'.visited 1 o ∧
      FlagsLE a.visited a'.visited ∧ labelTurns a' none ≤ labelTurns a none ∧
      a'.prev = a.prev ∧ a'.collectSingle = a.collectSingle := by
  have hv := List.getElem?_eq_getElem hlt
  rw [Analyzer.checkLabel, visitedAt_eq hv, except_ok_bind]
  by_cases hbit : a.visited[o] &&& 1 = 0
  · rw [if_pos hbit]
    have hfree : ¬ Flag a.visited 1 o := (not_flag_of_getElem? hv).mpr hbit
    let a' : Analyzer :=
      { a with
        labels := a.labels ++ [o]
        visited := a.visited.set o (a.visited[o] ||| 1) }
    have hmet : ∀ x, x ∈ met a' none ↔ x ∈ met a none ∨ x = o := by
      simp [met, a', or_assoc]
    refine ⟨a', rfl, ?_, (flag_one_set hv).mpr (.inr rfl), flagsLE_set hv, ?_, rfl, rfl⟩
    · refine { ht with
        length := List.length_set.trans ht.length
        leaders := ht.leaders_set hv
        reached := ?_
        once := ?_
        members := fun x => by rw [hmet, ht.members, flag_one_set hv]
        labels_lead := ?_
        entry := fun _ h => nomatch h }
      · refine ht.reached.mark (fun x hx => (flag_one_set hv).mpr (.inl hx)) (fun x hx => ?_)
          (fun x hx => hx.imp (List.mem_append_left _) id) (fun x hx => (flag_one_set hv).mpr ?_)
        · rcases (flag_one_set hv).mp hx with hx | rfl
          · exact .inl hx
          · exact .inr ⟨hreach, .inl (List.mem_append_right _ (List.mem_singleton.mpr rfl))⟩
        · rcases hx with hx | hx
          · rcases List.mem_append.mp hx with hx | hx
            · exact .inl (ht.reached.pending_marked x (.inl hx))
            · exact .inr (List.mem_singleton.mp hx)
          · exact .inl (ht.reached.pending_marked x (.inr hx))
      · have hnew : o ∉ met a none := fun h => hfree ((ht.members o).mp h)
        have honce := ht.once
        simp only [met, Option.toList_none, List.append_nil] at hnew honce
        show (a.collectSingle ++ (a.labels ++ [o]) ++ []).Nodup
        rw [List.append_nil, ← List.append_assoc]
        refine honce.append (List.nodup_singleton o) ?_
        simpa using hnew
      · intro x hx
        rcases List.mem_append.mp hx with hx | hx
        · exact ht.labels_lead x hx
        · exact List.mem_singleton.mp hx ▸ hlead
    · have hless := unflagged_set 1 hv hbit (by decide)
      show 2 * unflagged 1 (a.visited.set o _) + 2 * (a.labels ++ [o]).length + 0 ≤ _
      rw [labelTurns, List.length_append, List.length_singleton]
      omega
  · rw [if_neg hbit]
    exact ⟨a, rfl, ht, ⟨_, hv, hbit⟩, .refl _, Nat.le_refl _, rfl, rfl⟩

/-- `check_nxt` on the instruction control runs on to from the one recorded last. -/
theorem Traversing.checkNxt (ht : Traversing bf active none a) (hlt : o < a.visited.length)
    (hreach : Reachable bf o) (hprev : a.prev = some c) (hc : c ∈ a.collectSingle)
    (hfalls : Falls bf c o) :
    ∃ a' cur', a.checkNxt o = .ok (a', cur') ∧ Traversing bf (cur'.toList ++ active) cur' a' ∧
      Flag a'.visited 1 o ∧ FlagsLE a.visited a'.visited ∧ labelTurns a' cur' ≤ labelTurns a none := by
  have hv := List.getElem?_eq_getElem hlt
  rw [Analyzer.checkNxt, visitedAt_eq hv, except_ok_bind]
  by_cases hbit : a.visited[o] &&& 1 = 1
  · rw [if_pos hbit]
    exact ⟨a, none, rfl, ht, ⟨_, hv, by omega⟩, .refl _, Nat.le_refl _⟩
  · rw [if_neg hbit]
    have hzero : a.visited[o] &&& 1 = 0 := by
      have := Nat.and_one_is_mod (a.visited[o])
      omega
    have hfree : ¬ Flag a.visited 1 o := (not_flag_of_getElem? hv).mpr hzero
    refine ⟨_, some o, rfl, ?_, (flag_one_set hv).mpr (.inr rfl), flagsLE_set hv, ?_⟩
    · refine { ht with
        length := List.length_set.trans ht.length
        leaders := ht.leaders_set hv
        reached := ?_
        once := ?_
        members := fun x => ?_
        entry := fun x hx => ?_ }
      · refine ht.reached.mark (fun x hx => (flag_one_set hv).mpr (.inl hx)) (fun x hx => ?_)
          (fun x hx => hx.imp id (List.mem_append_right _)) (fun x hx => (flag_one_set hv).mpr ?_)
        · rcases (flag_one_set hv).mp hx with hx | rfl
          · exact .inl hx
          · exact .inr ⟨hreach, .inr (by simp)⟩
        · rcases hx with hx | hx
          · exact .inl (ht.reached.pending_marked x (.inl hx))
          · rcases List.mem_append.mp hx with hx | hx
            · exact .inr (List.mem_singleton.mp hx)
            · exact .inl (ht.reached.pending_marked x (.inr hx))
      · have hnew : o ∉ met a none := fun h => hfree ((ht.members o).mp h)
        have honce := ht.once
        simp only [met, Option.toList_none, List.append_nil] at hnew honce
        refine honce.append (List.nodup_singleton o) ?_
        simpa using hnew
      · rw [flag_one_set hv, ← ht.members]
        simp [met, or_assoc]
      · obtain rfl : o = x := Option.some.inj hx
        exact .inr ⟨c, hprev, hc, hfalls⟩
    · have hless := unflagged_set 1 hv hzero (by decide)
      show 2 * unflagged 1 (a.visited.set o _) + 2 * a.labels.length + 1 ≤ _
      rw [labelTurns]
      omega

/-- An instruction whose successors are all marked need not be active. -/
theorem Traversing.finish (ht : Traversing bf active cur a) {active' : List ℕ}
    (hff : bf.code c ≠ .ok 0xFF) (hsucc : ∀ x, FlowEdge bf c x → Flag a.visited 1 x)
    (hactive : ∀ x, x ∈ active → x = c ∨ x ∈ active') (honly : ∀ x ∈ active', x ∈ active) :
    Traversing bf active' cur a := by
  refine { ht with reached := ht.reached.finish hff hsucc (fun x hx => ?_) fun x hx => ?_ }
  · rcases hx with hx | hx
    · exact .inr (.inl hx)
    · exact (hactive x hx).imp id .inr
  · exact hx.imp id (honly x)

/-- The offset the traversal goes on to joins the recorded ones. -/
theorem met_perm (a : Analyzer) (c : ℕ) :
    (a.collectSingle ++ [c] ++ a.labels ++ []).Perm (met a (some c)) := by
  rw [List.append_nil, List.append_assoc]
  refine (List.perm_append_comm.append_left a.collectSingle).trans ?_
  rw [← List.append_assoc]
  exact .refl _

theorem Traversing.not_recorded (ht : Traversing bf active (some c) a) : c ∉ a.collectSingle := by
  intro hc
  have honce := ht.once
  rw [met, List.append_assoc, List.nodup_append'] at honce
  exact honce.2.2 hc (List.mem_append_right _ (List.mem_singleton.mpr rfl))

/-- The pairs among the recorded instructions once `c` is recorded: those there were, and the one that
    ends with `c` when no block starts there. -/
theorem Traversing.pair_iff (ht : Traversing bf active (some c) a) (hw : WellSwept bf) (x : ℕ) :
    (x ∈ a.collectSingle ++ [c] ∧ ∃ d ∈ a.collectSingle ++ [c], Falls bf x d ∧ ¬ Leader bf d) ↔
      x ∈ a.collectPairs ∨ (¬ Leader bf c ∧ a.prev = some x) := by
  have hswept : ∀ y ∈ a.collectSingle ++ [c], Swept bf y := fun y hy => by
    refine ht.swept ?_
    rw [met, List.mem_append, List.mem_append]
    rcases List.mem_append.mp hy with hy | hy
    · exact .inl (.inl hy)
    · exact .inr hy
  constructor
  · rintro ⟨hx, d, hd, hfalls, hlead⟩
    rcases List.mem_append.mp hd with hd | hd
    · obtain ⟨p, hp, hpd⟩ := (ht.entered d hd).resolve_left hlead
      obtain rfl := hw.pred_unique (hswept x hx) (hswept p (List.mem_append_left _ hp)) hfalls hpd
      exact .inl ((ht.pairs x).mpr ⟨hp, d, hd, hfalls, hlead⟩)
    · obtain rfl := List.mem_singleton.mp hd
      obtain ⟨p, hprev, hp, hpd⟩ := (ht.entry d rfl).resolve_left hlead
      obtain rfl := hw.pred_unique (hswept x hx) (hswept p (List.mem_append_left _ hp)) hfalls hpd
      exact .inr ⟨hlead, hprev⟩
  · rintro (hx | ⟨hlead, hx⟩)
    · obtain ⟨hx, d, hd, hrest⟩ := (ht.pairs x).mp hx
      exact ⟨List.mem_append_left _ hx, d, List.mem_append_left _ hd, hrest⟩
    · obtain ⟨p, hprev, hp, hpc⟩ := (ht.entry c rfl).resolve_left hlead
      obtain rfl : p = x := Option.some.inj (hprev.symm.trans hx)
      exact ⟨List.mem_append_left _ hp, c, List.mem_append_right _ (List.mem_singleton.mpr rfl), hpc,
        hlead⟩

/-- Recording an instruction: it makes a pair with the one before when no block starts at it. -/
theorem Traversing.addInstruction (ht : Traversing bf active (some c) a) (hw : WellSwept bf)
    {pairs : List ℕ} (honce : pairs.Nodup)
    (hpairs : ∀ x, x ∈ pairs ↔ x ∈ a.collectPairs ∨ (¬ Leader bf c ∧ a.prev = some x)) :
    Traversing bf active none
      { a with collectSingle := a.collectSingle ++ [c], collectPairs := pairs, prev := some c } := by
  refine { ht with
    once := (met_perm a c).nodup_iff.mpr ht.once
    members := fun x => ((met_perm a c).mem_iff).trans (ht.members x)
    entry := fun _ h => nomatch h
    entered := fun x hx => ?_
    pairs_once := honce
    pairs := fun x => (hpairs x).trans (ht.pair_iff hw x).symm }
  rcases List.mem_append.mp hx with hx | hx
  · exact (ht.entered x hx).imp id fun ⟨p, hp, hpx⟩ => ⟨p, List.mem_append_left _ hp, hpx⟩
  · obtain rfl := List.mem_singleton.mp hx
    exact (ht.entry x rfl).imp id fun ⟨p, _, hp, hpx⟩ => ⟨p, List.mem_append_left _ hp, hpx⟩

/-- `add_instruction`, after `prev` was dropped at a leader. -/
theorem Traversing.record (ht : Traversing bf active (some c) a) (hw : WellSwept bf) {v : ℕ}
    (hv : a.visited[c]? = some v) :
    ∃ a', (if v &&& 2 ≠ 0 then { a with prev := none } else a).addInstruction c = a' ∧
      Traversing bf active none a' ∧ a'.visited = a.visited ∧ a'.prev = some c ∧
      c ∈ a'.collectSingle ∧ labelTurns a' none + 1 = labelTurns a (some c) := by
  have hlead : v &&& 2 ≠ 0 ↔ Leader bf c := by rw [← flag_of_getElem? hv, ht.leaders]
  refine ⟨_, rfl, ?_⟩
  by_cases h : v &&& 2 ≠ 0
  · rw [if_pos h]
    refine ⟨ht.addInstruction hw ?_ fun x => ?_, rfl, rfl,
      List.mem_append_right _ (List.mem_singleton.mpr rfl), rfl⟩
    · simpa using ht.pairs_once
    · simp [hlead.mp h]
  · rw [if_neg h]
    have hnot : ¬ Leader bf c := fun hl => h (hlead.mpr hl)
    obtain ⟨p, hprev, -, hfalls⟩ := (ht.entry c rfl).resolve_left hnot
    refine ⟨ht.addInstruction hw ?_ fun x => ?_, rfl, rfl,
      List.mem_append_right _ (List.mem_singleton.mpr rfl), rfl⟩
    · have hnew : p ∉ a.collectPairs := by
        intro hp
        obtain ⟨-, d, hd, hpd, -⟩ := (ht.pairs p).mp hp
        exact ht.not_recorded (hpd.eq hfalls ▸ hd)
      rw [hprev]
      refine ht.pairs_once.append (List.nodup_singleton p) ?_
      simpa using hnew
    · simp [hnot, hprev, eq_comm]

/-- The switch of `process_label`, by whether the instruction has a label and falls through. -/
theorem processSuccessors_eq {i : Instruction} (hi : Placed bf c i.encode) (nxt : ℕ) :
    (i.type.takesLabel = false → processSuccessors bf c nxt i.type a =
      if i.type.fallsThrough then a.checkNxt nxt else .ok (a, none)) ∧
    ∀ t, bf.code32 (c + 1) = .ok t → i.type.takesLabel = true →
      processSuccessors bf c nxt i.type a = (do
        let a ← a.checkLabel t
        if i.type.fallsThrough then a.checkNxt nxt else .ok (a, none)) := by
  refine ⟨fun h => ?_, fun t ht h => ?_⟩
  · have hfail : i.type = .fail → ∃ t, bf.code32 (c + 1) = .ok t := fun hf =>
      label_of_placed hi (by rw [hf]; decide)
    cases htype : i.type <;> rw [htype] at h hfail
    case fail =>
      obtain ⟨t, ht⟩ := hfail rfl
      rw [processSuccessors, ht]
      rfl
    all_goals first | rfl | cases h
  · cases htype : i.type <;> rw [htype] at h
    case jmp | cjmpz | cjmpnz | call | closure =>
      rw [processSuccessors, ht]
      rfl
    all_goals cases h

/-- The end of a turn, when the label of the instruction is marked: the next instruction is marked if
    control falls through to it. -/
theorem Traversing.runOn (ht : Traversing bf [c] none a) (hw : WellSwept bf) {i : Instruction}
    (hi : Placed bf c i.encode) (hreach : Reachable bf c) (hprev : a.prev = some c)
    (hc : c ∈ a.collectSingle) (hlabel : ∀ x, LabelOf bf c x → Flag a.visited 1 x) :
    ∃ a' cur', (if i.type.fallsThrough then a.checkNxt (c + i.length) else .ok (a, none)) =
        .ok (a', cur') ∧ Traversing bf cur'.toList cur' a' ∧ FlagsLE a.visited a'.visited ∧
      labelTurns a' cur' ≤ labelTurns a none := by
  have hnext : ∀ {x}, Falls bf c x → x = c + i.length ∧ i.type.fallsThrough = true := by
    rintro x ⟨j, hj, hp, rfl⟩
    exact ⟨by rw [length_eq_of_placed hj hi], type_eq_of_placed hj hi ▸ hp⟩
  by_cases hf : i.type.fallsThrough = true
  · have hgo : Falls bf c (c + i.length) := ⟨i, hi, hf, rfl⟩
    have hreach' : Reachable bf (c + i.length) := .step hreach (.inr hgo)
    obtain ⟨a', cur', heq, ht', hflag, hle, hturns⟩ :=
      ht.checkNxt (ht.length ▸ hw.lt hreach'.swept) hreach' hprev hc hgo
    refine ⟨a', cur', by rw [if_pos hf, heq], ht'.finish (code_ne_of_placed hi) (fun x hx => ?_)
      (fun x hx => ?_) (fun x hx => List.mem_append_left _ hx), hle, hturns⟩
    · rcases hx with hx | hx
      · exact hle 1 x (hlabel x hx)
      · exact (hnext hx).1 ▸ hflag
    · rcases List.mem_append.mp hx with hx | hx
      · exact .inr hx
      · exact .inl (List.mem_singleton.mp hx)
  · refine ⟨a, none, by rw [if_neg hf], ht.finish (code_ne_of_placed hi) (fun x hx => ?_)
      (fun x hx => ?_) (fun x hx => nomatch hx), .refl _, Nat.le_refl _⟩
    · rcases hx with hx | hx
      · exact hlabel x hx
      · exact absurd (hnext hx).2 hf
    · exact .inl (List.mem_singleton.mp hx)

theorem Traversing.current (ht : Traversing bf [c] cur a) : Reachable bf c :=
  ht.reached.reach c (ht.reached.pending_marked c (.inr (List.mem_singleton.mpr rfl)))

/-- One turn of the loop of `process_label` keeps the invariant: the instruction is recorded and its
    successors are met. -/
theorem Traversing.turn (ht : Traversing bf [c] (some c) a) (hw : WellSwept bf)
    (hff : bf.code c ≠ .ok 0xFF) :
    ∃ a' cur', processInstruction bf c a = .ok (a', cur') ∧ Traversing bf cur'.toList cur' a' ∧
      FlagsLE a.visited a'.visited ∧ labelTurns a' cur' < labelTurns a (some c) := by
  have hreach := ht.current
  obtain ⟨i, hi, hdec⟩ := hw.decode hreach.swept hff
  have hv := List.getElem?_eq_getElem (ht.length ▸ hw.lt hreach.swept)
  obtain ⟨a₁, hadd, ht₁, hvis, hprev, hc, hturns⟩ := ht.record hw hv
  obtain ⟨hplain, hlabel⟩ := processSuccessors_eq (a := a₁) hi (c + i.length)
  have heq : processInstruction bf c a = processSuccessors bf c (c + i.length) i.type a₁ := by
    rw [processInstruction, hdec, except_ok_bind, visitedAt_eq hv, ← hadd]
    rfl
  rw [heq, ← hvis]
  by_cases hl : i.type.takesLabel = true
  · obtain ⟨t, htarget⟩ := label_of_placed hi (by
      cases h : i.type <;> rw [h] at hl <;> first | decide | cases hl)
    have hedge : LabelOf bf c t := ⟨i, hi, hl, htarget⟩
    have hreach' : Reachable bf t := .step hreach (.inl hedge)
    obtain ⟨a₂, hcheck, ht₂, hflag, hle₂, hturns₂, hprev₂, hsingle₂⟩ :=
      ht₁.checkLabel (ht₁.length ▸ hw.lt hreach'.swept) (.inr ⟨c, hreach.swept, .inl hedge⟩) hreach'
    have honly : ∀ x, LabelOf bf c x → Flag a₂.visited 1 x := by
      rintro x ⟨-, -, -, hx⟩
      obtain rfl := Except.ok.inj (hx.symm.trans htarget)
      exact hflag
    obtain ⟨a', cur', hrun, ht', hle', hturns'⟩ :=
      ht₂.runOn hw hi hreach (hprev₂.trans hprev) (hsingle₂ ▸ hc) honly
    refine ⟨a', cur', ?_, ht', hle₂.trans hle', by omega⟩
    rw [hlabel t htarget hl, hcheck, except_ok_bind, hrun]
  · have hnone : ∀ x, LabelOf bf c x → Flag a₁.visited 1 x := by
      rintro x ⟨j, hj, hjl, -⟩
      exact absurd (type_eq_of_placed hj hi ▸ hjl) hl
    obtain ⟨a', cur', hrun, ht', hle', hturns'⟩ := ht₁.runOn hw hi hreach hprev hc hnone
    exact ⟨a', cur', (hplain (Bool.eq_false_iff.mpr hl)).trans hrun, ht', hle', by omega⟩

/-- Taking a label from the queue starts a block there. -/
theorem Traversing.pop (ht : Traversing bf [] none a) {label : ℕ} {rest : List ℕ}
    (hperm : (label :: rest).Perm a.labels) :
    Traversing bf [label] (some label) { a with labels := rest, prev := none } ∧
      labelTurns { a with labels := rest, prev := none } (some label) < labelTurns a none := by
  have hmem : ∀ x, x ∈ a.labels ↔ x = label ∨ x ∈ rest := fun x => by
    rw [← hperm.mem_iff, List.mem_cons]
  have hpop : ∀ x, (x ∈ a.labels ∨ x ∈ []) ↔ (x ∈ rest ∨ x ∈ [label]) := fun x => by
    rw [hmem, List.mem_singleton]
    simp only [List.not_mem_nil, or_false]
    exact or_comm
  have hmet : (met { a with labels := rest, prev := none } (some label)).Perm (met a none) := by
    show (a.collectSingle ++ rest ++ [label]).Perm (a.collectSingle ++ a.labels ++ [])
    rw [List.append_nil, List.append_assoc]
    refine List.Perm.append_left _ (List.perm_append_comm.trans ?_)
    exact hperm
  constructor
  · exact { ht with
      reached := ht.reached.mark (fun _ h => h) (fun _ h => .inl h) (fun x h => (hpop x).mp h)
        (fun x h => ht.reached.pending_marked x ((hpop x).mpr h))
      once := hmet.nodup_iff.mpr ht.once
      members := fun x => hmet.mem_iff.trans (ht.members x)
      labels_lead := fun x hx => ht.labels_lead x ((hmem x).mpr (.inr hx))
      entry := fun x hx => by
        obtain rfl : label = x := Option.some.inj hx
        exact .inl (ht.labels_lead label ((hmem label).mpr (.inl rfl))) }
  · have hlen := hperm.length_eq
    rw [List.length_cons] at hlen
    simp only [labelTurns, Option.toList_none, Option.toList_some, List.length_nil,
      List.length_singleton]
    omega

/-- The traversal ends, with no label left. -/
theorem processLabels_ok {pick : List ℕ → List ℕ} (hpick : ∀ l, (pick l).Perm l)
    (hw : WellSwept bf) (hend : ∀ o, Reachable bf o → bf.code o ≠ .ok 0xFF) :
    ∀ {fuel : ℕ} {a : Analyzer} {cur : Option ℕ}, Traversing bf cur.toList cur a →
      labelTurns a cur < fuel →
      ∃ a', processLabels pick bf fuel a cur = .ok a' ∧ Traversing bf [] none a' ∧ a'.labels = [] ∧
        FlagsLE a.visited a'.visited
  | 0, _, _, _, hfuel => absurd hfuel (Nat.not_lt_zero _)
  | fuel + 1, a, some c, ht, hfuel => by
    obtain ⟨a₁, cur₁, hturn, ht₁, hle₁, hturns₁⟩ := ht.turn hw (hend c ht.current)
    have hfuel' : labelTurns a₁ cur₁ < fuel := by omega
    obtain ⟨a', hrun, ht', hnil, hle'⟩ := processLabels_ok hpick hw hend ht₁ hfuel'
    refine ⟨a', ?_, ht', hnil, hle₁.trans hle'⟩
    rw [processLabels, hturn, except_ok_bind]
    exact hrun
  | fuel + 1, a, none, ht, hfuel => by
    rw [processLabels]
    have hperm := hpick a.labels
    cases hq : pick a.labels with
    | nil =>
      rw [hq] at hperm
      exact ⟨a, rfl, ht, List.nil_perm.mp hperm, .refl _⟩
    | cons label rest =>
      rw [hq] at hperm
      obtain ⟨ht₁, hturns₁⟩ := ht.pop hperm
      exact processLabels_ok hpick hw hend ht₁ (by omega)

/-- An instruction that is processed is no 0xFF. -/
theorem processInstruction_known {r : Analyzer × Option ℕ} (h : processInstruction bf c a = .ok r) :
    bf.code c ≠ .ok 0xFF := by
  intro hff
  obtain ⟨⟨nxt, type⟩, hdec, -⟩ := except_bind_ok.mp h
  rw [generalByterun, Bytefile.typeAt, hff] at hdec
  cases hdec

/-- When the traversal returns, it has ended with no label left. -/
theorem processLabels_of_ok {pick : List ℕ → List ℕ} (hpick : ∀ l, (pick l).Perm l)
    (hw : WellSwept bf) : ∀ {fuel : ℕ} {a a' : Analyzer} {cur : Option ℕ},
    Traversing bf cur.toList cur a → processLabels pick bf fuel a cur = .ok a' →
      Traversing bf [] none a' ∧ a'.labels = [] ∧ FlagsLE a.visited a'.visited
  | 0, _, _, _, _, h => nomatch h
  | fuel + 1, a, a', some c, ht, h => by
    obtain ⟨r, hturn, hrun⟩ := except_bind_ok.mp h
    obtain ⟨a₁, cur₁, hturn₁, ht₁, hle₁, -⟩ := ht.turn hw (processInstruction_known hturn)
    obtain rfl := Except.ok.inj (hturn.symm.trans hturn₁)
    obtain ⟨ht', hnil, hle'⟩ := processLabels_of_ok hpick hw ht₁ hrun
    exact ⟨ht', hnil, hle₁.trans hle'⟩
  | fuel + 1, a, a', none, ht, h => by
    rw [processLabels] at h
    have hperm := hpick a.labels
    cases hq : pick a.labels with
    | nil =>
      rw [hq] at hperm h
      obtain rfl := Except.ok.inj h
      exact ⟨ht, List.nil_perm.mp hperm, .refl _⟩
    | cons label rest =>
      rw [hq] at hperm h
      have ht₁ : Traversing bf (some label).toList (some label) _ := (ht.pop hperm).1
      obtain ⟨ht', hnil, hle⟩ := processLabels_of_ok hpick hw ht₁ h
      exact ⟨ht', hnil, hle⟩

/-- Marking a leader as one again. -/
theorem Traversing.markLeader (ht : Traversing bf active cur a) {v : ℕ}
    (hv : a.visited[o]? = some v) (hlead : Leader bf o) :
    Traversing bf active cur { a with visited := a.visited.set o (v ||| 2) } := by
  have hone : ∀ x, Flag (a.visited.set o (v ||| 2)) 1 x ↔ Flag a.visited 1 x := fun x => by
    rw [flag_set hv]
    simp
  refine { ht with
    length := List.length_set.trans ht.length
    leaders := fun x => ?_
    reached := ht.reached.mark (fun x hx => (hone x).mpr hx) (fun x hx => .inl ((hone x).mp hx))
      (fun _ hx => hx) (fun x hx => (hone x).mpr (ht.reached.pending_marked x hx))
    members := fun x => (ht.members x).trans (hone x).symm }
  rw [flag_set hv, ht.leaders]
  refine ⟨fun h => h.elim id ?_, .inl⟩
  rintro ⟨rfl, -⟩
  exact hlead

/-- The first loop of `analyze` makes labels of the public symbols. -/
theorem checkSymbols_ok (hw : WellSwept bf) : ∀ {symbols : List ℕ} {a : Analyzer},
    Traversing bf [] none a → (∀ i ∈ symbols, i < bf.publicSymbolsNumber.toNat) →
    ∃ a', checkSymbols bf symbols a = .ok a' ∧ Traversing bf [] none a' ∧
      FlagsLE a.visited a'.visited ∧ labelTurns a' none ≤ labelTurns a none ∧
      ∀ i ∈ symbols, ∀ o : ℕ, bf.getPublicOffset i = .ok (o : ℤ) → Flag a'.visited 1 o
  | [], a, ht, _ => ⟨a, rfl, ht, .refl _, Nat.le_refl _, fun _ h => nomatch h⟩
  | i :: symbols, a, ht, hsym => by
    obtain ⟨o, ho⟩ := hw.symbols i (hsym i (List.mem_cons_self ..))
    have hpub : Public bf o := ⟨i, hsym i (List.mem_cons_self ..), ho⟩
    obtain ⟨a₁, hcheck, ht₁, hflag, hle₁, hturns₁, -⟩ :=
      ht.checkLabel (ht.length ▸ hw.lt (.start hpub)) (.inl hpub) (.start hpub)
    have hv := List.getElem?_eq_getElem (ht₁.length ▸ hw.lt (.start hpub) : o < a₁.visited.length)
    have hless := unflagged_set_le 1 2 hv
    obtain ⟨a₂, hrest, ht₂, hle₂, hturns₂, hall⟩ := checkSymbols_ok hw
      (ht₁.markLeader hv (.inl hpub)) fun j hj => hsym j (List.mem_cons_of_mem _ hj)
    refine ⟨a₂, ?_, ht₂, (hle₁.trans (flagsLE_set hv)).trans hle₂, ?_, fun j hj x hx => ?_⟩
    · rw [checkSymbols, symbolOffset_eq ho, except_ok_bind, hcheck, except_ok_bind, visitedAt_eq hv]
      exact hrest
    · simp only [labelTurns] at hturns₁ hturns₂ ⊢
      omega
    · rcases List.mem_cons.mp hj with rfl | hj
      · obtain rfl : o = x := by
          have := Except.ok.inj (ho.symm.trans hx)
          omega
        exact hle₂ 1 o (flagsLE_set hv 1 o hflag)
      · exact hall j hj x hx

/-- The invariant at the start of the traversal. -/
theorem traversing_new {visited : List ℕ} (hlength : visited.length = bf.codeSize.toNat)
    (hfresh : ∀ o, ¬ Flag visited 1 o) (hleaders : ∀ o, Flag visited 2 o ↔ Leader bf o) :
    Traversing bf [] none ⟨[], [], none, visited, []⟩ :=
  { length := hlength
    leaders := hleaders
    reached := ⟨fun x hx => absurd hx (hfresh x), fun _ hx => (nomatch hx),
      fun x hx => absurd hx (hfresh x)⟩
    once := List.nodup_nil
    members := fun x => ⟨fun hx => (nomatch hx), fun hx => absurd hx (hfresh x)⟩
    labels_lead := fun _ hx => nomatch hx
    entry := fun _ hx => nomatch hx
    entered := fun _ hx => nomatch hx
    pairs_once := List.nodup_nil
    pairs := fun _ => ⟨fun hx => (nomatch hx), fun hx => nomatch hx.1⟩ }

/-- When no label is left, the records are the right ones. -/
theorem Traversing.records (ht : Traversing bf [] none a) (hnil : a.labels = [])
    (hpub : ∀ o, Public bf o → Flag a.visited 1 o) : Records bf a := by
  have hnone : ∀ x, ¬ (x ∈ a.labels ∨ x ∈ ([] : List ℕ)) := by simp [hnil]
  have hmet : met a none = a.collectSingle := by simp [met, hnil]
  have hsingle : ∀ x, x ∈ a.collectSingle ↔ Reachable bf x := fun x => by
    rw [← hmet, ht.members]
    exact ht.reached.exact hpub hnone x
  refine ⟨hmet ▸ ht.once, hsingle, ht.pairs_once, fun x => (ht.pairs x).trans ?_⟩
  rw [hsingle]
  refine and_congr_right fun hx => ⟨fun ⟨d, _, hd⟩ => ⟨d, hd⟩, fun ⟨d, hd⟩ => ⟨d, ?_, hd⟩⟩
  exact (hsingle d).mpr (.step hx (.inr hd.1))

end Traversal

/-- Up to its main loop the analyzer meets the public symbols, with all leaders marked. -/
theorem analyzeBy_start {pick : List ℕ → List ℕ} {symbols : List ℕ} {bf : Bytefile}
    (hpick : ∀ l, (pick l).Perm l) (hsymbols : symbols.Perm (List.range bf.publicSymbolsNumber.toNat))
    (hw : WellSwept bf) :
    ∃ a₁, analyzeBy pick symbols bf =
        processLabels pick bf (2 * bf.codeSize.toNat + 1) a₁ none ∧ Traversing bf [] none a₁ ∧
      labelTurns a₁ none < 2 * bf.codeSize.toNat + 1 ∧ ∀ o, Public bf o → Flag a₁.visited 1 o := by
  have hmem : ∀ i, i ∈ symbols ↔ i < bf.publicSymbolsNumber.toNat := fun i => by
    rw [hsymbols.mem_iff, List.mem_range]
  obtain ⟨visited, hmarks, hlength, hfresh, -, hleaders⟩ := collectMarksBy_ok hpick hsymbols hw
    ⟨[], [], none, List.replicate bf.codeSize.toNat 0, []⟩ rfl
  obtain ⟨a₁, hseed, ht₁, -, hturns₁, hsym⟩ := checkSymbols_ok hw
    (traversing_new hlength hfresh hleaders) (fun i hi => (hmem i).mp hi)
  refine ⟨a₁, ?_, ht₁, ?_, ?_⟩
  · rw [analyzeBy, new, if_neg (Int.not_lt.mpr hw.size)]
    show (collectMarksBy pick symbols bf _ >>= _) = _
    rw [hmarks, except_ok_bind, traverseBy, hseed]
    rfl
  · have hle := unflagged_le_length 1 visited
    have hstart : labelTurns ⟨[], [], none, visited, []⟩ none = 2 * unflagged 1 visited := rfl
    omega
  · rintro o ⟨i, hi, ho⟩
    exact hsym i ((hmem i).mpr hi) o ho

/-- The two traversals end and record each reachable instruction and each pair within a block once,
    in whatever order the public symbols and the labels are taken. -/
theorem analyzer_records {pick : List ℕ → List ℕ} {symbols : List ℕ} {bf : Bytefile}
    (hpick : ∀ l, (pick l).Perm l) (hsymbols : symbols.Perm (List.range bf.publicSymbolsNumber.toNat))
    (hw : WellSwept bf) (hend : ∀ o, Reachable bf o → bf.code o ≠ .ok 0xFF) :
    ∃ a, analyzeBy pick symbols bf = .ok a ∧ Records bf a := by
  obtain ⟨a₁, heq, ht₁, hfuel, hpub⟩ := analyzeBy_start hpick hsymbols hw
  have ht₁' : Traversing bf (none : Option ℕ).toList none a₁ := ht₁
  obtain ⟨a, hrun, ht, hnil, hle⟩ := processLabels_ok hpick hw hend ht₁' hfuel
  exact ⟨a, heq.trans hrun, ht.records hnil fun o ho => hle 1 o (hpub o ho)⟩

/-- When the analyzer returns, control never reaches a byte 0xFF and the records are the right ones. -/
theorem analyze_ok {bf : Bytefile} {a : Analyzer} (hw : WellSwept bf) (h : analyze bf = .ok a) :
    (∀ o, Reachable bf o → bf.code o ≠ .ok 0xFF) ∧ Records bf a := by
  obtain ⟨a₁, heq, ht₁, -, hpub⟩ := analyzeBy_start (fun l => .refl l) (.refl _) hw
  have ht₁' : Traversing bf (none : Option ℕ).toList none a₁ := ht₁
  obtain ⟨ht, hnil, hle⟩ := processLabels_of_ok (fun l => .refl l) hw ht₁' (heq.symm.trans h)
  have hpub' : ∀ o, Public bf o → Flag a.visited 1 o := fun o ho => hle 1 o (hpub o ho)
  have hnone : ∀ x, ¬ (x ∈ a.labels ∨ x ∈ ([] : List ℕ)) := by simp [hnil]
  exact ⟨fun o ho => ht.reached.all_good hpub' hnone ho, ht.records hnil hpub'⟩

/-- The analyzer ends with the right records, and the order of the public symbols and of the labels
    only changes the order of the records. -/
theorem analyze_exact {bf : Bytefile} (hw : WellSwept bf)
    (hend : ∀ o, Reachable bf o → bf.code o ≠ .ok 0xFF) :
    ∃ a, analyze bf = .ok a ∧ Records bf a ∧ ∀ (pick : List ℕ → List ℕ) (symbols : List ℕ),
      (∀ l, (pick l).Perm l) → symbols.Perm (List.range bf.publicSymbolsNumber.toNat) →
      ∃ a', analyzeBy pick symbols bf = .ok a' ∧ Records bf a' ∧
        a'.collectSingle.Perm a.collectSingle ∧ a'.collectPairs.Perm a.collectPairs := by
  obtain ⟨a, ha, hrec⟩ := analyzer_records (fun l => .refl l) (.refl _) hw hend
  refine ⟨a, ha, hrec, fun pick symbols hpick hsymbols => ?_⟩
  obtain ⟨a', ha', hrec'⟩ := analyzer_records hpick hsymbols hw hend
  exact ⟨a', ha', hrec', hrec'.perm hrec⟩

/-! ### Code laid end to end -/

section LaidOut

variable {bf : Bytefile} {o : ℕ} {is : List Instruction}

/-- The labels of the instructions are offsets of the layout. -/
def labelsInside (bf : Bytefile) (is : List Instruction) : Bool :=
  (starts 0 is).all fun o : ℕ => match bf.typeAt o, bf.code32 (o + 1) with
    | .ok type, .ok t => !type.takesLabel || (LamaSM.sweepOffsets 0 is).contains t
    | _, _ => true

/-- The public symbols are offsets of the layout. -/
abbrev SymbolsInside (bf : Bytefile) (is : List Instruction) : Prop :=
  ∀ i < bf.publicSymbolsNumber.toNat, ∃ o ∈ LamaSM.sweepOffsets 0 is,
    bf.getPublicOffset i = .ok ((o : ℕ) : ℤ)

/-- In code laid end to end whose labels and symbols are offsets of the layout, the sweep stays on
    these. -/
theorem swept_of_laidOut (h : LaidOut bf 0 is) (hlabels : labelsInside bf is = true)
    (hsymbols : SymbolsInside bf is) (ho : Swept bf o) : o ∈ LamaSM.sweepOffsets 0 is := by
  induction ho with
  | @start o ho =>
    obtain ⟨i, hi, ho⟩ := ho
    obtain ⟨o', ho', heq⟩ := hsymbols i hi
    have := Except.ok.inj (ho.symm.trans heq)
    obtain rfl : o = o' := by omega
    exact ho'
  | @step p o _ he ih =>
    rcases List.mem_append.mp ih with hp | hp
    · obtain ⟨i, hi, hend, -⟩ := starts_placed h hp
      rcases he with ⟨j, hj, hl, ht⟩ | hnext
      · have hcheck := List.all_eq_true.mp hlabels p hp
        rw [Instruction.typeAt hj, ht] at hcheck
        dsimp only at hcheck
        rw [hl] at hcheck
        exact List.contains_iff_mem.mp hcheck
      · have heq : o = p + i.length := hnext.eq (p := (· != .jmp)) (q := fun _ => true) ⟨i, hi, rfl, rfl⟩
        exact heq ▸ hend
    · rw [List.mem_singleton.mp hp] at he
      rcases he with ⟨i, hi, -⟩ | ⟨i, hi, -⟩ <;> exact absurd h.finish_closed (code_ne_of_placed hi)

theorem wellSwept_of_laidOut (h : LaidOut bf 0 is) (hlabels : labelsInside bf is = true)
    (hsymbols : SymbolsInside bf is) : WellSwept bf := by
  have hlt := h.finish_lt
  constructor
  · omega
  · intro i hi
    obtain ⟨o, -, heq⟩ := hsymbols i hi
    exact ⟨o, heq⟩
  · intro o ho
    have hmem := swept_of_laidOut h hlabels hsymbols ho
    have hle := sweepOffsets_le hmem
    refine ⟨by omega, ?_⟩
    rcases List.mem_append.mp hmem with hs | hs
    · obtain ⟨i, hi, hend, -⟩ := starts_placed h hs
      have := sweepOffsets_le hend
      exact .inr ⟨i, hi, by omega⟩
    · rw [List.mem_singleton.mp hs]
      exact .inl h.finish_closed
  · intro o o' i i' ho ho' hi hi' hoo'
    rcases List.mem_append.mp (swept_of_laidOut h hlabels hsymbols ho) with hs | hs
    · obtain ⟨j, hj, -, hapart⟩ := starts_placed h hs
      rw [length_eq_of_placed hi hj]
      exact hapart o' (swept_of_laidOut h hlabels hsymbols ho') hoo'
    · rw [List.mem_singleton.mp hs] at hi
      exact absurd h.finish_closed (code_ne_of_placed hi)

end LaidOut

/-- `main` pushes a number and ends. -/
def pairFile : Bytefile := .ofMain 0
  [0x10, 7, 0, 0, 0, 0x16, 0xFF]

/-- `main` jumps to the byte that closes the code. -/
def jumpFile : Bytefile := .ofMain 0
  [0x15, 5, 0, 0, 0, 0xFF]

/-- Its instruction. -/
def jumpInstructions : List Instruction := [⟨0x15, [5], [], opcode_known, one_operand, no_capture⟩]

theorem laidOut_jumpFile : LaidOut jumpFile 0 jumpInstructions :=
  ⟨by decide, by decide⟩

theorem jumpFile_wellSwept : WellSwept jumpFile :=
  wellSwept_of_laidOut laidOut_jumpFile (by decide) (by decide)

/-- A jump to the closing 0xFF falls through to nothing, but ends the analyzer with an exception. -/
theorem jumpFile_unanalyzed : ¬ ∀ bf : Bytefile, WellSwept bf →
    (∀ o c, Reachable bf o → Falls bf o c → bf.code c ≠ .ok 0xFF) →
    ∃ a, analyze bf = .ok a ∧ Records bf a := by
  intro h
  have hfalls : ∀ o c, Reachable jumpFile o → Falls jumpFile o c → jumpFile.code c ≠ .ok 0xFF := by
    rintro o c ho ⟨i, hi, hf, rfl⟩
    rcases List.mem_cons.mp (swept_of_laidOut laidOut_jumpFile (by decide)
      (by decide) ho.swept) with rfl | hlast
    · rw [type_eq_of_placed hi laidOut_jumpFile.head.1] at hf
      cases hf
    · rw [List.mem_singleton.mp hlast] at hi
      exact absurd laidOut_jumpFile.finish_closed (code_ne_of_placed hi)
  obtain ⟨a, ha, -⟩ := h jumpFile jumpFile_wellSwept hfalls
  have hthrows : analyze jumpFile = .error (.logicError "unsupported instruction type") := by
    decide
  rw [hthrows] at ha
  cases ha

theorem laidOut_pairFile :
    LaidOut pairFile 0 [⟨0x10, [7], [], rfl, rfl, rfl⟩, ⟨0x16, [], [], rfl, rfl, rfl⟩] :=
  ⟨by decide, by decide⟩

theorem pairFile_wellSwept : WellSwept pairFile :=
  wellSwept_of_laidOut laidOut_pairFile (by decide) (by decide)

theorem analyze_exact_pairFile : ∃ a, analyze pairFile = .ok a ∧ Records pairFile a ∧
    a.collectSingle = [0, 5] ∧ a.collectPairs = [0] := by
  have hrun : analyze pairFile = .ok ⟨[0, 5], [0], some 5, [3 + 4, 0, 0, 0, 0, 1 + 4, 4], []⟩ := by
    decide +kernel
  obtain ⟨a, ha, hrec, -⟩ := analyze_exact pairFile_wellSwept (analyze_ok pairFile_wellSwept hrun).1
  obtain rfl := Except.ok.inj (ha.symm.trans hrun)
  exact ⟨_, ha, hrec, rfl, rfl⟩

end Analyzer

end LamaSM
