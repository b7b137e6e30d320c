import LamaSM.Gc.Contents
import LamaSM.Lib.Clients

/-! What the interpreter does to the stack and the heap, on memory and on the state, and any number of
    times in a row.

    `Op` lists the accesses to the stack, the moves of `__gc_stack_top` and the functions of the runtime that
    read, write and make objects. A client of these operations cannot tell the memory of the process from the
    state: whatever it has done with the results so far, memory does next what the state does, with an `Env` that
    collects and places objects as the collector and `mmap` have done. -/

namespace LamaSM
namespace Gc
open Lib

inductive Op
  /-- `stack_data[i]` -/
  | load (i : ℕ)
  /-- `stack_data[i] = w` -/
  | store (i : ℕ) (w : Word)
  /-- `std::reverse (&stack_data[a], &stack_data[a + n])` -/
  | reverse (a n : ℕ)
  /-- `__gc_stack_top = &stack_data[t]` -/
  | moveTop (t : ℤ)
  /-- `*ptr` -/
  | deref (ptr : Word)
  | length (p : Word)
  | elem (p i : Word)
  | sta (x i v : Word)
  | tagHash (s : Word)
  | tag (d t n : Word)
  | arrayPatt (d n : Word)
  | stringPatt (x y : Word)
  | closureTagPatt (x : Word)
  | arrayTagPatt (x : Word)
  | stringTagPatt (x : Word)
  | sexpTagPatt (x : Word)
  | array (args n : ℕ)
  | closure (args n : ℕ)
  | sexp (args n : ℕ)
  /-- `Bstring` on the C string that `*cell` points to -/
  | string (cell : ℕ) (bytes : List UInt8)
  deriving DecidableEq, Repr

/-- What an operation does to the state. -/
def Op.model {M : Machine} (E : Env M) : Op → Exec Word
  | .load i => readSlot M i
  | .store i w => do
    writeSlot M i w
    return w
  | .reverse a n => do
    reverseSlots M a n
    return 0
  | .moveTop t => do
    modify fun s => { s with top := t }
    return 0
  | .deref ptr => loadWord M ptr
  | .length p => LamaSM.Llength p
  | .elem p i => LamaSM.Belem p i
  | .sta x i v => LamaSM.Bsta M x i v
  | .tagHash s => LamaSM.LtagHash s
  | .tag d t n => LamaSM.Btag d t n
  | .arrayPatt d n => LamaSM.BarrayPatt d n
  | .stringPatt x y => LamaSM.BstringPatt x y
  | .closureTagPatt x => LamaSM.BclosureTagPatt x
  | .arrayTagPatt x => LamaSM.BarrayTagPatt x
  | .stringTagPatt x => LamaSM.BstringTagPatt x
  | .sexpTagPatt x => LamaSM.BsexpTagPatt x
  | .array args n => LamaSM.Barray E args n
  | .closure args n => LamaSM.Bclosure E args n
  | .sexp args n => LamaSM.Bsexp E args n
  | .string _ bytes => LamaSM.Bstring E 0 bytes

/-- The address a constructor returns, as a word. -/
def addressOf (r : Result (ℕ × Globals)) : Result (Word × Globals) := r.map fun p => (BitVec.ofNat 64 p.1, p.2)

/-- What an operation does to the memory. The system answers `mmap` depending on what is mapped. -/
def Op.run (M : Machine) (fuel : ℕ) (mmap : Globals → ℕ → Option ℕ) (g : Globals) : Op → Result (Word × Globals)
  | .load i => return (load64 g.mem (slotAddress M i), g)
  | .store i w => return (w, { g with mem := store64 g.mem (slotAddress M i) w })
  | .reverse a n => return (0, { g with mem := reverseWords g.mem (slotAddress M a) n })
  | .moveTop t => return (0, { g with stackTop := (8 * (M.stackWord + t)).toNat })
  | .deref ptr => return (load64 g.mem ptr.toNat, g)
  | .length p => return (Llength g.mem p, g)
  | .elem p i => return (Belem g.mem p i, g)
  | .sta x i v => return ((Bsta g.mem x i v).1, { g with mem := (Bsta g.mem x i v).2 })
  | .tagHash s => do
    let h ← LtagHash g.mem fuel s
    return (h, g)
  | .tag d t n => return (Btag g.mem d t n, g)
  | .arrayPatt d n => return (BarrayPatt g.mem d n, g)
  | .stringPatt x y =>
    match BstringPatt g.mem fuel x y with
    | some w => return (w, g)
    | none => throw .timeout
  | .closureTagPatt x => return (BclosureTagPatt g.mem x, g)
  | .arrayTagPatt x => return (BarrayTagPatt g.mem x, g)
  | .stringTagPatt x => return (BstringTagPatt g.mem x, g)
  | .sexpTagPatt x => return (BsexpTagPatt g.mem x, g)
  | .array args n => addressOf (Barray g fuel (mmap g) (slotAddress M args) n)
  | .closure args n => addressOf (Bclosure g fuel (mmap g) (slotAddress M args) n)
  | .sexp args n => addressOf (Bsexp g fuel (mmap g) (slotAddress M args) n)
  | .string cell _ => addressOf (Bstring g fuel (mmap g) cell)

/-! ### What the interpreter and the system see to -/

/-- The words a collection scans lead to objects, and none is null at the first allocation. -/
structure Sound (M : Machine) (s : State) : Prop where
  held : Held M [] s
  top : -1 ≤ s.top
  nonnull : s.allocs = 0 → ∀ i : ℕ, s.top < i → i < M.maxStack → s.stack i ≠ 0

/-- The operands of a constructor lie above the top, and not more than can be rooted. -/
structure Operands (M : Machine) (s : State) (args skipped n : ℕ) : Prop where
  above : s.top < args
  inStack : args + skipped + n ≤ M.maxStack
  few : n ≤ maxExtraRootsNumber

/-- The model of an operation without an allocation succeeds. -/
def Succeeds (M : Machine) (op : Op) (s : State) : Prop := ∀ E : Env M, ∃ w s', op.model E s = .ok w s'

/-- When an operation may be called. -/
def Op.Needs (M : Machine) (op : Op) (s : State) : Prop :=
  match op with
  | .reverse a n => a + n ≤ M.maxStack
  | .moveTop t => -1 ≤ t
  | .array args n => Sound M s ∧ Operands M s args 0 n
  | .closure args n => Sound M s ∧ Operands M s args 1 n
  | .sexp args n => Sound M s ∧ 0 < n ∧ Operands M s args 1 (n - 1)
  | .string _ bytes => Sound M s ∧ bytes.length < 2 ^ 60
  | _ => Succeeds M op s

/-- What memory and system must provide for an operation; `bytes` is the size of the new object. -/
def Supplied (M : Machine) (fuel : ℕ) (mmap : Globals → ℕ → Option ℕ) (g : Globals) (roots : List ℕ) (bytes : ℕ) :
    Prop :=
  g.heap.current - g.heap.begin < fuel ∧ Maps M { g with extraRoots := roots } (mmap g) (bytesToWords bytes)

def Op.Supplies (M : Machine) (fuel : ℕ) (mmap : Globals → ℕ → Option ℕ) (op : Op) (g : Globals) : Prop :=
  match op with
  | .tagHash _ => g.heap.current - g.heap.begin < fuel
  | .stringPatt _ _ => g.heap.current - g.heap.begin < fuel
  | .array args n => Supplied M fuel mmap g (slotAddresses M args n) (arraySize n)
  | .closure args n => Supplied M fuel mmap g (slotAddresses M (args + 1) n) (closureSize (n + 1))
  | .sexp args n => Supplied M fuel mmap g (slotAddresses M (args + 1) (n - 1)) (sexpSize (n - 1))
  | .string cell bytes => Supplied M fuel mmap g [cell] (stringSize bytes.length) ∧ bytes.length < fuel ∧
      CStringAt M g (mmap g) [cell] cell bytes
  | _ => True

/-! ### The simulation -/

/-- Memory and state are in step. While nothing has been allocated there is no heap. -/
structure Linked (M : Machine) (s : State) (g : Globals) : Prop where
  represents : ∃ os, Represents M s g os
  roots : s.extraRoots = []
  begun : 0 < g.heap.begin ∨ g.heap.end = 0 ∧ s.allocs = 0 ∧
    ∀ p ∈ g.stackBottom :: wordsBetween g.startCustomData g.stopCustomData, load64 g.mem p ≠ 0

/-- What a call has done: memory and state are in step again, with an `Env` that follows the choices, which
    belong to the allocations counted meanwhile. -/
def Stepped (M : Machine) (fuel : ℕ) (mmap : Globals → ℕ → Option ℕ) (op : Op) (s : State) (g : Globals) : Prop :=
  ∃ (cs : List (Choice M)) (w : Word) (s' : State) (g' : Globals), op.run M fuel mmap g = .ok (w, g') ∧
    Linked M s' g' ∧ (∀ E, (∀ c ∈ cs, c.Follows E) → op.model E s = .ok w s') ∧ s.allocs ≤ s'.allocs ∧
    cs.Pairwise (fun c d => c.before.allocs < d.before.allocs) ∧
    ∀ c ∈ cs, s.allocs ≤ c.before.allocs ∧ c.before.allocs < s'.allocs

section Step

variable {M : Machine} {s : State} {g : Globals} {os : List Obj} {op : Op} {fuel : ℕ} {mmap : Globals → ℕ → Option ℕ}

/-- A heap without room has no objects. -/
theorem Represents.empty (h : Represents M s g os) (hend : g.heap.end = 0) : os = [] := by
  have hcurrent := h.layout.current
  have hfilled := h.placed.chunk.filled
  cases os with
  | nil => rfl
  | cons o os =>
    have hpos := room_pos o
    have hlaid := le_laidEnd room os (g.heap.begin + room o)
    rw [laidEnd] at hcurrent
    omega

/-- Before the first allocation no word a collection scans is null. -/
theorem Sound.rootWords_nonnull (hs : Sound M s) (hnone : s.extraRoots = []) (hfirst : s.allocs = 0) :
    0 ∉ rootWords M s := by
  intro hzero
  rcases mem_rootWords.mp hzero with ⟨i, hi, hM, hi0⟩ | ⟨i, hi, -⟩ | ⟨id, hid⟩
  · have htop := hs.top
    refine hs.nonnull hfirst i.toNat (by omega) (by omega) ?_
    rw [Int.toNat_of_nonneg (by omega)]
    exact hi0
  · rw [hnone] at hi
    exact absurd hi List.not_mem_nil
  · rw [hnone] at hid
    exact absurd hid List.not_mem_nil

/-- A state in step with memory is ready for an allocation. -/
theorem Linked.ready (h : Linked M s g) (hs : Sound M s) : ∃ os, Ready M s g os := by
  obtain ⟨os, hrep⟩ := h.represents
  have hroots := hrep.noRoots h.roots
  refine ⟨os, hrep, hs.held, hs.top, fun id content hmem => ?_, ?_, hs.rootWords_nonnull h.roots⟩
  · rw [h.roots] at hmem
    exact absurd hmem List.not_mem_nil
  refine h.begun.imp_right fun hbegun => ⟨hrep.empty hbegun.1, fun p hp => ?_⟩
  obtain ⟨-, hallocs, hforeign⟩ := hbegun
  have hslot : ∀ i : ℕ, s.top < i → i ≤ M.maxStack → load64 g.mem (slotAddress M i) ≠ 0 := by
    intro i hlow hhigh
    rcases Nat.lt_or_ge i M.maxStack with hlt | hge
    · rw [hrep.stack i hlt]
      exact hs.nonnull hallocs i hlow hlt
    · rw [Nat.le_antisymm hhigh hge, ← hrep.placed.bottom]
      exact hforeign _ List.mem_cons_self
  rcases hrep.scanned hs.top hroots hp with ⟨i, hlow, hhigh, rfl⟩ | hp
  · exact hslot i hlow hhigh
  · exact hforeign p (List.mem_cons_of_mem _ hp)

/-- A call without an allocation. -/
theorem Linked.stepped {action : Exec Word} (hmodel : ∀ E : Env M, op.model E = action) {w : Word} {s' : State}
    {g' : Globals} (h : Linked M s' g') (hrun : op.run M fuel mmap g = .ok (w, g')) (haction : action s = .ok w s')
    (hallocs : s'.allocs = s.allocs) : Stepped M fuel mmap op s g :=
  ⟨[], w, s', g', hrun, h, fun E _ => by rw [hmodel, haction], Nat.le_of_eq hallocs.symm, .nil,
    fun c hc => absurd hc List.not_mem_nil⟩

/-- A call that reads. -/
theorem Linked.read (h : Linked M s g) {action : Exec Word} (hmodel : ∀ E : Env M, op.model E = action)
    (hneeds : Succeeds M op s)
    (hread : ∀ os w s', Represents M s g os → action s = .ok w s' → s' = s ∧ op.run M fuel mmap g = .ok (w, g)) :
    Stepped M fuel mmap op s g := by
  obtain ⟨os, hrep⟩ := h.represents
  obtain ⟨w, s', haction⟩ := hneeds (Env.bump M fun _ => 0)
  rw [hmodel] at haction
  obtain ⟨rfl, hrun⟩ := hread os w s' hrep haction
  exact h.stepped hmodel hrun haction rfl

/-- The memory has changed, but not the words no state knows of. -/
theorem Linked.changed (h : Linked M s g) {s' : State} {m' : ByteMemory}
    (hrep : ∃ os', Represents M s' { g with mem := m' } os') (hroots : s'.extraRoots = s.extraRoots)
    (hallocs : s'.allocs = s.allocs) (hforeign : g.heap.end = 0 →
      ∀ q ∈ g.stackBottom :: wordsBetween g.startCustomData g.stopCustomData, load64 m' q = load64 g.mem q) :
    Linked M s' { g with mem := m' } := by
  refine ⟨hrep, hroots.trans h.roots, h.begun.imp_right fun hbegun => ?_⟩
  obtain ⟨hend, hzero, hnonnull⟩ := hbegun
  refine ⟨hend, hallocs.trans hzero, fun q hq => ?_⟩
  dsimp only
  rw [hforeign hend q hq]
  exact hnonnull q hq

/-- A constructor. -/
theorem Linked.constructed (h : Linked M s g) {concrete : Result (ℕ × Globals)}
    (hrun : op.run M fuel mmap g = addressOf concrete)
    (hsim : ∃ c s' g' os', Simulates M s g concrete (fun E => op.model E) c s' g' os') : Stepped M fuel mmap op s g := by
  obtain ⟨c, s', g', os', hsim⟩ := hsim
  refine ⟨[c], c.address, s', g', ?_, ⟨⟨os', hsim.represents⟩, hsim.roots, .inl ?_⟩, fun E hE => ?_, ?_,
    List.pairwise_singleton _ _, fun d hd => ?_⟩
  · rw [hrun, hsim.run, addressOf, Except.map, BitVec.ofNat_toNat, BitVec.setWidth_eq]
  · exact hsim.begun (h.begun.imp_right fun hbegun => hbegun.1)
  · exact hsim.model E (hE c List.mem_cons_self)
  · rw [hsim.allocs]
    exact Nat.le_succ _
  · obtain rfl := List.mem_singleton.mp hd
    rw [hsim.before, hsim.allocs]
    exact ⟨Nat.le_refl _, Nat.lt_succ_self _⟩

/-- A store to a slot. -/
theorem Linked.store (h : Linked M s g) {i : ℕ} {w : Word} (hneeds : Succeeds M (.store i w) s) :
    Stepped M fuel mmap (.store i w) s g := by
  obtain ⟨w', s', haction⟩ := hneeds (Env.bump M fun _ => 0)
  obtain ⟨u, s₁, hwrite, hret⟩ := exec_bind_ok.mp haction
  obtain ⟨rfl, -, hlt⟩ := writeSlot_ok hwrite
  cases hret
  obtain ⟨os, hrep⟩ := h.represents
  obtain ⟨hrep', hforeign⟩ := hrep.write (k := i) (by omega) w
  exact (h.changed ⟨os, hrep'⟩ rfl rfl fun _ => hforeign).stepped (fun _ => rfl) rfl haction rfl

/-- The slots of the arguments are reversed. -/
theorem Linked.reverse (h : Linked M s g) {a n : ℕ} (hend : a + n ≤ M.maxStack) :
    Stepped M fuel mmap (.reverse a n) s g := by
  obtain ⟨os, hrep⟩ := h.represents
  by_cases hn : n ≤ 1
  · have hrun : reverseSlots M a n s = .ok () s := if_pos hn
    have hsame : reverseWords g.mem (slotAddress M a) n = g.mem := by
      rcases Nat.le_one_iff_eq_zero_or_eq_one.mp hn with rfl | rfl <;> rfl
    refine h.stepped (fun _ => rfl) (w := 0) ?_ ((exec_bind_of_ok hrun).trans rfl) rfl
    rw [Op.run, hsame]
    rfl
  · obtain ⟨hrep', hforeign⟩ := hrep.reverse hend
    have hrun : reverseSlots M a n s = .ok () { s with
        stack := fun i => if a ≤ i ∧ i < a + n then s.stack (2 * a + n - 1 - i) else s.stack i } := by
      rw [reverseSlots, if_neg hn, if_neg (by omega), if_neg (by omega)]
    exact (h.changed ⟨os, hrep'⟩ rfl rfl fun _ => hforeign).stepped (fun _ => rfl) rfl
      ((exec_bind_of_ok hrun).trans rfl) rfl

/-- The top moves, which only the collector looks at. -/
theorem Linked.moveTop (h : Linked M s g) {t : ℤ} (htop : -1 ≤ t) : Stepped M fuel mmap (.moveTop t) s g := by
  obtain ⟨os, hrep⟩ := h.represents
  have hpos := M.stackWord_pos
  have hrep' : Represents M { s with top := t } { g with stackTop := (8 * (M.stackWord + t)).toNat } os := by
    refine ⟨hrep.heap, hrep.layout, hrep.clean, hrep.stack, ?_, ?_, hrep.cells, ⟨hrep.placed.chunk, hrep.placed.lt,
      hrep.placed.zone, hrep.placed.bottom, hrep.placed.stack, hrep.placed.custom, hrep.placed.apart,
      hrep.placed.foreign⟩, hrep.slack⟩
    · dsimp only
      omega
    · have hroots := hrep.roots
      rw [h.roots] at hroots ⊢
      dsimp only
      rw [List.forall₂_nil_left_iff.mp hroots]
      exact .nil
  have hlinked : Linked M { s with top := t } { g with stackTop := (8 * (M.stackWord + t)).toNat } :=
    ⟨⟨os, hrep'⟩, h.roots, h.begun⟩
  exact hlinked.stepped (fun _ => rfl) rfl rfl rfl

/-- An assignment to an element or through a reference. -/
theorem Linked.sta (h : Linked M s g) {x i v : Word} (hneeds : Succeeds M (.sta x i v) s) :
    Stepped M fuel mmap (.sta x i v) s g := by
  obtain ⟨w, s', haction⟩ := hneeds (Env.bump M fun _ => 0)
  obtain ⟨os, hrep⟩ := h.represents
  obtain ⟨rfl, os', hrep'⟩ := hrep.bsta haction
  obtain ⟨hroots, hallocs⟩ := Bsta_kept haction
  refine (h.changed ⟨os', hrep'⟩ hroots hallocs fun hend => ?_).stepped (fun _ => rfl) rfl haction hallocs
  obtain rfl := hrep.empty hend
  obtain ⟨k, hk, hslot⟩ := hrep.bsta_slot haction
  rw [hslot]
  exact (hrep.write hk v).2

/-- Every call. -/
theorem Linked.step (h : Linked M s g) (hneeds : op.Needs M s) (hsupplies : op.Supplies M fuel mmap g) :
    Stepped M fuel mmap op s g := by
  cases op with
  | load i =>
    refine h.read (fun _ => rfl) hneeds fun os w s' hrep haction => ?_
    obtain ⟨rfl, rfl, -, hlt⟩ := readSlot_ok haction
    refine ⟨rfl, ?_⟩
    rw [← hrep.stack i (by omega)]
    rfl
  | store i w => exact h.store hneeds
  | reverse a n => exact h.reverse hneeds
  | moveTop t => exact h.moveTop hneeds
  | deref ptr =>
    refine h.read (fun _ => rfl) hneeds fun os w s' hrep haction => ?_
    obtain ⟨rfl, rfl⟩ := hrep.loadWord haction
    exact ⟨rfl, rfl⟩
  | length p =>
    refine h.read (fun _ => rfl) hneeds fun os w s' hrep haction => ?_
    obtain ⟨rfl, rfl⟩ := hrep.llength haction
    exact ⟨rfl, rfl⟩
  | elem p i =>
    refine h.read (fun _ => rfl) hneeds fun os w s' hrep haction => ?_
    obtain ⟨rfl, rfl⟩ := hrep.belem haction
    exact ⟨rfl, rfl⟩
  | sta x i v => exact h.sta hneeds
  | tagHash p =>
    refine h.read (fun _ => rfl) hneeds fun os w s' hrep haction => ?_
    obtain ⟨rfl, hhash⟩ := hrep.ltagHash hsupplies haction
    refine ⟨rfl, ?_⟩
    rw [Op.run, hhash]
    rfl
  | tag d t n =>
    refine h.read (fun _ => rfl) hneeds fun os w s' hrep haction => ?_
    obtain ⟨rfl, rfl⟩ := hrep.btag haction
    exact ⟨rfl, rfl⟩
  | arrayPatt d n =>
    refine h.read (fun _ => rfl) hneeds fun os w s' hrep haction => ?_
    obtain ⟨rfl, rfl⟩ := hrep.barrayPatt haction
    exact ⟨rfl, rfl⟩
  | stringPatt x y =>
    refine h.read (fun _ => rfl) hneeds fun os w s' hrep haction => ?_
    obtain ⟨rfl, hanswer⟩ := hrep.bstringPatt hsupplies haction
    refine ⟨rfl, ?_⟩
    rw [Op.run, hanswer]
    rfl
  | closureTagPatt x =>
    refine h.read (fun _ => rfl) hneeds fun os w s' hrep haction => ?_
    obtain ⟨rfl, rfl⟩ := hrep.tagPatt .closure (fun o => by cases o <;> rfl) haction
    exact ⟨rfl, rfl⟩
  | arrayTagPatt x =>
    refine h.read (fun _ => rfl) hneeds fun os w s' hrep haction => ?_
    obtain ⟨rfl, rfl⟩ := hrep.tagPatt .array (fun o => by cases o <;> rfl) haction
    exact ⟨rfl, rfl⟩
  | stringTagPatt x =>
    refine h.read (fun _ => rfl) hneeds fun os w s' hrep haction => ?_
    obtain ⟨rfl, rfl⟩ := hrep.tagPatt .string (fun o => by cases o <;> rfl) haction
    exact ⟨rfl, rfl⟩
  | sexpTagPatt x =>
    refine h.read (fun _ => rfl) hneeds fun os w s' hrep haction => ?_
    obtain ⟨rfl, rfl⟩ := hrep.tagPatt .sexp (fun o => by cases o <;> rfl) haction
    exact ⟨rfl, rfl⟩
  | array args n =>
    obtain ⟨hsound, hoperands⟩ := hneeds
    obtain ⟨hfuel, hmmap⟩ := hsupplies
    obtain ⟨os, hready⟩ := h.ready hsound
    exact h.constructed rfl (Barray_simulates hready h.roots hoperands.above hoperands.inStack hoperands.few hfuel hmmap)
  | closure args n =>
    obtain ⟨hsound, hoperands⟩ := hneeds
    obtain ⟨hfuel, hmmap⟩ := hsupplies
    obtain ⟨os, hready⟩ := h.ready hsound
    exact h.constructed rfl (Bclosure_simulates hready h.roots hoperands.above hoperands.inStack hoperands.few hfuel hmmap)
  | sexp args n =>
    obtain ⟨hsound, hpos, hoperands⟩ := hneeds
    obtain ⟨hfuel, hmmap⟩ := hsupplies
    obtain ⟨os, hready⟩ := h.ready hsound
    obtain ⟨n, rfl⟩ := Nat.exists_eq_succ_of_ne_zero (Nat.ne_of_gt hpos)
    exact h.constructed rfl (Bsexp_simulates hready h.roots hoperands.above hoperands.inStack hoperands.few hfuel hmmap)
  | string cell bytes =>
    obtain ⟨hsound, hlen⟩ := hneeds
    obtain ⟨⟨hfuel, hmmap⟩, hbytes, hcell⟩ := hsupplies
    obtain ⟨os, hready⟩ := h.ready hsound
    exact h.constructed rfl (Bstring_simulates hready h.roots hcell hlen hbytes hfuel hmmap)

end Step

/-! ### One environment for a run -/

section Choices

variable {M : Machine}

/-- What an environment answers where the allocations of a run ask it, if they are told apart by their numbers. -/
theorem exists_env (cs : List (Choice M)) (hcs : cs.Pairwise fun c d => c.before.allocs < d.before.allocs) :
    ∃ E : Env M, ∀ c ∈ cs, c.Follows E := by
  have hunique : ∀ c ∈ cs, ∀ d ∈ cs, c.before.allocs = d.before.allocs → c = d := by
    intro c hc d hd heq
    by_contra hne
    have hsymm : Std.Symm fun c d : Choice M => c.before.allocs ≠ d.before.allocs := ⟨fun _ _ h => h.symm⟩
    have hpairwise : cs.Pairwise fun c d => c.before.allocs ≠ d.before.allocs := hcs.imp fun h => Nat.ne_of_lt h
    exact hpairwise.forall hc hd hne heq
  have hcollect : ∀ (k : ℕ) (h : Heap) (roots : List Word), ∃ answer : Option (Heap × (Word → Word)),
      (∀ heap forward, answer = some (heap, forward) → Relocates M.heapZone h roots heap forward) ∧
      ∀ c ∈ cs, c.before.allocs = k → c.before.heap = h → rootWords M c.before = roots →
        (answer = none ∧ c.after = c.before) ∨
          ∃ heap forward, answer = some (heap, forward) ∧
            c.after = c.before.collected M heap forward c.after.slack := by
    intro k h roots
    by_cases hasked : ∃ c ∈ cs, c.before.allocs = k ∧ c.before.heap = h ∧ rootWords M c.before = roots
    · obtain ⟨c, hc, rfl, rfl, rfl⟩ := hasked
      rcases c.prepared with hsame | ⟨heap, forward, slack, hrel, hafter⟩
      · refine ⟨none, fun _ _ heq => (by cases heq), fun d hd hk _ _ => ?_⟩
        obtain rfl := hunique d hd c hc hk
        exact .inl ⟨rfl, hsame⟩
      · refine ⟨some (heap, forward), fun _ _ heq => ?_, fun d hd hk _ _ => ?_⟩
        · cases heq
          exact hrel
        · obtain rfl := hunique d hd c hc hk
          refine .inr ⟨heap, forward, rfl, ?_⟩
          rw [hafter]
          rfl
    · exact ⟨none, fun _ _ heq => (by cases heq), fun c hc hk hh hr => absurd ⟨c, hc, hk, hh, hr⟩ hasked⟩
  have hplace : ∀ (k : ℕ) (h : Heap), ∃ answer : Option Word,
      (∀ a, answer = some a → M.heapZone a = true ∧ h a = none) ∧
      ∀ c ∈ cs, c.before.allocs = k → c.after.heap = h → answer = some c.address := by
    intro k h
    by_cases hasked : ∃ c ∈ cs, c.before.allocs = k ∧ c.after.heap = h
    · obtain ⟨c, hc, rfl, rfl⟩ := hasked
      refine ⟨some c.address, fun _ heq => ?_, fun d hd hk _ => ?_⟩
      · cases heq
        exact ⟨c.zone, c.free⟩
      · obtain rfl := hunique d hd c hc hk
        rfl
    · exact ⟨none, fun _ heq => (by cases heq), fun c hc hk hh => absurd ⟨c, hc, hk, hh⟩ hasked⟩
  have hslack : ∀ k : ℕ, ∃ slack, ∀ c ∈ cs, c.before.allocs = k → c.after.slack = slack := by
    intro k
    by_cases hasked : ∃ c ∈ cs, c.before.allocs = k
    · obtain ⟨c, hc, rfl⟩ := hasked
      exact ⟨c.after.slack, fun d hd hk => by rw [hunique d hd c hc hk]⟩
    · exact ⟨fun _ _ => 0, fun c hc hk => absurd ⟨c, hc, hk⟩ hasked⟩
  choose collect hcollects hcollected using hcollect
  choose place hplaces hplaced using hplace
  choose slack hslack using hslack
  refine ⟨{ Env.bump M fun _ => 0 with
    place := place
    collect := collect
    slack := slack
    place_free := hplaces
    collect_relocates := fun k h roots heap forward => hcollects k h roots heap forward }, fun c hc => ?_⟩
  have hat := hplaced c.before.allocs c.after.heap c hc rfl rfl
  have hnumber := c.prepared.allocs
  have htop := c.top
  have hgarbage : ∀ E : Env M, E.collect = collect → E.slack = slack →
      collectGarbage E c.before = .ok () c.after := by
    rintro E rfl rfl
    unfold collectGarbage
    rw [if_neg fun h => c.nonnull h.1 h.2]
    rcases hcollected c.before.allocs c.before.heap (rootWords M c.before) c hc rfl rfl rfl with
      ⟨hnone, hafter⟩ | ⟨heap, forward, hsome, hafter⟩
    · rw [hnone, hafter]
    · rw [hsome, hafter, hslack c.before.allocs c hc rfl]
      exact if_neg (by omega)
  refine (exec_bind_of_ok (hgarbage _ rfl rfl)).trans ?_
  dsimp only
  rw [hnumber, hat]

/-- Memory simulates the state, with the environment as the oracle. -/
def simulation (M : Machine) (fuel : ℕ) (mmap : Globals → ℕ → Option ℕ) :
    Simulation Op Word State Globals (Env M) (Choice M) where
  spec E op s w s' := op.model E s = .ok w s'
  impl op g w g' := op.run M fuel mmap g = .ok (w, g')
  linked := Linked M
  needs op := op.Needs M
  supplies op := op.Supplies M fuel mmap
  Follows := Choice.Follows
  number c := c.before.allocs
  clock s := s.allocs
  realized := exists_env
  step := Linked.step

variable {s : State} {g : Globals} {fuel : ℕ} {mmap : Globals → ℕ → Option ℕ} {client : Client Op Word}

end Choices

/-! ### A client on a full heap -/

def noFile : Bytefile := .ofCode []

theorem noFile_length : noFile.bytes.length ≤ 2 ^ 32 := by decide

theorem fourSlots : 4 ≤ 2 ^ 32 := by decide

/-- A stack of four words. -/
def smallMachine : Machine := Machine.layout noFile 4 noFile_length fourSlots

theorem smallMachine_zone {w : Word} (heven : w.toNat % 2 = 0) (hlow : 2 ^ 50 ≤ w.toNat) :
    smallMachine.heapZone w = true := by
  simp only [smallMachine, Machine.layout, Bool.and_eq_true, beq_iff_eq, decide_eq_true_iff]
  exact ⟨heven, hlow⟩

/-- A text that is longer than a new buffer. -/
def longText : List UInt8 := List.replicate 130 97

/-- An array no word points to, one that the stack points to, and the string it holds. -/
def fullObjects : List Obj := [.array [11], .array [0x4000000000040], .string (longText ++ [0])]

/-- The words of the objects and of the stack, with the addresses. -/
def fullWords : List (ℕ × Word) :=
  [(2 ^ 50, headerOf arrayTag 1), (2 ^ 50 + 8, 0), (2 ^ 50 + 16, 11), (2 ^ 50 + 24, headerOf arrayTag 1), (2 ^ 50 + 32, 0),
    (2 ^ 50 + 40, 0x4000000000040), (2 ^ 50 + 48, headerOf stringTag 130), (2 ^ 50 + 56, 0), (2 ^ 43 + 24, 0x4000000000028)]

/-- Memory with a full heap: an allocation has to collect. The bytes nothing is said of are 1. -/
def fullGlobals : Globals where
  mem := fullWords.foldl (fun m p => store64 m p.1 p.2)
    (storeBytes ⟨fun _ => 1⟩ (2 ^ 50 + 64) (longText ++ [0]))
  heap := ⟨2 ^ 50, 2 ^ 50 + 200, 2 ^ 50 + 200, 25⟩
  extraRoots := []
  stackTop := slotAddress smallMachine 2
  stackBottom := slotAddress smallMachine 4
  startCustomData := 8
  stopCustomData := 16

/-- The state it represents. -/
def fullState : State :=
  { emptyState (Env.bump smallMachine fun _ => 0) with
    stack := fun i => if i = 3 then 0x4000000000028 else 0x0101010101010101
    top := 2
    heap := heapOf (2 ^ 50) fullObjects
    slack := slackOf fullGlobals.mem
    allocs := 3 }

theorem fullObjects_laid : laid room (2 ^ 50) fullObjects = [(2 ^ 50, .array [11]),
    (2 ^ 50 + 24, .array [0x4000000000040]), (2 ^ 50 + 48, .string (longText ++ [0]))] := rfl

theorem mem_fullObjects {j : ℕ} {o : Obj} (h : (j, o) ∈ laid room fullGlobals.heap.begin fullObjects) :
    j = 2 ^ 50 ∧ o = .array [11] ∨ j = 2 ^ 50 + 24 ∧ o = .array [0x4000000000040] ∨
      j = 2 ^ 50 + 48 ∧ o = .string (longText ++ [0]) := by
  have h : (j, o) ∈ laid room (2 ^ 50) fullObjects := h
  rw [fullObjects_laid] at h
  simpa only [List.mem_cons, Prod.mk.injEq, List.not_mem_nil, or_false] using h

set_option maxRecDepth 4000 in
theorem fullObjects_at {j : ℕ} {o : Obj} (h : (j, o) ∈ laid room fullGlobals.heap.begin fullObjects) :
    ObjAt fullGlobals.mem j o := by
  obtain ⟨rfl, rfl⟩ | ⟨rfl, rfl⟩ | ⟨rfl, rfl⟩ := mem_fullObjects h
  · refine ⟨⟨by decide, by decide, by decide⟩, fun k w hk => ?_⟩
    obtain ⟨rfl, rfl⟩ : k = 0 ∧ 11 = w := by simpa [List.getElem?_singleton, and_comm] using hk
    decide
  · refine ⟨⟨by decide, by decide, by decide⟩, fun k w hk => ?_⟩
    obtain ⟨rfl, rfl⟩ : k = 0 ∧ 0x4000000000040 = w := by simpa [List.getElem?_singleton, and_comm] using hk
    decide
  · have hbytes : bytesFrom fullGlobals.mem (2 ^ 50 + 64) (longText ++ [0]).length = longText ++ [0] := by decide
    exact ⟨⟨by decide, by decide, by decide⟩, hbytes⟩

/-- The heap has three objects. -/
theorem fullState_heap {a : Word} {o : Obj} (h : fullState.heap a = some o) :
    a = 0x4000000000010 ∧ o = .array [11] ∨ a = 0x4000000000028 ∧ o = .array [0x4000000000040] ∨
      a = 0x4000000000040 ∧ o = .string (longText ++ [0]) := by
  obtain ⟨j, hj, ha⟩ := heapOf_eq_some.mp h
  have hword : ∀ b : Word, a.toNat = b.toNat → a = b := fun b => BitVec.eq_of_toNat_eq
  obtain ⟨rfl, rfl⟩ | ⟨rfl, rfl⟩ | ⟨rfl, rfl⟩ := mem_fullObjects hj
  · exact .inl ⟨hword _ ha, rfl⟩
  · exact .inr (.inl ⟨hword _ ha, rfl⟩)
  · exact .inr (.inr ⟨hword _ ha, rfl⟩)

theorem fullState_array : fullState.heap 0x4000000000028 = some (.array [0x4000000000040]) := rfl

theorem fullState_string : fullState.heap 0x4000000000040 = some (.string (longText ++ [0])) := rfl

set_option maxRecDepth 4000 in
theorem fullRepresents : Represents smallMachine fullState fullGlobals fullObjects := by
  refine ⟨rfl, ⟨fun j o => fullObjects_at, rfl, by decide, by decide⟩, fun j o hj => ?_, fun i hi => ?_, rfl, .nil, .nil,
    ⟨⟨rfl, by decide⟩, by decide, fun w heven _ hlow _ => smallMachine_zone heven hlow, rfl, .inl (by decide),
      .inl (by decide), .inl (by decide), by decide⟩, slackAt_slackOf⟩
  · unfold Marked Enqueued
    obtain ⟨rfl, -⟩ | ⟨rfl, -⟩ | ⟨rfl, -⟩ := mem_fullObjects hj <;> decide
  · have hslots : ∀ i < 4, load64 fullGlobals.mem (slotAddress smallMachine i) = fullState.stack i := by decide
    exact hslots i hi

theorem fullLinked : Linked smallMachine fullState fullGlobals :=
  ⟨⟨fullObjects, fullRepresents⟩, rfl, .inl (by decide)⟩

/-- The pointers of the objects lead to objects. -/
theorem fullHeap_valid : HeapValid smallMachine fullState.heap := by
  refine ⟨fun a ha => ?_, fun a o ho w hw => ?_⟩
  · obtain ⟨o, ho⟩ := Option.isSome_iff_exists.mp ha
    obtain ⟨rfl, -⟩ | ⟨rfl, -⟩ | ⟨rfl, -⟩ := fullState_heap ho <;> decide
  · obtain ⟨-, rfl⟩ | ⟨-, rfl⟩ | ⟨-, rfl⟩ := fullState_heap ho
    · obtain rfl := List.mem_singleton.mp hw
      exact valid_of_odd (by decide)
    · obtain rfl := List.mem_singleton.mp hw
      exact fun _ => Option.isSome_iff_exists.mpr ⟨_, fullState_string⟩
    · exact absurd hw List.not_mem_nil


/-- Makes an array beside the full heap and goes on with the object the stack leads to. -/
def movingClient : Client Op Word :=
  .call (.store 2 (boxInt 5)) fun _ => .call (.moveTop 1) fun _ => .call (.array 2 1) fun a =>
    .call (.store 2 a) fun _ => .call (.load 3) fun b => .call (.elem b (boxInt 0)) fun t =>
      .call (.length t) fun _ => .done

theorem Llength_eq {s : State} {stack : ℤ → Word} {a : Word} {o : Obj} (h : s.heap a = some o) :
    LamaSM.Llength a { s with stack := stack } = .ok (boxInt o.len) { s with stack := stack } := by
  have hget : getObj a { s with stack := stack } = .ok o { s with stack := stack } := getObj_eq h
  rw [LamaSM.Llength, exec_bind_of_ok hget]
  rfl

/-- The state before the allocation -/
def callingState : State :=
  { fullState with stack := Function.update fullState.stack 2 (boxInt 5), top := 1 }

theorem callingState_sound : Sound smallMachine callingState := by
  refine ⟨⟨fun i hlow hhigh => ?_, fullHeap_valid, fun w hw => absurd hw List.not_mem_nil⟩, by decide,
    fun hfirst => absurd hfirst (by decide)⟩
  have hlow : 1 < i := hlow
  have hhigh : i < 4 := hhigh
  obtain rfl | rfl : i = 2 ∨ i = 3 := by omega
  · exact valid_of_odd (by decide)
  · exact fun _ => Option.isSome_iff_exists.mpr ⟨_, fullState_array⟩

/-- Reading goes on in the objects the collection has moved. -/
theorem movingClient_needs : movingClient.Always
    (fun op s w s' => ∃ E : Env smallMachine, op.model E s = .ok w s') (Op.Needs smallMachine) fullState := by
  refine ⟨fun _ => ⟨_, _, rfl⟩, ?_⟩
  rintro w s₁ ⟨E, hrun⟩
  cases hrun
  refine ⟨show (-1 : ℤ) ≤ 1 by decide, ?_⟩
  rintro w s₂ ⟨E, hrun⟩
  cases hrun
  refine ⟨⟨callingState_sound, by decide, by decide, by decide⟩, ?_⟩
  rintro a s₃ ⟨E, hrun⟩
  have hrun : LamaSM.Barray E 2 1 callingState = .ok a s₃ := hrun
  obtain ⟨relocate, heap, hcollected, hstack, hkept⟩ := Barray_collected hrun
  have harray := hkept _ _ (hcollected.object (i := 3) (by decide) (by decide) (by decide) fullState_array)
  have hstring := hkept _ _ (hcollected.pointed (i := 3) (by decide) (by decide) fullState_array
    List.mem_cons_self (by decide) fullState_string)
  refine ⟨fun _ => ⟨_, _, rfl⟩, ?_⟩
  rintro w s₄ ⟨E, hrun⟩
  cases hrun
  refine ⟨fun _ => ⟨_, _, rfl⟩, ?_⟩
  rintro b s₅ ⟨E, hrun⟩
  obtain ⟨rfl, rfl, -⟩ := readSlot_ok hrun
  have hb : Function.update s₃.stack 2 a 3 = relocate 0x4000000000028 := by
    rw [Function.update_of_ne (by decide), hstack]
    rfl
  dsimp only [Nat.cast_ofNat]
  rw [hb]
  have helem : ∀ stack, LamaSM.Belem (relocate 0x4000000000028) (boxInt 0) { s₃ with stack := stack } =
      .ok (relocate 0x4000000000040) { s₃ with stack := stack } := fun stack => by
    have hget : getObj (relocate 0x4000000000028) { s₃ with stack := stack } = .ok _ { s₃ with stack := stack } :=
      getObj_eq harray
    rw [LamaSM.Belem, exec_bind_of_ok hget]
    rfl
  refine ⟨fun _ => ⟨_, _, helem _⟩, ?_⟩
  rintro t s₆ ⟨E, hrun⟩
  have hanswer := (helem _).symm.trans hrun
  cases hanswer
  exact ⟨fun _ => ⟨_, _, Llength_eq hstring⟩, fun _ _ _ => trivial⟩


/-- A region far above everything else -/
theorem fullFresh {m : ByteMemory} {top live words : ℕ} {roots : List ℕ} (hroots : ∀ p ∈ roots, p ≤ 2 ^ 50)
    (hlive : live * 8 ≤ 200) (hwords : words ≤ 20) :
    Fresh smallMachine { fullGlobals with mem := m, stackTop := top, extraRoots := roots } (2 ^ 55) (wordsToBytes
      (nextHeapPseudoSize { fullGlobals with mem := m, stackTop := top, extraRoots := roots } live words)) := by
  have hsize : nextHeapPseudoSize { fullGlobals with mem := m, stackTop := top, extraRoots := roots } live words ≤ 128 := by
    unfold nextHeapPseudoSize extraRoomHeapCoefficient
    rw [sizeT_of_lt (by omega)]
    exact Nat.max_le.mpr ⟨Nat.max_le.mpr ⟨by omega, by decide⟩, show 25 ≤ 128 by decide⟩
  have hstack : slotAddress smallMachine 4 + 8 ≤ 2 ^ 55 := by decide
  unfold wordsToBytes wordSize
  refine ⟨by decide, by omega, .inr (show 2 ^ 50 + 200 ≤ 2 ^ 55 by decide), .inr hstack,
    .inr (show customEnd fullGlobals ≤ 2 ^ 55 by decide), fun p hp => .inl ?_,
    fun w heven hlow _ => smallMachine_zone heven (by omega)⟩
  have hp := hroots p hp
  omega

theorem movingClient_supplied : movingClient.Always
    (fun op g w g' => op.run smallMachine 201 (fun _ _ => some (2 ^ 55)) g = .ok (w, g'))
    (Op.Supplies smallMachine 201 fun _ _ => some (2 ^ 55)) fullGlobals := by
  refine ⟨trivial, fun w g' hrun => ?_⟩
  cases hrun
  refine ⟨trivial, fun w g' hrun => ?_⟩
  cases hrun
  refine ⟨⟨by decide, fun live hlive => ⟨_, rfl, ?_⟩⟩, fun _ _ _ => ⟨trivial, fun _ _ _ => ⟨trivial, fun _ _ _ =>
    ⟨trivial, fun _ _ _ => ⟨trivial, fun _ _ _ => trivial⟩⟩⟩⟩⟩
  exact fullFresh (by decide) hlive (by decide)

end Gc
end LamaSM
