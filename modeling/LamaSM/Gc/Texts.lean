import LamaSM.Gc.Operations
import LamaSM.Gc.Printing

/-! `Lstring` (`runtime/runtime.c`): the text of a value as an object.

    The buffer with the text is a block from `malloc`, and its address goes through a local variable that is
    rooted with the argument. Neither is a heap address to the collector, so the characters are still there
    when the object has been allocated. -/

namespace LamaSM
namespace Gc
open Lib

/-- `Lstring`; `args` is the address of `args[0]` and `content` that of the local variable. No byte of the
    buffer is read again after it has been freed. -/
def Lstring (g : Globals) (fuel : ℕ) (mmap malloc : ℕ → Option ℕ) (args content : ℕ) : Result (ℕ × Globals) := do
  let (m, buf) ← createStringBuf malloc g.mem >>= fun s => printValue malloc g.heap fuel fuel (load64 s.1 args) s
  let g ← pushExtraRoot { g with mem := m } args
  let (s, g) ← Bstring { g with mem := store64 g.mem content (BitVec.ofNat 64 buf.contents) } fuel mmap content
  let g ← popExtraRoot g args
  return (s, g)

/-! ### Where things lie -/

/-- The argument of `Lstring` is a slot above the top, or a word elsewhere it has been copied to. -/
inductive Argument (M : Machine) (s : State) (g : Globals) (content : ℕ) (a : Word) : RootRef → ℕ → Prop
  | slot {i : ℕ} : s.top < i → i < M.maxStack → s.stack i = a → Argument M s g content a (.slot i) (slotAddress M i)
  | cell {id p : ℕ} : Elsewhere M g p → load64 g.mem p = a → (p + 8 ≤ content ∨ content + 8 ≤ p) →
      Argument M s g content a (.cell id a) p

/-- The system has memory for a text of `n` characters, in blocks that lie apart from everything else and have
    no heap addresses. -/
structure Blocks (M : Machine) (g : Globals) (mmap malloc : ℕ → Option ℕ) (cells : List ℕ) (n : ℕ) : Prop where
  enough : Mallocs malloc n
  nonnull : ∀ len a, malloc len = some a → 0 < a ∧ a < 2 ^ 64
  zone : ∀ len a, malloc len = some a → M.heapZone (BitVec.ofNat 64 a) = false
  heap : ∀ len a, malloc len = some a → a + len ≤ g.heap.begin ∨ g.heap.end ≤ a
  stack : ∀ len a, malloc len = some a → a + len ≤ slotAddress M 0 ∨ slotAddress M M.maxStack + 8 ≤ a
  custom : ∀ len a, malloc len = some a → a + len ≤ g.startCustomData ∨ customEnd g ≤ a
  cells : ∀ len a, malloc len = some a → ∀ p ∈ cells, a + len ≤ p ∨ p + 8 ≤ a
  mapped : ∀ len a, malloc len = some a → ∀ size start, mmap size = some start → a + len ≤ start ∨ start + size ≤ a

section Lstring

variable {M : Machine} {s : State} {g : Globals} {os : List Obj} {m' : ByteMemory} {p args content n fuel : ℕ}
  {mmap malloc : ℕ → Option ℕ} {text : List UInt8} {a : Word} {ref : RootRef}

/-- What happens outside the heap, the stack and the global area does not matter. -/
theorem Ready.elsewhere (h : Ready M s g os) (hnone : s.extraRoots = [])
    (hheap : ∀ b, g.heap.begin ≤ b → b < g.heap.end → m' b = g.mem b)
    (hstack : ∀ b, slotAddress M 0 ≤ b → b < slotAddress M M.maxStack + 8 → m' b = g.mem b)
    (hcustom : ∀ b, g.startCustomData ≤ b → b < customEnd g → m' b = g.mem b) : Ready M s { g with mem := m' } os := by
  have hrep := h.represents
  have hplaced := hrep.placed
  have hg := hrep.noRoots hnone
  have hslot : ∀ i : ℕ, i ≤ M.maxStack → load64 m' (slotAddress M i) = load64 g.mem (slotAddress M i) := by
    intro i hi
    refine Copied.load64 fun k hk => hstack _ ?_ ?_
    · unfold slotAddress
      omega
    · unfold slotAddress
      omega
  have hglobal : ∀ p ∈ wordsBetween g.startCustomData g.stopCustomData, load64 m' p = load64 g.mem p := by
    intro p hp
    have hbounds := mem_custom hp
    exact Copied.load64 fun k hk => hcustom _ (by omega) (by omega)
  obtain ⟨hlayout, hclean⟩ := hrep.outHeap hheap
  have hfilled := hplaced.chunk.filled
  have hslack : SlackAt m' g.heap.begin os s.slack := hrep.slack.kept fun j o hj b hlow hhigh => by
    have hplace := hrep.layout.place hj
    exact hheap b (by omega) (by omega)
  refine ⟨⟨hrep.heap, hlayout, hclean, fun i hi => ?_, hrep.top, ?_, hrep.cells, ⟨hplaced.chunk, hplaced.lt, hplaced.zone,
    hplaced.bottom, hplaced.stack, hplaced.custom, hplaced.apart, fun p hp => ?_⟩, hslack⟩, h.held, h.top, h.cells,
    h.begun.imp_right fun hbegun => ⟨hbegun.1, fun p hp => ?_⟩, h.nonnull⟩
  · exact (hslot i (Nat.le_of_lt hi)).trans (hrep.stack i hi)
  · dsimp only
    rw [hnone, hg]
    exact .nil
  · have hforeign := hplaced.foreign p hp
    dsimp only
    rcases List.mem_cons.mp hp with rfl | hp
    · rw [hplaced.bottom, hslot _ (Nat.le_refl _), ← hplaced.bottom]
      exact hforeign
    · rw [hglobal p hp]
      exact hforeign
  · have hnonnull := hbegun.2 p hp
    dsimp only
    rcases hrep.scanned h.top hg hp with ⟨i, -, hi, rfl⟩ | hp
    · rwa [hslot i hi]
    · rwa [hglobal p hp]

/-- The word at `args[0]` -/
theorem Argument.word (harg : Argument M s g content a ref args) (h : Represents M s g os) : load64 g.mem args = a := by
  cases harg with
  | slot _ hhigh hslot => exact (h.stack _ hhigh).trans hslot
  | cell _ hword _ => exact hword

/-- The argument is a root, with the local variable. -/
theorem Argument.rootAt (harg : Argument M s g content a ref args) {refs : List RootRef} {roots : List ℕ}
    (hm : load64 m' args = load64 g.mem args) :
    RootAt M { s with extraRoots := refs } { g with mem := m', extraRoots := roots } ref args := by
  cases harg with
  | slot hlow hhigh _ => exact .slot hlow hhigh
  | cell helse hword _ =>
    refine .cell ⟨helse.stack, helse.custom, helse.heap⟩ (.inl ?_)
    dsimp only
    rw [hm, hword]

/-- A value is printed from memory as from the state. -/
theorem Ready.printing (h : Ready M s g os) (hblocks : Blocks M g mmap malloc [args, content] n)
    (hfuel : g.heap.current - g.heap.begin < fuel) : Printing malloc g os s.slack n fuel :=
  have hrep := h.represents
  ⟨hrep.layout, hrep.slack, hrep.placed.chunk.filled, hrep.placed.lt.trans_le (by decide), hblocks.enough, hblocks.heap,
    hfuel⟩

/-- Pushing the argument before the constructor is the same as rooting it with the rest. -/
theorem construct_rooted (g : Globals) (args : ℕ) {allocate : Globals → Result (ℕ × Globals)}
    {fill : ByteMemory → ℕ → ByteMemory} {roots : List ℕ} :
    (do
      let g ← pushExtraRoot g args
      let (s, g) ← construct g roots allocate fill
      let g ← popExtraRoot g args
      return (s, g)) = construct g (args :: roots) allocate fill := by
  simp only [construct, List.foldlM_cons, List.reverse_cons, List.foldlM_append, List.foldlM_nil, bind_assoc, pure_bind,
    bind_pure]

/-- The code after the text is there: the constructor with two roots -/
theorem Lstring_eq {m : ByteMemory} {buf : StringBuf} (hnone : g.extraRoots = [])
    (hprint : (createStringBuf malloc g.mem >>= fun s => printValue malloc g.heap fuel fuel (load64 s.1 args) s) =
      .ok (m, buf))
    (hstrlen : strlen (store64 m content (BitVec.ofNat 64 buf.contents)) fuel
      (load64 (store64 m content (BitVec.ofNat 64 buf.contents)) content).toNat = some n) :
    Lstring g fuel mmap malloc args content =
      construct { g with mem := store64 m content (BitVec.ofNat 64 buf.contents) } [args, content] (fun g => do
        let (s, g) ← LmakeString g fuel mmap (boxInt n)
        return (toData s, g)) fun m contents => strncpy m contents (load64 m content).toNat (n + 1) := by
  have hpush : ∀ m, pushExtraRoot { g with mem := m } args = .ok { g with mem := m, extraRoots := [args] } := by
    intro m
    rw [pushExtraRoot, hnone]
    rfl
  rw [← construct_rooted, hpush, Lstring, hprint, except_ok_bind, except_ok_bind]
  dsimp only
  rw [hpush, except_ok_bind, Bstring]
  dsimp only
  rw [hstrlen]

section Printed

variable {m : ByteMemory} {buf : StringBuf} {w : Word} (hblocks : Blocks M g mmap malloc [args, content] n)
  (hbuf : Printed malloc g.mem m buf text)

include hblocks hbuf

/-- The buffer and the local variable lie where a collection does not look. -/
theorem Printed.ready (h : Ready M s g os) (hnone : s.extraRoots = []) (hcontent : Elsewhere M g content) :
    Ready M s { g with mem := store64 m content w } os := by
  have hmem : ∀ b, (∀ len c, malloc len = some c → b < c ∨ c + len ≤ b) → (b < content ∨ content + 8 ≤ b) →
      store64 m content w b = g.mem b := fun b hb hc => (store64_of_not_mem hc).trans (hbuf.rest b hb)
  have hstack := hcontent.stack
  have hcustom := hcontent.custom
  have hheap := hcontent.heap
  refine h.elsewhere hnone (fun b hlow hhigh => hmem b (fun len c hc => ?_) (by omega))
    (fun b hlow hhigh => hmem b (fun len c hc => ?_) (by omega))
    fun b hlow hhigh => hmem b (fun len c hc => ?_) (by omega)
  · have := hblocks.heap len c hc
    omega
  · have := hblocks.stack len c hc
    omega
  · have := hblocks.custom len c hc
    omega

/-- The argument is still there. -/
theorem Printed.argument (harg : Argument M s g content a ref args) (hcontent : Elsewhere M g content) :
    load64 (store64 m content w) args = load64 g.mem args := by
  refine Copied.load64 fun k hk => (store64_of_not_mem ?_).trans (hbuf.rest _ fun len c hc => ?_)
  · have hstack := hcontent.stack
    cases harg with
    | slot hlow hhigh _ =>
      unfold slotAddress at *
      omega
    | cell _ _ hapart => omega
  · have := hblocks.cells len c hc args List.mem_cons_self
    omega

/-- The local variable points to the characters, which outlive a collection. -/
theorem Printed.cStringAt (hcontent : Elsewhere M g content)
    (hready : Ready M s { g with mem := store64 m content (BitVec.ofNat 64 buf.contents), extraRoots := [args, content] } os) :
    CStringAt M { g with mem := store64 m content (BitVec.ofNat 64 buf.contents) } mmap [args, content] content text := by
  obtain ⟨hpos, hlt⟩ := hblocks.nonnull _ _ hbuf.place
  have haddress : (BitVec.ofNat 64 buf.contents).toNat = buf.contents := by
    rw [BitVec.toNat_ofNat, Nat.mod_eq_of_lt hlt]
  have hfits := hbuf.fits
  have hload : load64 (store64 m content (BitVec.ofNat 64 buf.contents)) content = BitVec.ofNat 64 buf.contents :=
    load64_store64
  have hcells := hblocks.cells _ _ hbuf.place
  refine ⟨List.mem_cons_of_mem _ List.mem_cons_self, ⟨hcontent.stack, hcontent.custom, hcontent.heap⟩, ?_, ?_, ?_, ?_,
    fun q hq => ?_, fun size start hmap => ?_⟩
  all_goals dsimp only
  all_goals rw [hload]
  · exact hblocks.zone _ _ hbuf.place
  · intro hzero
    rw [hzero] at haddress
    have hnull : (0 : Word).toNat = 0 := rfl
    omega
  · rw [haddress]
    refine hbuf.chars.copied fun k hk => store64_of_not_mem ?_
    have := hcells content (List.mem_cons_of_mem _ List.mem_cons_self)
    omega
  · rw [haddress]
    have := hblocks.heap _ _ hbuf.place
    omega
  · rw [haddress]
    rcases List.mem_append.mp hq with hq | hq
    · rcases List.mem_append.mp hq with hq | hq
      · obtain ⟨i, -, hi, rfl⟩ := (hready.represents.mem_region hready.top).mp hq
        have := hblocks.stack _ _ hbuf.place
        unfold slotAddress at *
        omega
      · have := hcells q (List.mem_of_mem_filter hq)
        omega
    · have := mem_custom hq
      have hcustom := hblocks.custom _ _ hbuf.place
      unfold customEnd at *
      dsimp only at this
      omega
  · rw [haddress]
    have := hblocks.mapped _ _ hbuf.place size start hmap
    omega

/-- The argument and the local variable can be rooted. -/
theorem Printed.rooted (h : Ready M s g os) (hnone : s.extraRoots = []) (harg : Argument M s g content a ref args)
    (hcontent : Elsewhere M g content) (hvalid : Valid M s.heap a) (hnull : 0 < g.heap.begin ∨ a ≠ 0)
    (hfirst : s.allocs = 0 → a ≠ 0) :
    Ready M { s with extraRoots := [.cell 1 1, ref] } { g with
      mem := store64 m content (BitVec.ofNat 64 buf.contents), extraRoots := [args, content] } os := by
  obtain ⟨hpos, hlt⟩ := hblocks.nonnull _ _ hbuf.place
  have hbuffer : BitVec.ofNat 64 buf.contents ≠ 0 := by
    intro hzero
    have hnat := congrArg BitVec.toNat hzero
    rw [BitVec.toNat_ofNat, Nat.mod_eq_of_lt hlt] at hnat
    exact absurd hnat (Nat.ne_of_gt hpos)
  have hargs := hbuf.argument (w := BitVec.ofNat 64 buf.contents) hblocks harg hcontent
  have hapart : args + 8 ≤ content ∨ content + 8 ≤ args ∨
      ∃ i < M.maxStack, args = slotAddress M i ∨ content = slotAddress M i := by
    cases harg with
    | slot _ hhigh _ => exact .inr (.inr ⟨_, hhigh, .inl rfl⟩)
    | cell _ _ hapart => exact hapart.imp_right .inl
  refine (hbuf.ready hblocks h hnone hcontent).withRoots (.cons (.cell ⟨hcontent.stack, hcontent.custom, hcontent.heap⟩
    (.inr ⟨?_, M.zone_one⟩)) (.cons (harg.rootAt hargs) .nil)) ?_ (fun id content hmem => ?_) ?_
    fun hallocs id hzero => ?_
  · dsimp only
    rw [load64_store64]
    exact hblocks.zone _ _ hbuf.place
  · exact List.pairwise_pair.mpr hapart
  · rcases List.mem_cons.mp hmem with heq | hmem
    · cases heq
      exact valid_of_zone M.zone_one
    · have heq := List.mem_singleton.mp hmem
      cases harg with
      | slot _ _ _ => cases heq
      | cell _ _ _ =>
        cases heq
        exact hvalid
  · refine hnull.imp_right fun hne p hp => ?_
    dsimp only
    rcases List.mem_cons.mp hp with rfl | hp
    · rwa [hargs, harg.word h.represents]
    · rw [List.mem_singleton.mp hp, load64_store64]
      exact hbuffer
  · rcases List.mem_cons.mp hzero with heq | hmem
    · cases heq
    · have heq := List.mem_singleton.mp hmem
      cases harg with
      | slot _ _ _ => cases heq
      | cell _ _ _ =>
        cases heq
        exact hfirst hallocs rfl

end Printed

/-- What the system maps does not depend on the bytes in memory. -/
theorem Maps.withMem {words : ℕ} (h : Maps M g mmap words) : Maps M { g with mem := m' } mmap words := by
  intro live hlive
  obtain ⟨start, hstart, hfresh⟩ := h live hlive
  exact ⟨start, hstart, hfresh.aligned, hfresh.lt, hfresh.heap, hfresh.stack, hfresh.custom, hfresh.roots, hfresh.zone⟩

/-- A collection leaves the local variable and the argument rooted. -/
theorem Argument.popped (harg : Argument M s g content a ref args) {s₁ s₂ : State}
    (hprepared : Prepared M { s with extraRoots := [.cell 1 1, ref] } s₁) (hroots : s₂.extraRoots = s₁.extraRoots) :
    ∃ q q', s₂.extraRoots = [q, q'] ∧ q.same (.cell 1 1) = true ∧ q'.same ref = true := by
  rw [hroots]
  rcases hprepared with rfl | ⟨heap, forward, slack, -, rfl⟩
  · refine ⟨_, _, rfl, rfl, ?_⟩
    cases harg with
    | slot _ _ _ => exact beq_self_eq_true _
    | cell _ _ _ => exact beq_self_eq_true _
  · cases harg with
    | slot _ _ _ => exact ⟨_, _, rfl, rfl, beq_self_eq_true _⟩
    | cell _ _ _ => exact ⟨_, _, rfl, rfl, beq_self_eq_true _⟩

/-- The model of `Lstring` when the value has a text and the allocation goes through -/
theorem Lstring_model (hnone : s.extraRoots = []) (harg : Argument M s g content a ref args)
    {valid : Word → Bool} (hprint : LamaSM.printValue valid s.heap s.slack fuel a = .ok text) {s₁ s₂ : State} {b : Word} {E : Env M}
    (hprepared : Prepared M { s with extraRoots := [.cell 1 1, ref] } s₁) (hroots : s₂.extraRoots = s₁.extraRoots)
    (halloc : LamaSM.alloc E { s with extraRoots := [.cell 1 1, ref] } = .ok b s₂) :
    LamaSM.Lstring (E.printing valid fuel) ref a s = .ok b (s₂.filled b (.string (text ++ [0])) s₂.touched) := by
  have hpush : LamaSM.pushExtraRoot ref s = .ok () { s with extraRoots := [ref] } := by
    rw [← hnone]
    exact if_neg (by rw [hnone]; decide)
  have hpushed : LamaSM.pushExtraRoot (.cell 1 1) { s with extraRoots := [ref] } =
      .ok () { s with extraRoots := [.cell 1 1, ref] } := if_neg (by simp [maxExtraRootsNumber])
  obtain ⟨q, q', hpool, hq, hq'⟩ := harg.popped hprepared hroots
  have hpop : LamaSM.popExtraRoot (.cell 1 1) s₂ = .ok () { s₂ with extraRoots := [q'] } := by
    rw [LamaSM.popExtraRoot, hpool]
    exact if_pos hq
  have hbstring : LamaSM.Bstring (E.printing valid fuel) 1 text { s with extraRoots := [ref] } =
      .ok b { s₂ with extraRoots := [q'], heap := Function.update s₂.heap b (some (.string (text ++ [0]))) } := by
    have hprinting : LamaSM.alloc (E.printing valid fuel) { s with extraRoots := [.cell 1 1, ref] } = .ok b s₂ := halloc
    rw [LamaSM.Bstring, exec_bind_of_ok hpushed, exec_bind_of_ok hprinting, exec_bind_of_ok hpop]
    rfl
  have hget : (get : Exec State) s = .ok s s := rfl
  rw [LamaSM.Lstring, exec_bind_of_ok hget]
  dsimp only [Env.printing]
  rw [hprint]
  dsimp only
  rw [exec_bind_of_ok hpush]
  have hpopped : LamaSM.popExtraRoot ref
      { s₂ with extraRoots := [q'], heap := Function.update s₂.heap b (some (.string (text ++ [0]))) } =
      .ok () (s₂.filled b (.string (text ++ [0])) s₂.touched) := if_pos hq'
  refine (exec_bind_of_ok hbstring).trans ?_
  rw [exec_bind_of_ok hpopped]
  rfl

/-- `Lstring` -/
theorem Lstring_simulates (h : Ready M s g os) (hnone : s.extraRoots = [])
    (harg : Argument M s g content a ref args) (hcontent : Elsewhere M g content) (hvalid : Valid M s.heap a)
    (hnull : 0 < g.heap.begin ∨ a ≠ 0) (hfirst : s.allocs = 0 → a ≠ 0)
    (hprint : LamaSM.printValue (isValidHeapPointer g.heap) s.heap s.slack fuel a = .ok text)
    (hlen : text.length < 2 ^ 60) (htext : text.length < fuel)
    (hblocks : Blocks M g mmap malloc [args, content] text.length) (hfuel : g.heap.current - g.heap.begin < fuel)
    (hmmap : Maps M { g with extraRoots := [args, content] } mmap (bytesToWords (stringSize text.length))) :
    ∃ c s' g' os', Simulates M s g (Lstring g fuel mmap malloc args content)
      (fun E => LamaSM.Lstring (E.printing (isValidHeapPointer g.heap) fuel) ref a) c s' g' os' := by
  have hrep := h.represents
  have hword : ∀ m, (∀ b, (∀ len c, malloc len = some c → b < c ∨ c + len ≤ b) → m b = g.mem b) →
      load64 m args = a := by
    intro m hm
    rw [← harg.word hrep]
    exact Copied.load64 fun k hk => hm _ fun len c hc => by
      have := hblocks.cells len c hc args List.mem_cons_self
      omega
  obtain ⟨m, buf, hrun, hbuf⟩ := (h.printing hblocks hfuel).printed (by rw [← hrep.heap]; exact hprint)
    hword
  have hready := hbuf.rooted hblocks h hnone harg hcontent hvalid hnull hfirst
  have hstring := hbuf.cStringAt hblocks hcontent hready
  obtain ⟨c, s', g', os', hsim⟩ := (hbuf.ready hblocks h hnone hcontent).constructString hnone hready rfl
    (by simp [maxExtraRootsNumber]) hstring hlen hfuel hmmap.withMem
    fun s₁ s₂ b hprepared hroots E halloc => Lstring_model hnone harg hprint hprepared hroots halloc
  refine ⟨c, s', g', os', ?_, hsim.represents, hsim.model, hsim.before, hsim.allocs, hsim.roots, hsim.begun⟩
  rw [Lstring_eq (hrep.noRoots hnone) hrun (hstring.chars.strlen htext)]
  exact hsim.run

/-- The object is where `Lstring` says. -/
theorem Lstring_object {E : Env M} {s' : State} {b : Word} (hprint : E.printValue s.heap s.slack a = .ok text)
    (h : LamaSM.Lstring E ref a s = .ok b s') : s'.heap b = some (.string (text ++ [0])) := by
  simp only [LamaSM.Lstring, exec_bind_ok, exec_get_ok] at h
  obtain ⟨t₀, t₁, ⟨hget, ht₁⟩, h⟩ := h
  rw [hget, ht₁, hprint] at h
  simp only [exec_bind_ok, exec_pure_ok] at h
  obtain ⟨_, t₁, -, b', t₂, hstring, _, t₃, hpop, rfl, rfl⟩ := h
  obtain ⟨t₄, -, -, -, rfl⟩ := Bstring_ok hstring
  rw [(popExtraRoot_same hpop).heap]
  exact Function.update_self ..

/-- A printable value becomes a string with its text, in memory as in the state, however often the buffer grows
    and whatever a collection moves. -/
theorem Lstring_refines (h : Linked M s g) (hs : Sound M s) (harg : Argument M s g content a ref args)
    (hcontent : Elsewhere M g content) (hvalid : Valid M s.heap a) (hnull : s.allocs = 0 → a ≠ 0)
    (hprint : LamaSM.printValue (isValidHeapPointer g.heap) s.heap s.slack fuel a = .ok text)
    (hlen : text.length < 2 ^ 60) (htext : text.length < fuel)
    (hblocks : Blocks M g mmap malloc [args, content] text.length) (hfuel : g.heap.current - g.heap.begin < fuel)
    (hmmap : Maps M { g with extraRoots := [args, content] } mmap (bytesToWords (stringSize text.length))) :
    ∃ (E : Env M) (b : Word) (s' : State) (g' : Globals), Lstring g fuel mmap malloc args content = .ok (b.toNat, g') ∧
      LamaSM.Lstring (E.printing (isValidHeapPointer g.heap) fuel) ref a s = .ok b s' ∧ Linked M s' g' ∧ s'.heap b = some (.string (text ++ [0])) := by
  obtain ⟨os, hready⟩ := h.ready hs
  have hsane : 0 < g.heap.begin ∨ a ≠ 0 := h.begun.imp_right fun hbegun => hnull hbegun.2.1
  obtain ⟨c, s', g', os', hsim⟩ := Lstring_simulates hready h.roots harg hcontent hvalid hsane hnull hprint hlen htext hblocks
    hfuel hmmap
  obtain ⟨E, hE⟩ := exists_env [c] (List.pairwise_singleton _ _)
  have hmodel := hsim.model E (hE c List.mem_cons_self)
  refine ⟨E, c.address, s', g', hsim.run, hmodel, ⟨⟨os', hsim.represents⟩, hsim.roots, .inl ?_⟩,
    Lstring_object hprint hmodel⟩
  exact hsim.begun (h.begun.imp_right fun hbegun => hbegun.1)

end Lstring

/-! ### An array -/

/-- Blocks of up to a thousand bytes, all at one place -/
def smallBlocks (len : ℕ) : Option ℕ := if len ≤ 1000 then some (2 ^ 20) else none

theorem smallBlocks_eq {len c : ℕ} (h : smallBlocks len = some c) : len ≤ 1000 ∧ c = 2 ^ 20 := by
  unfold smallBlocks at h
  split at h
  · cases h
    exact ⟨by assumption, rfl⟩
  · cases h

theorem slotAddress_small (i : ℕ) : slotAddress smallMachine i = 2 ^ 43 + 8 * i := by
  have haddress : slotAddress smallMachine i = 8 * (2 ^ 40 + i) := rfl
  omega

/-- The text of the array: the string in brackets -/
def arrayText : List UInt8 := asBytes "[\"" ++ longText ++ asBytes "\"]"

theorem arrayText_length : arrayText.length = 134 := by
  have hleft : (asBytes "[\"").length = 2 := rfl
  have hright : (asBytes "\"]").length = 2 := rfl
  rw [arrayText, List.length_append, List.length_append, hleft, hright, longText, List.length_replicate]

set_option maxRecDepth 4000 in
theorem fullState_printed : LamaSM.printValue (isValidHeapPointer fullGlobals.heap) fullState.heap fullState.slack 300
    0x4000000000028 = .ok arrayText := by rfl

theorem fullState_sound : Sound smallMachine fullState := by
  refine ⟨⟨fun i hlow hhigh => ?_, fullHeap_valid, fun w hw => absurd hw List.not_mem_nil⟩, by decide,
    fun hfirst => absurd hfirst (by decide)⟩
  have hlow : 2 < i := hlow
  have hhigh : i < 4 := hhigh
  obtain rfl : i = 3 := by omega
  exact fun _ => Option.isSome_iff_exists.mpr ⟨_, fullState_array⟩

theorem fullBlocks : Blocks smallMachine fullGlobals (fun _ => some (2 ^ 55)) smallBlocks
    [slotAddress smallMachine 3, 200] arrayText.length := by
  refine ⟨fun len _ hlen => ?_, fun len c hc => ?_, fun len c hc => ?_, fun len c hc => ?_, fun len c hc => ?_,
    fun len c hc => ?_, fun len c hc p hp => ?_, fun len c hc size start hmap => ?_⟩
  · rw [arrayText_length] at hlen
    unfold stringbufInit at hlen
    rw [smallBlocks, if_pos (by omega)]
    rfl
  all_goals obtain ⟨hlen, rfl⟩ := smallBlocks_eq hc
  · omega
  · decide
  · have hheap : 2 ^ 20 + len ≤ 2 ^ 50 := by omega
    exact .inl hheap
  · rw [slotAddress_small]
    omega
  · exact .inr (by decide)
  · rw [slotAddress_small] at hp
    rcases List.mem_pair.mp hp with rfl | rfl
    · omega
    · omega
  · cases hmap
    omega

/-- The array in the stack, whose text is longer than a new buffer, with a heap that is full. -/
theorem Lstring_refines_array : stringbufInit < arrayText.length ∧ fullGlobals.heap.current = fullGlobals.heap.end ∧
    ∃ (E : Env smallMachine) (b : Word) (s' : State) (g' : Globals),
      Lstring fullGlobals 300 (fun _ => some (2 ^ 55)) smallBlocks (slotAddress smallMachine 3) 200 = .ok (b.toNat, g') ∧
      LamaSM.Lstring (E.printing (isValidHeapPointer fullGlobals.heap) 300) (.slot 3) 0x4000000000028 fullState = .ok b s' ∧
      Linked smallMachine s' g' ∧ s'.heap b = some (.string (arrayText ++ [0])) := by
  have harg : Argument smallMachine fullState fullGlobals 200 0x4000000000028 (.slot 3) (slotAddress smallMachine 3) :=
    .slot (by decide) (by decide) rfl
  have hwords : bytesToWords (stringSize arrayText.length) ≤ 20 := by
    rw [arrayText_length]
    decide
  have hmaps : Maps smallMachine { fullGlobals with extraRoots := [slotAddress smallMachine 3, 200] }
      (fun _ => some (2 ^ 55)) (bytesToWords (stringSize arrayText.length)) :=
    fun live hlive => ⟨_, rfl, fullFresh (by decide) hlive hwords⟩
  refine ⟨by rw [arrayText_length]; decide, rfl, Lstring_refines fullLinked fullState_sound harg
    ⟨by decide, by decide, by decide⟩ (fun _ => Option.isSome_iff_exists.mpr ⟨_, fullState_array⟩)
    (fun hfirst => absurd hfirst (by decide)) fullState_printed ?_ ?_ fullBlocks (by decide) hmaps⟩
  · rw [arrayText_length]
    decide
  · rw [arrayText_length]
    decide

end Gc
end LamaSM
