import LamaSM.Gc.Allocating
import LamaSM.Allocation

/-! `Barray`, `Bclosure`, `Bsexp` and `Bstring` on the memory of the process (`runtime/runtime.c`).

    Each roots its arguments, allocates, copies words into the object and drops the roots. The theorems say
    that this is what the functions of the same names do to the state of the interpreter, for an
    environment that collects and places objects as the memory did. -/

namespace LamaSM
namespace Gc
open Lib

/-! ### The code -/

/-- `push_extra_root` -/
def pushExtraRoot (g : Globals) (p : ℕ) : Result Globals :=
  if maxExtraRootsNumber ≤ g.extraRoots.length then
    throw (.exit "ERROR: push_extra_roots: extra_roots_pool overflow\n")
  else return { g with extraRoots := g.extraRoots ++ [p] }

/-- `pop_extra_root` -/
def popExtraRoot (g : Globals) (p : ℕ) : Result Globals :=
  match g.extraRoots.getLast? with
  | none => throw (.exit "ERROR: pop_extra_root: extra_roots are empty\n")
  | some q =>
    if q = p then return { g with extraRoots := g.extraRoots.dropLast }
    else throw (.exit "ERROR: pop_extra_root: stack invariant violation\n")

/-- The loops that copy words one by one, given the addresses they are copied to and from. -/
def copyArgs (m : ByteMemory) (l : List (ℕ × ℕ)) : ByteMemory :=
  l.foldl (fun m p => store64 m p.1 (load64 m p.2)) m

/-- What the functions below share: the words at `roots` are rooted, an object is allocated and its contents
    are filled in. -/
def construct (g : Globals) (roots : List ℕ) (allocate : Globals → Result (ℕ × Globals))
    (fill : ByteMemory → ℕ → ByteMemory) : Result (ℕ × Globals) := do
  let g ← roots.foldlM pushExtraRoot g
  let (r, g) ← allocate g
  let contents := r + dataHeaderSz
  let g ← roots.reverse.foldlM popExtraRoot { g with mem := fill g.mem contents }
  return (contents, g)

section Code

variable (g : Globals) (fuel : ℕ) (mmap : ℕ → Option ℕ)

/-- `Barray`; `args` is the address of `args[0]`. -/
def Barray (args n : ℕ) : Result (ℕ × Globals) :=
  construct g ((List.range n).map fun i => args + memberSize * i) (fun g => allocArray g fuel mmap n) fun m contents =>
    copyArgs m ((List.range n).map fun i => (contents + memberSize * i, args + memberSize * i))

/-- `Bclosure` -/
def Bclosure (args n : ℕ) : Result (ℕ × Globals) :=
  construct g ((List.range n).map fun i => args + memberSize * (i + 1)) (fun g => allocClosure g fuel mmap (n + 1))
    fun m contents => copyArgs m ((contents, args) ::
      (List.range n).map fun i => (contents + memberSize * (i + 1), args + memberSize * (i + 1)))

/-- `Bsexp`; the fields are stored last to first, behind the tag. -/
def Bsexp (args n : ℕ) : Result (ℕ × Globals) :=
  let fieldsCnt := n - 1
  construct g ((List.range fieldsCnt).map fun i => args + memberSize * (i + 1))
    (fun g => allocSexp g fuel mmap (sizeT (n + (2 ^ 64 - 1)))) fun m tag =>
      let contents := tag + wordSize
      let m := copyArgs (store64 m tag 0) ((List.range fieldsCnt).map fun i =>
        (contents + memberSize * (fieldsCnt - (i + 1)), args + memberSize * (i + 1)))
      store64 m tag (BitVec.ofInt 64 (unbox (load64 m args)))

end Code

/-! ### Filling an object -/

/-- The objects with the one at `j` replaced. -/
def replaced (i : ℕ) (os : List Obj) (j : ℕ) (o' : Obj) : List Obj :=
  (laid room i os).map fun p => if p.1 = j ∧ room o' = room p.2 then o' else p.2

section Fill

variable {M : Machine} {s : State} {g : Globals} {os : List Obj} {o o' : Obj} {i j k : ℕ} {m m' : ByteMemory} {a : Word}

theorem room_replaced (p : ℕ × Obj) : room (if p.1 = j ∧ room o' = room p.2 then o' else p.2) = room p.2 := by
  split
  · rename_i h
    exact h.2
  · rfl

theorem mem_replaced (hj : (j, o) ∈ laid room i os) (hroom : room o' = room o) {x : Obj} :
    (k, x) ∈ laid room i (replaced i os j o') ↔ (k = j ∧ x = o') ∨ (k ≠ j ∧ (k, x) ∈ laid room i os) := by
  rw [replaced, laid_rewrite room_replaced, List.mem_map]
  constructor
  · rintro ⟨⟨l, y⟩, hy, heq⟩
    cases heq
    by_cases hl : l = j
    · subst hl
      rw [laid_unique room_pos hy hj]
      exact .inl ⟨rfl, if_pos ⟨rfl, hroom⟩⟩
    · exact .inr ⟨hl, by rw [if_neg fun h => hl h.1]; exact hy⟩
  · rintro (⟨rfl, rfl⟩ | ⟨hne, hx⟩)
    · exact ⟨(k, o), hj, by dsimp only; rw [if_pos ⟨rfl, hroom⟩]⟩
    · exact ⟨(k, x), hx, by dsimp only; rw [if_neg fun h => hne h.1]⟩

/-- Rewriting the contents of an object in memory, and the slack, replaces them in the state. -/
theorem Represents.refill (h : Represents M s g os) (hj : (j, o) ∈ laid room g.heap.begin os) (hkind : kind o' = kind o)
    (hlen : o'.len = o.len) (hclosed : o' ≠ .string []) (hsize : objSize o' = objSize o)
    (hrest : ∀ b, b < j + dataHeaderSz ∨ j + room o ≤ b → m' b = g.mem b)
    (hcontents : ContentsAt m' (j + dataHeaderSz) o') (ha : a.toNat = j + dataHeaderSz) {slack : ℕ → UInt8}
    (hslack : ∀ contents, o' = .string contents → ∀ k, contents.length ≤ k → dataHeaderSz + k < room o' →
      slack k = m' (j + dataHeaderSz + k)) :
    Represents M
      { s with heap := Function.update s.heap a (some o'), slack := Function.update s.slack a slack }
      { g with mem := m' } (replaced g.heap.begin os j o') := by
  have hroom : room o' = room o := by rw [room, room, hsize]
  have hplace := h.layout.place hj
  have hin := objSize_le_room o
  have hfilled := h.placed.chunk.filled
  have hobj := h.layout.objects j o hj
  unfold dataHeaderSz at hrest
  refine h.inHeap (fun b hb => hrest b (by omega)) ?_ ⟨fun k x hk => ?_, ?_, h.layout.aligned, h.layout.lt⟩ (fun k x hk => ?_)
    hfilled fun k contents hk w hw i hi hin => ?_
  · funext w
    apply Option.ext
    intro x
    rw [heapOf_eq_some]
    by_cases hw : w = a
    · rw [hw, Function.update_self]
      constructor
      · intro heq
        cases heq
        exact ⟨j, (mem_replaced hj hroom).mpr (.inl ⟨rfl, rfl⟩), ha⟩
      · rintro ⟨k, hk, hak⟩
        obtain rfl : k = j := by omega
        rcases (mem_replaced hj hroom).mp hk with ⟨-, rfl⟩ | ⟨hne, -⟩
        · rfl
        · exact absurd rfl hne
    · rw [Function.update_of_ne hw, h.heap, heapOf_eq_some]
      constructor
      · rintro ⟨k, hk, hwk⟩
        refine ⟨k, (mem_replaced hj hroom).mpr (.inr ⟨?_, hk⟩), hwk⟩
        rintro rfl
        exact hw (BitVec.eq_of_toNat_eq (hwk.trans ha.symm))
      · rintro ⟨k, hk, hwk⟩
        rcases (mem_replaced hj hroom).mp hk with ⟨rfl, -⟩ | ⟨-, hk⟩
        · exact absurd (BitVec.eq_of_toNat_eq (hwk.trans ha.symm)) hw
        · exact ⟨k, hk, hwk⟩
  · rcases (mem_replaced hj hroom).mp hk with ⟨rfl, rfl⟩ | ⟨hne, hk⟩
    · refine ⟨⟨?_, hclosed, hsize ▸ hobj.fits⟩, hcontents⟩
      rw [hkind, hlen, ← hobj.header]
      exact Copied.load64 fun i hi => hrest _ (by omega)
    · have hx := objSize_le_room x
      refine (h.layout.objects k x hk).moved fun i hi => hrest _ ?_
      rcases laid_apart hj hk with ⟨rfl, -⟩ | hlt | hlt
      · exact absurd rfl hne
      · omega
      · omega
  · dsimp only
    rw [replaced, laidEnd_rewrite room_replaced, h.layout.current]
  · have hold : ∃ y, (k, y) ∈ laid room g.heap.begin os := by
      rcases (mem_replaced hj hroom).mp hk with ⟨rfl, -⟩ | ⟨-, hk⟩
      · exact ⟨o, hj⟩
      · exact ⟨x, hk⟩
    obtain ⟨y, hy⟩ := hold
    have hge := room_ge y
    have hclean := h.clean k y hy
    have hforward : Copied g.mem (k + 8) m' (k + 8) 8 := fun i hi => hrest _ (by
      rcases laid_apart hj hy with ⟨rfl, -⟩ | hlt | hlt <;> omega)
    obtain ⟨hm, he, -⟩ := flags_copied hforward
    exact ⟨by rw [Marked, hm]; exact hclean.1, by rw [Enqueued, he]; exact hclean.2⟩
  · rcases (mem_replaced hj hroom).mp hk with ⟨rfl, rfl⟩ | ⟨hne, hk⟩
    · obtain rfl : w = a := BitVec.eq_of_toNat_eq (hw.trans ha.symm)
      rw [Function.update_self]
      exact hslack contents rfl i hi hin
    · have hwa : w ≠ a := by
        rintro rfl
        omega
      rw [Function.update_of_ne hwa, h.slack k contents hk w hw i hi hin]
      refine (hrest _ ?_).symm
      rcases laid_apart hj hk with ⟨rfl, -⟩ | hlt | hlt
      · exact absurd rfl hne
      · omega
      · omega

/-- Where only the contents are rewritten the slack stays. -/
theorem Represents.fill (h : Represents M s g os) (hj : (j, o) ∈ laid room g.heap.begin os) (hkind : kind o' = kind o)
    (hlen : o'.len = o.len) (hclosed : o' ≠ .string []) (hsize : objSize o' = objSize o)
    (hrest : ∀ b, b < j + dataHeaderSz ∨ j + objSize o ≤ b → m' b = g.mem b)
    (hcontents : ContentsAt m' (j + dataHeaderSz) o') (ha : a.toNat = j + dataHeaderSz) :
    Represents M { s with heap := Function.update s.heap a (some o') } { g with mem := m' }
      (replaced g.heap.begin os j o') := by
  have hin := objSize_le_room o
  have hroom : room o' = room o := by rw [room, room, hsize]
  have hslack : ∀ contents, o' = .string contents → ∀ k, contents.length ≤ k → dataHeaderSz + k < room o' →
      s.slack a k = m' (j + dataHeaderSz + k) := by
    rintro contents rfl k hk hk'
    cases o with
    | string old =>
      have hlength : contents.length = old.length := by
        rw [objSize, objSize] at hsize
        omega
      rw [hrest _ (.inr (by rw [objSize]; omega))]
      exact h.slack j old hj a ha k (by omega) (by omega)
    | array | sexp | closure => cases hkind
  have hfilled := h.refill hj hkind hlen hclosed hsize (fun b hb => hrest b (by omega)) hcontents ha hslack
  have hkept : Function.update s.slack a (s.slack a) = s.slack := Function.update_eq_self a s.slack
  rw [hkept] at hfilled
  exact hfilled

end Fill

/-! ### Copying words -/

section CopyArgs

variable {m : ByteMemory} {b : ℕ} {p : ℕ × ℕ}

theorem copyArgs_rest : ∀ {l : List (ℕ × ℕ)} {m : ByteMemory}, (∀ p ∈ l, b < p.1 ∨ p.1 + 8 ≤ b) →
    copyArgs m l b = m b
  | [], _, _ => rfl
  | p :: l, m, h => by
    have hrest : copyArgs (store64 m p.1 (load64 m p.2)) l b = store64 m p.1 (load64 m p.2) b :=
      copyArgs_rest fun q hq => h q (List.mem_cons_of_mem _ hq)
    exact hrest.trans (store64_of_not_mem (h p List.mem_cons_self))

/-- Words copied to places apart from each other and from where they come from. -/
theorem copyArgs_word : ∀ {l : List (ℕ × ℕ)} {m : ByteMemory},
    l.Pairwise (fun p q => p.1 + 8 ≤ q.1 ∨ q.1 + 8 ≤ p.1) →
    (∀ p ∈ l, ∀ q ∈ l, p.1 + 8 ≤ q.2 ∨ q.2 + 8 ≤ p.1) → p ∈ l → load64 (copyArgs m l) p.1 = load64 m p.2
  | [], _, _, _, h => absurd h List.not_mem_nil
  | q :: l, m, hpairwise, hapart, h => by
    obtain ⟨hq, hl⟩ := List.pairwise_cons.mp hpairwise
    show load64 (copyArgs (store64 m q.1 (load64 m q.2)) l) p.1 = load64 m p.2
    rcases List.mem_cons.mp h with rfl | h
    · have hkept : load64 (copyArgs (store64 m p.1 (load64 m p.2)) l) p.1 = load64 (store64 m p.1 (load64 m p.2)) p.1 :=
        Copied.load64 fun k hk => copyArgs_rest fun r hr => by
          have := hq r hr
          omega
      exact hkept.trans load64_store64
    · rw [copyArgs_word hl (fun x hx y hy => hapart x (List.mem_cons_of_mem _ hx) y (List.mem_cons_of_mem _ hy)) h]
      exact load64_store64_of_disjoint ((hapart q List.mem_cons_self p (List.mem_cons_of_mem _ h)).symm)

end CopyArgs

/-! ### Rooting the arguments -/

section Rooting

variable {M : Machine} {s s₁ : State} {g : Globals} {os : List Obj} {base n : ℕ}

theorem pushExtraRoots_ok : ∀ (l : List ℕ) {g : Globals}, g.extraRoots.length + l.length ≤ maxExtraRootsNumber →
    l.foldlM pushExtraRoot g = .ok { g with extraRoots := g.extraRoots ++ l }
  | [], g, _ => by rw [List.foldlM_nil, List.append_nil]; rfl
  | p :: l, g, h => by
    rw [List.length_cons] at h
    have hpush : pushExtraRoot g p = .ok { g with extraRoots := g.extraRoots ++ [p] } := if_neg (by omega)
    rw [List.foldlM_cons, hpush, except_ok_bind, pushExtraRoots_ok l (by
      dsimp only
      rw [List.length_append, List.length_singleton]
      omega)]
    dsimp only
    rw [List.append_assoc]
    rfl

theorem popExtraRoots_ok : ∀ (l : List ℕ) {g : Globals}, g.extraRoots = l.reverse →
    l.foldlM popExtraRoot g = .ok { g with extraRoots := [] }
  | [], g, h => by
    rw [List.foldlM_nil, show ({ g with extraRoots := [] } : Globals) = g from by rw [← List.reverse_nil, ← h]]
    rfl
  | p :: l, g, h => by
    have hpop : popExtraRoot g p = .ok { g with extraRoots := l.reverse } := by
      rw [popExtraRoot, h, List.reverse_cons, List.getLast?_concat]
      dsimp only
      rw [if_pos rfl, List.dropLast_concat]
      rfl
    rw [List.foldlM_cons, hpop, except_ok_bind, popExtraRoots_ok l rfl]

/-- The addresses of slots. -/
def slotAddresses (M : Machine) (base n : ℕ) : List ℕ := (List.range n).map fun i => slotAddress M (base + i)

/-- Before the first collection no word that is scanned is null, with other roots that are not null either. -/
theorem Ready.begun_roots (h : Ready M s g os) {roots : List ℕ}
    (hroots : 0 < g.heap.begin ∨ ∀ p ∈ roots, load64 g.mem p ≠ 0) :
    0 < g.heap.begin ∨ os = [] ∧ ∀ p ∈ rootAddresses { g with extraRoots := roots } ++
      fixedAddresses { g with extraRoots := roots }, load64 g.mem p ≠ 0 := by
  rcases h.begun with hpos | ⟨hnil, hscanned⟩
  · exact .inl hpos
  refine hroots.imp_right fun hroots => ⟨hnil, fun p hp => ?_⟩
  rcases List.mem_append.mp hp with hp | hp
  · rcases List.mem_append.mp hp with hp | hp
    · rcases List.mem_append.mp hp with hp | hp
      · exact hscanned p (List.mem_append_left _ (List.mem_append_left _ (List.mem_append_left _ hp)))
      · exact hroots p hp
    · exact hscanned p (List.mem_append_left _ (List.mem_append_right _ hp))
  · rcases List.mem_append.mp hp with hp | hp
    · rcases List.mem_append.mp hp with hp | hp
      · exact hscanned p (List.mem_append_right _ (List.mem_append_left _ (List.mem_append_left _ hp)))
      · exact hroots p (List.mem_of_mem_filter hp)
    · exact hscanned p (List.mem_append_right _ (List.mem_append_right _ hp))

/-- Rooting words changes nothing a collection looks at. -/
theorem Ready.withRoots (h : Ready M s g os) {refs : List RootRef} {roots : List ℕ}
    (hrefs : List.Forall₂ (RootAt M { s with extraRoots := refs } { g with extraRoots := roots }) refs roots.reverse)
    (hcells : roots.Pairwise fun p q => p + 8 ≤ q ∨ q + 8 ≤ p ∨ ∃ i < M.maxStack, p = slotAddress M i ∨ q = slotAddress M i)
    (hvalid : ∀ id content, RootRef.cell id content ∈ refs → Valid M s.heap content)
    (hnull : 0 < g.heap.begin ∨ ∀ p ∈ roots, load64 g.mem p ≠ 0)
    (hnonnull : s.allocs = 0 → ∀ id, RootRef.cell id 0 ∉ refs) :
    Ready M { s with extraRoots := refs } { g with extraRoots := roots } os := by
  have hrep := h.represents
  refine ⟨⟨hrep.heap, hrep.layout, hrep.clean, hrep.stack, hrep.top, hrefs, hcells, ⟨hrep.placed.chunk, hrep.placed.lt,
    hrep.placed.zone, hrep.placed.bottom, hrep.placed.stack, hrep.placed.custom, hrep.placed.apart,
    hrep.placed.foreign⟩, hrep.slack⟩,
    h.held.same ⟨rfl, rfl, rfl⟩, h.top, hvalid, h.begun_roots hnull, fun hfirst hzero => ?_⟩
  have hstack : ∀ i, s.top < i → i < M.maxStack → s.stack i ≠ 0 := fun i hi hM hi0 =>
    h.nonnull hfirst (mem_rootWords.mpr (.inl ⟨i, hi, hM, hi0⟩))
  rcases mem_rootWords.mp hzero with ⟨i, hi, hM, hi0⟩ | ⟨i, hi, hi0⟩ | ⟨id, hid⟩
  · exact hstack i hi hM hi0
  · obtain ⟨p, -, hr⟩ := forall₂_mem_left hrefs hi
    cases hr with
    | slot hlow hhigh => exact hstack _ hlow (by omega) hi0
  · exact hnonnull hfirst id hid

/-- Rooting slots above the top. -/
theorem Ready.rooted (h : Ready M s g os) (hlow : s.top < base)
    (hhigh : base + n ≤ M.maxStack) :
    Ready M (s.rooted (argSlots base 0 n)) { g with extraRoots := slotAddresses M base n } os := by
  have hslot : ∀ p ∈ slotAddresses M base n, ∃ i : ℕ, s.top < i ∧ i < M.maxStack ∧ p = slotAddress M i := by
    intro p hp
    obtain ⟨i, hi, rfl⟩ := List.mem_map.mp hp
    have := List.mem_range.mp hi
    exact ⟨base + i, by omega, by omega, rfl⟩
  refine h.withRoots ?_ (List.pairwise_iff_forall_sublist.mpr fun {p q} hsub => ?_) (fun id content hmem => ?_)
    (h.begun.imp_right fun hbegun p hp => ?_) fun _ id hid => ?_
  · rw [argSlots, slotAddresses, ← List.map_reverse, ← List.map_reverse, List.map_map, List.forall₂_map_left_iff,
      List.forall₂_map_right_iff, List.forall₂_same]
    intro i hi
    have hi := List.mem_range.mp (List.mem_reverse.mp hi)
    have hcast : ((base : ℤ) + (0 : ℕ) + (i : ℕ)) = ((base + i : ℕ) : ℤ) := by omega
    show RootAt M _ _ (RootRef.slot ((base : ℤ) + (0 : ℕ) + (i : ℕ))) _
    rw [hcast]
    refine .slot ?_ (by omega)
    show s.top < ((base + i : ℕ) : ℤ)
    omega
  · obtain ⟨i, -, hi, rfl⟩ := hslot p (hsub.subset List.mem_cons_self)
    exact .inr (.inr ⟨i, hi, .inl rfl⟩)
  · obtain ⟨i, -, heq⟩ := List.mem_map.mp hmem
    cases heq
  · obtain ⟨i, hi, hM, rfl⟩ := hslot p hp
    refine hbegun.2 _ (List.mem_append_left _ (List.mem_append_left _ (List.mem_append_left _ ?_)))
    exact (h.represents.mem_scanned h.top).mpr ⟨i, hi, hM, rfl⟩
  · obtain ⟨i, -, heq⟩ := List.mem_map.mp hid
    cases heq

/-- Without roots the memory holds the state as well. -/
theorem Represents.unrooted (h : Represents M s g os) :
    Represents M { s with extraRoots := [] } { g with extraRoots := [] } os :=
  ⟨h.heap, h.layout, h.clean, h.stack, h.top, .nil, .nil,
    ⟨h.placed.chunk, h.placed.lt, h.placed.zone, h.placed.bottom, h.placed.stack, h.placed.custom, h.placed.apart,
      h.placed.foreign⟩, h.slack⟩

end Rooting

/-! ### The constructors -/

/-- What an allocation did: it found the state `before`, made it `after`, by a collection or by nothing, and
    returned the address. -/
structure Choice (M : Machine) where
  before : State
  after : State
  address : Word
  prepared : Prepared M before after
  zone : M.heapZone address = true
  free : after.heap address = none
  top : -1 ≤ before.top
  nonnull : before.allocs = 0 → 0 ∉ rootWords M before

/-- The environment chooses at this allocation what has been done. -/
def Choice.Follows {M : Machine} (c : Choice M) (E : Env M) : Prop :=
  LamaSM.alloc E c.before = .ok c.address { c.after with
    allocs := c.after.allocs + 1, slack := Function.update c.after.slack c.address fun _ => 0 }

/-- What a constructor does to memory is what its model does to the state in an environment that chooses as
    the allocation in it did. -/
structure Simulates (M : Machine) (s : State) (g : Globals) (concrete : Result (ℕ × Globals))
    (model : Env M → Exec Word) (c : Choice M) (s' : State) (g' : Globals) (os' : List Obj) : Prop where
  run : concrete = .ok (c.address.toNat, g')
  represents : Represents M s' g' os'
  model : ∀ E, c.Follows E → model E s = .ok c.address s'
  before : c.before.allocs = s.allocs
  allocs : s'.allocs = s.allocs + 1
  roots : s'.extraRoots = []
  begun : 0 < g.heap.begin ∨ g.heap.end = 0 → 0 < g'.heap.begin

section Constructors

variable {M : Machine} {s s₁ : State} {g : Globals} {os : List Obj} {args n k fuel : ℕ} {mmap : ℕ → Option ℕ}

/-- A collection leaves the rooted slots rooted. -/
theorem Prepared.rooted {slots : List ℤ} (h : Prepared M (s.rooted slots) s₁) :
    s₁.extraRoots = slots.reverse.map .slot := by
  rcases h with rfl | ⟨heap, forward, slack, -, rfl⟩
  · rfl
  · show List.map _ (slots.reverse.map RootRef.slot) = _
    rw [List.map_map]
    rfl

theorem Prepared.allocs (h : Prepared M s s₁) : s₁.allocs = s.allocs := by
  rcases h with rfl | ⟨heap, forward, slack, -, rfl⟩ <;> rfl

section Filling

variable {s₀ : State} {o o' : Obj} {p : ℕ} {a : Word} {m m' : ByteMemory} {heap' : MemoryChunk} {os' : List Obj}

/-- The new object lies where the allocation says. -/
theorem Allocates.place (h : Allocates M s₀ g mmap o p a s₁ m' heap' os') : (p, o) ∈ laid room heap'.begin os' := by
  have hsome : heapOf heap'.begin os' a = some o := by
    rw [← h.represents.heap]
    exact Function.update_self ..
  obtain ⟨j, hj, haj⟩ := heapOf_eq_some.mp hsome
  obtain rfl : j = p := by
    have := h.address
    omega
  exact hj

/-- The object an allocation has made can be filled. -/
theorem Allocates.filled (h : Allocates M s₀ g mmap o p a s₁ m' heap' os') (o' : Obj) (hkind : kind o' = kind o)
    (hlen : o'.len = o.len) (hclosed : o' ≠ .string []) (hsize : objSize o' = objSize o)
    (hrest : ∀ b, b < p + dataHeaderSz ∨ p + objSize o ≤ b → m b = m' b)
    (hcontents : ContentsAt m (p + dataHeaderSz) o') :
    ∃ os'', Represents M { s₁ with
      heap := Function.update s₁.heap a (some o'), slack := Function.update s₁.slack a fun _ => 0 }
      { g with mem := m, heap := heap' } os'' := by
  refine ⟨_, (h.represents.fill h.place hkind hlen hclosed hsize hrest hcontents h.address).congr ?_ rfl rfl rfl rfl⟩
  dsimp only
  rw [Function.update_idem]

/-- An object lies apart from the slots of the stack. -/
theorem Represents.apart_slot {i : ℕ} (h : Represents M s g os) (hp : (p, o) ∈ laid room g.heap.begin os)
    (hi : i ≤ M.maxStack) : p + objSize o ≤ slotAddress M i ∨ slotAddress M i + 8 ≤ p := by
  have hplace := h.layout.place hp
  have hsize := objSize_le_room o
  have hfilled := h.placed.chunk.filled
  have hstack := h.placed.stack
  unfold slotAddress at *
  omega

/-- The words of slots, copied to words of the new object. -/
theorem Allocates.copied (h : Allocates M s₀ g mmap o p a s₁ m' heap' os') (dst src : ℕ → ℕ)
    (hm : ∀ b, b < p + dataHeaderSz ∨ p + objSize o ≤ b → m b = m' b)
    (hdst : ∀ i < n, dataHeaderSz + 8 * dst i + 8 ≤ objSize o) (hsrc : ∀ i < n, src i < M.maxStack)
    (hinj : ∀ i < n, ∀ j < n, i < j → dst i ≠ dst j) {l : List (ℕ × ℕ)}
    (hl : l = (List.range n).map fun i => (p + dataHeaderSz + 8 * dst i, slotAddress M (src i))) :
    (∀ b, b < p + dataHeaderSz ∨ p + objSize o ≤ b → copyArgs m l b = m' b) ∧
      ∀ i < n, load64 (copyArgs m l) (p + dataHeaderSz + 8 * dst i) = s₁.stack (src i) := by
  subst hl
  have hslot : ∀ i < n, p + objSize o ≤ slotAddress M (src i) ∨ slotAddress M (src i) + 8 ≤ p := fun i hi =>
    h.represents.apart_slot h.place (Nat.le_of_lt (hsrc i hi))
  refine ⟨fun b hb => (copyArgs_rest fun q hq => ?_).trans (hm b hb), fun i hi => ?_⟩
  · obtain ⟨i, hi, rfl⟩ := List.mem_map.mp hq
    have hin := hdst i (List.mem_range.mp hi)
    dsimp only
    omega
  · have hword := copyArgs_word (m := m) (p := (p + dataHeaderSz + 8 * dst i, slotAddress M (src i)))
      (l := (List.range n).map fun i => (p + dataHeaderSz + 8 * dst i, slotAddress M (src i))) ?_ ?_
      (List.mem_map.mpr ⟨i, List.mem_range.mpr hi, rfl⟩)
    · have hstack : load64 m' (slotAddress M (src i)) = s₁.stack (src i) := h.represents.stack (src i) (hsrc i hi)
      refine hword.trans (Eq.trans (Copied.load64 fun k hk => hm _ ?_) hstack)
      have := hslot i hi
      dsimp only
      omega
    · rw [List.pairwise_map]
      refine List.pairwise_lt_range.imp_of_mem fun {i j} hi hj hlt => ?_
      have hne := hinj i (List.mem_range.mp hi) j (List.mem_range.mp hj) hlt
      dsimp only
      omega
    · intro q hq r hr
      obtain ⟨i, hi, rfl⟩ := List.mem_map.mp hq
      obtain ⟨j, hj, rfl⟩ := List.mem_map.mp hr
      have hin := hdst i (List.mem_range.mp hi)
      have hapart := hslot j (List.mem_range.mp hj)
      dsimp only
      omega

end Filling

theorem slotAddress_add (i : ℕ) : slotAddress M (args + i) = slotAddress M args + memberSize * i := by
  unfold slotAddress memberSize
  omega

theorem length_slotAddresses (base : ℕ) : (slotAddresses M base n).length = n := by simp [slotAddresses]

theorem slotAddresses_eq (base : ℕ) :
    slotAddresses M base n = (List.range n).map fun i => slotAddress M base + memberSize * i :=
  List.map_congr_left fun i _ => slotAddress_add i

/-- The code the constructors share, around an allocation and a filling of the contents that make the object
    `o` of the stack behind the allocation. -/
theorem Ready.construct (h : Ready M s g os) (hnone : s.extraRoots = []) {s₀ : State} {roots : List ℕ}
    (hready : Ready M s₀ { g with extraRoots := roots } os) (hallocs : s₀.allocs = s.allocs)
    (hn : roots.length ≤ maxExtraRootsNumber) (hfuel : g.heap.current - g.heap.begin < fuel)
    {type : LamaType} (hsized : Sized type k) (hfits : objSize (zeroed type k) < 2 ^ 61)
    (hmmap : Maps M { g with extraRoots := roots } mmap (bytesToWords (objSize (zeroed type k))))
    {allocate : Globals → Result (ℕ × Globals)} {fill : ByteMemory → ℕ → ByteMemory} {o : (ℤ → Word) → Obj}
    {model : Env M → Exec Word}
    (hallocate : ∀ {g₁ g₂ : Globals} {p : ℕ},
      allocObject g₁ fuel mmap (objSize (zeroed type k)) (kindTag type) k = .ok (p, g₂) →
      ∃ m, allocate g₁ = .ok (p, { g₂ with mem := m }) ∧
        ∀ b, b < p + dataHeaderSz ∨ p + objSize (zeroed type k) ≤ b → m b = g₂.mem b)
    (hfill : ∀ {p : ℕ} {a : Word} {s₁ : State} {m m' : ByteMemory} {heap' : MemoryChunk} {os' : List Obj},
      Allocates M s₀ { g with extraRoots := roots } mmap (zeroed type k) p a s₁ m' heap' os' →
      (∀ b, b < p + dataHeaderSz ∨ p + objSize (zeroed type k) ≤ b → m b = m' b) →
      (∀ b, b < p + dataHeaderSz ∨ p + objSize (zeroed type k) ≤ b → fill m (p + dataHeaderSz) b = m' b) ∧
        ContentsAt (fill m (p + dataHeaderSz)) (p + dataHeaderSz) (o s₁.stack))
    (ho : ∀ ws, kind (o ws) = type ∧ (o ws).len = k ∧ o ws ≠ .string [] ∧ objSize (o ws) = objSize (zeroed type k))
    (hmodel : ∀ (s₁ s₂ : State) (a : Word), Prepared M s₀ s₁ → s₂.extraRoots = s₁.extraRoots →
      ∃ touched, ∀ E : Env M, LamaSM.alloc E s₀ = .ok a s₂ → model E s = .ok a (s₂.filled a (o s₂.stack) touched)) :
    ∃ c s' g' os', Simulates M s g (Gc.construct g roots allocate fill) model c s' g' os' := by
  have hg := h.represents.noRoots hnone
  obtain ⟨p, a, s₁, m', heap', os', halloc, hdone⟩ := allocObject_simulates hready hsized hfits hfuel hmmap
  obtain ⟨m, hm, hmrest⟩ := hallocate halloc
  obtain ⟨hrest, hcontents⟩ := hfill hdone hmrest
  obtain ⟨hkind, hlen, hclosed, hsize⟩ := ho s₁.stack
  obtain ⟨os'', hrep⟩ := hdone.filled (o s₁.stack) (by rw [hkind, kind_zeroed]) (by rw [hlen, len_zeroed hsized])
    hclosed hsize hrest hcontents
  obtain ⟨touched, hmodel⟩ := hmodel s₁ { s₁ with
    allocs := s₁.allocs + 1, slack := Function.update s₁.slack a fun _ => 0 } a hdone.prepared rfl
  have hrep' : Represents M (State.filled { s₁ with
      allocs := s₁.allocs + 1, slack := Function.update s₁.slack a fun _ => 0 } a (o s₁.stack) touched)
      { g with mem := fill m (p + dataHeaderSz), heap := heap' } os'' := by
    have hunrooted := hrep.unrooted
    dsimp only at hunrooted
    rw [← hg] at hunrooted
    exact hunrooted.congr rfl rfl rfl rfl rfl
  refine ⟨⟨_, s₁, a, hdone.prepared, hdone.zone, hdone.free, hready.top, hready.nonnull⟩, _, _, os'', ?_, hrep', hmodel, hallocs,
    congrArg (· + 1) (hdone.prepared.allocs.trans hallocs), rfl, hdone.begun⟩
  have hpush : roots.foldlM pushExtraRoot g = .ok { g with extraRoots := roots } := by
    rw [pushExtraRoots_ok _ (by rw [hg]; simpa using hn), hg]
    rfl
  rw [Gc.construct, hpush, except_ok_bind, hm, except_ok_bind]
  dsimp only
  rw [popExtraRoots_ok _ (by rw [List.reverse_reverse]), except_ok_bind, ← hdone.address]
  dsimp only
  rw [← hg]
  rfl

theorem argSlots_shift (i : ℕ) : argSlots args i n = argSlots (args + i : ℕ) 0 n :=
  List.map_congr_left fun k _ => by omega

theorem argSlots_succ : argSlots args 0 (n + 1) = (args : ℤ) :: argSlots args 1 n := by
  unfold argSlots
  rw [List.range_succ_eq_map, List.map_cons, List.map_map]
  refine congrArg₂ List.cons (by omega) (List.map_congr_left fun k _ => ?_)
  dsimp only [Function.comp_apply]
  push_cast
  omega

/-- The slots of an array of arguments, as the code and as the state count them. -/
theorem wordsAt_slots {m : ByteMemory} {a i : ℕ} {stack : ℤ → Word}
    (h : ∀ k < n, load64 m (a + 8 * k) = stack (args + i + k : ℕ)) : WordsAt m a ((argSlots args i n).map stack) := by
  intro k w hk
  rw [argSlots, List.map_map, List.getElem?_map] at hk
  obtain ⟨j, hj, rfl⟩ := Option.map_eq_some_iff.mp hk
  obtain ⟨hlt, rfl⟩ := List.getElem?_eq_some_iff.mp hj
  rw [List.length_range] at hlt
  rw [List.getElem_range, h k hlt]
  push_cast
  rfl

/-- `Barray` -/
theorem Barray_simulates (h : Ready M s g os) (hnone : s.extraRoots = []) (hlow : s.top < args)
    (hhigh : args + n ≤ M.maxStack) (hn : n ≤ maxExtraRootsNumber) (hfuel : g.heap.current - g.heap.begin < fuel)
    (hmmap : Maps M { g with extraRoots := slotAddresses M args n } mmap (bytesToWords (arraySize n))) :
    ∃ c s' g' os', Simulates M s g (Barray g fuel mmap (slotAddress M args) n) (fun E => LamaSM.Barray E args n)
      c s' g' os' := by
  have hmax : maxExtraRootsNumber = 32 := rfl
  have hsize : objSize (zeroed .array n) = arraySize n := by
    rw [arraySize, sizeT_of_lt (by unfold getHeaderSize dataHeaderSz memberSize; omega)]
    simp [zeroed, objSize, getHeaderSize, memberSize]
  have hbytes : objSize (zeroed .array n) = 16 + 8 * n := by simp [zeroed, objSize, dataHeaderSz]
  rw [Barray, ← slotAddresses_eq]
  have hsized : Sized .array n := trivial
  have hfits : objSize (zeroed .array n) < 2 ^ 61 := by omega
  refine h.construct hnone (h.rooted hlow hhigh) rfl (by rw [length_slotAddresses]; exact hn) hfuel hsized hfits (o := fun ws => .array ((argSlots args 0 n).map ws))
    (by rw [hsize]; exact hmmap) (fun {g₁ g₂ p} halloc => ?_) (fun {p a s₁ m m' heap' os'} hdone hm => ?_)
    (fun ws => ?_) fun s₁ s₂ a hprepared hroots₂ => ?_
  · exact ⟨g₂.mem, by rw [allocArray, ← hsize]; exact halloc, fun b _ => rfl⟩
  · obtain ⟨hrest, hwords⟩ := hdone.copied (n := n) (fun i => i) (fun i => args + i) hm
      (fun i hi => by rw [hbytes, dataHeaderSz]; omega) (fun i hi => by omega) (fun i hi j hj hlt => Nat.ne_of_lt hlt)
      (List.map_congr_left fun i hi => by rw [slotAddress_add, memberSize])
    exact ⟨hrest, wordsAt_slots hwords⟩
  · refine ⟨rfl, ?_, (fun heq => by cases heq), ?_⟩
    · simp [Obj.len, length_argSlots]
    · rw [hbytes]
      simp [objSize, length_argSlots, dataHeaderSz]
  · obtain ⟨touched, hread⟩ := readArgs_eq (M := M) (argSlots args 0 n) (s := s₂) fun i hi => by
      rw [mem_argSlots] at hi
      omega
    refine ⟨touched, fun E halloc => ?_⟩
    rw [LamaSM.Barray, exec_bind_of_ok (push_slots hnone (by rw [length_argSlots]; exact hn)),
      exec_bind_of_ok halloc, exec_bind_of_ok hread]
    refine (exec_bind_of_ok (pop_slots ?_)).trans ?_
    · exact hroots₂.trans hprepared.rooted
    · rfl

/-- `Bclosure` -/
theorem Bclosure_simulates (h : Ready M s g os) (hnone : s.extraRoots = []) (hlow : s.top < args)
    (hhigh : args + 1 + n ≤ M.maxStack) (hn : n ≤ maxExtraRootsNumber) (hfuel : g.heap.current - g.heap.begin < fuel)
    (hmmap : Maps M { g with extraRoots := slotAddresses M (args + 1) n } mmap (bytesToWords (closureSize (n + 1)))) :
    ∃ c s' g' os', Simulates M s g (Bclosure g fuel mmap (slotAddress M args) n) (fun E => LamaSM.Bclosure E args n)
      c s' g' os' := by
  have hmax : maxExtraRootsNumber = 32 := rfl
  have hsize : objSize (zeroed .closure (n + 1)) = closureSize (n + 1) := by
    rw [closureSize, sizeT_of_lt (by unfold getHeaderSize dataHeaderSz memberSize; omega)]
    simp [zeroed, objSize, getHeaderSize, memberSize]
  have hbytes : objSize (zeroed .closure (n + 1)) = 16 + 8 * (n + 1) := by simp [zeroed, objSize, dataHeaderSz]
  have hroots : slotAddresses M (args + 1) n = (List.range n).map fun i => slotAddress M args + memberSize * (i + 1) :=
    List.map_congr_left fun i _ => by rw [Nat.add_assoc, slotAddress_add, Nat.add_comm 1 i]
  have hslots : argSlots args 1 n = argSlots (args + 1 : ℕ) 0 n := argSlots_shift 1
  rw [Bclosure, ← hroots]
  have hsized : Sized .closure (n + 1) := Nat.succ_pos n
  have hfits : objSize (zeroed .closure (n + 1)) < 2 ^ 61 := by omega
  refine h.construct hnone (h.rooted (by omega) hhigh) rfl (by rw [length_slotAddresses]; exact hn) hfuel hsized hfits
    (o := fun ws => .closure (ws args) ((argSlots args 1 n).map ws))
    (by rw [hsize]; exact hmmap) (fun {g₁ g₂ p} halloc => ?_) (fun {p a s₁ m m' heap' os'} hdone hm => ?_)
    (fun ws => ?_) fun s₁ s₂ a hprepared hroots₂ => ?_
  · exact ⟨g₂.mem, by rw [allocClosure, ← hsize]; exact halloc, fun b _ => rfl⟩
  · obtain ⟨hrest, hwords⟩ := hdone.copied (n := n + 1) (fun i => i) (fun i => args + i) hm
      (fun i hi => by rw [hbytes, dataHeaderSz]; omega) (fun i hi => by omega) (fun i hi j hj hlt => Nat.ne_of_lt hlt)
      (l := (p + dataHeaderSz, slotAddress M args) :: (List.range n).map fun i =>
        (p + dataHeaderSz + memberSize * (i + 1), slotAddress M args + memberSize * (i + 1)))
      (by
        rw [List.range_succ_eq_map, List.map_cons, List.map_map]
        refine congrArg (_ :: ·) (List.map_congr_left fun i _ => ?_)
        dsimp only [Function.comp_apply]
        rw [slotAddress_add, memberSize])
    refine ⟨hrest, ?_⟩
    have hall : WordsAt _ (p + dataHeaderSz) ((argSlots args 0 (n + 1)).map s₁.stack) := wordsAt_slots hwords
    rw [argSlots_succ] at hall
    exact hall
  · refine ⟨rfl, ?_, (fun heq => by cases heq), ?_⟩
    · simp [Obj.len, length_argSlots]
    · rw [hbytes]
      simp [objSize, length_argSlots, dataHeaderSz]
  · obtain ⟨touched, hread⟩ := readArgs_eq (M := M) (argSlots args 1 n) (s := { s₂ with touched := max s₂.touched args })
      fun i hi => by
        rw [mem_argSlots] at hi
        omega
    refine ⟨touched, fun E halloc => ?_⟩
    rw [LamaSM.Bclosure, exec_bind_of_ok (push_slots hnone (by rw [length_argSlots]; exact hn)), hslots,
      exec_bind_of_ok halloc, exec_bind_of_ok (readOperand_eq (by omega)), ← hslots, exec_bind_of_ok hread]
    refine (exec_bind_of_ok (pop_slots ?_)).trans ?_
    · exact hroots₂.trans (hslots ▸ hprepared.rooted)
    · rfl

/-- `Bsexp` with a tag to read -/
theorem Bsexp_simulates (h : Ready M s g os) (hnone : s.extraRoots = []) (hlow : s.top < args)
    (hhigh : args + 1 + n ≤ M.maxStack) (hn : n ≤ maxExtraRootsNumber) (hfuel : g.heap.current - g.heap.begin < fuel)
    (hmmap : Maps M { g with extraRoots := slotAddresses M (args + 1) n } mmap (bytesToWords (sexpSize n))) :
    ∃ c s' g' os', Simulates M s g (Bsexp g fuel mmap (slotAddress M args) (n + 1))
      (fun E => LamaSM.Bsexp E args (n + 1)) c s' g' os' := by
  have hmax : maxExtraRootsNumber = 32 := rfl
  have hd : dataHeaderSz = 16 := rfl
  have hsize : objSize (zeroed .sexp n) = sexpSize n := by
    rw [sexpSize, sizeT_of_lt (by unfold getHeaderSize dataHeaderSz memberSize; omega)]
    simp [zeroed, objSize, getHeaderSize, memberSize]
  have hbytes : objSize (zeroed .sexp n) = 16 + 8 * (n + 1) := by simp [zeroed, objSize, dataHeaderSz]
  have hroots : slotAddresses M (args + 1) n = (List.range n).map fun i => slotAddress M args + memberSize * (i + 1) :=
    List.map_congr_left fun i _ => by rw [Nat.add_assoc, slotAddress_add, Nat.add_comm 1 i]
  have hslots : argSlots args 1 n = argSlots (args + 1 : ℕ) 0 n := argSlots_shift 1
  have hmembers : sizeT (n + 1 + (2 ^ 64 - 1)) = n := by
    unfold sizeT
    omega
  rw [Bsexp, Nat.add_sub_cancel, hmembers, ← hroots]
  have hsized : Sized .sexp n := trivial
  have hfits : objSize (zeroed .sexp n) < 2 ^ 61 := by omega
  refine h.construct hnone (h.rooted (by omega) hhigh) rfl (by rw [length_slotAddresses]; exact hn) hfuel hsized hfits
    (o := fun ws => .sexp (BitVec.ofInt 64 (unbox (ws args))) ((argSlots args 1 n).map ws).reverse)
    (by rw [hsize]; exact hmmap) (fun {g₁ g₂ p} halloc => ?_) (fun {p a s₁ m m' heap' os'} hdone hm => ?_)
    (fun ws => ?_) fun s₁ s₂ a hprepared hroots₂ => ?_
  · refine ⟨store64 g₂.mem (p + dataHeaderSz) 0, ?_, fun b hb => store64_of_not_mem (by omega)⟩
    rw [allocSexp, ← hsize]
    have halloc' : allocObject g₁ fuel mmap (objSize (zeroed .sexp n)) sexpTag n = .ok (p, g₂) := halloc
    rw [halloc', except_ok_bind]
    rfl
  · have hin : p + objSize (zeroed .sexp n) ≤ slotAddress M args ∨ slotAddress M args + 8 ≤ p :=
      hdone.represents.apart_slot hdone.place (by omega)
    have htag : load64 m' (slotAddress M args) = s₁.stack args := hdone.represents.stack args (by omega)
    obtain ⟨hrest, hwords⟩ := hdone.copied (n := n) (fun i => 1 + (n - (i + 1))) (fun i => args + 1 + i)
      (m := store64 m (p + dataHeaderSz) 0) (fun b hb => (store64_of_not_mem (by omega)).trans (hm b hb))
      (fun i hi => by rw [hbytes, dataHeaderSz]; omega) (fun i hi => by omega) (fun i hi j hj hlt => by omega)
      (l := (List.range n).map fun i => (p + dataHeaderSz + wordSize + memberSize * (n - (i + 1)),
        slotAddress M args + memberSize * (i + 1)))
      (List.map_congr_left fun i _ => by
        rw [Nat.add_assoc args, slotAddress_add, Nat.add_comm 1 i, wordSize, memberSize]
        refine congrArg₂ Prod.mk ?_ rfl
        omega)
    dsimp only
    generalize copyArgs _ _ = m₂ at hrest hwords ⊢
    have harg : load64 m₂ (slotAddress M args) = s₁.stack args :=
      (Copied.load64 fun k hk => hrest _ (by omega)).trans htag
    refine ⟨fun b hb => (store64_of_not_mem (by omega)).trans (hrest b hb), fun k w hk => ?_⟩
    cases k with
    | zero =>
      cases hk
      rw [harg]
      exact load64_store64
    | succ k =>
      rw [List.getElem?_cons_succ] at hk
      obtain ⟨hlt, rfl⟩ := List.getElem?_eq_some_iff.mp hk
      simp only [List.length_reverse, List.length_map, length_argSlots] at hlt
      rw [load64_store64_of_disjoint (by omega)]
      have hword := hwords (n - (k + 1)) (by omega)
      rw [show n - (n - (k + 1) + 1) = k by omega] at hword
      rw [show p + dataHeaderSz + 8 * (k + 1) = p + dataHeaderSz + 8 * (1 + k) by omega, hword, List.getElem_reverse,
        List.getElem_map]
      simp only [argSlots, List.getElem_map, List.getElem_range, List.length_map, List.length_range]
      refine congrArg s₁.stack ?_
      omega
  · refine ⟨rfl, ?_, (fun heq => by cases heq), ?_⟩
    · simp [Obj.len, length_argSlots]
    · rw [hbytes]
      simp [objSize, length_argSlots, dataHeaderSz]
  · obtain ⟨touched, hread⟩ := readArgs_eq (M := M) (argSlots args 1 n) (s := s₂) fun i hi => by
      rw [mem_argSlots] at hi
      omega
    have htag := readOperand_eq (M := M) (s := { s₂ with touched := touched }) (i := args) (by omega)
    refine ⟨max touched args, fun E halloc => ?_⟩
    rw [LamaSM.Bsexp, Nat.add_sub_cancel, exec_bind_of_ok (push_slots hnone (by rw [length_argSlots]; exact hn)), hslots,
      exec_bind_of_ok halloc, if_neg (Nat.succ_ne_zero n), ← hslots, exec_bind_of_ok hread, exec_bind_of_ok htag]
    refine (exec_bind_of_ok (pop_slots ?_)).trans ?_
    · exact hroots₂.trans (hslots ▸ hprepared.rooted)
    · rfl

end Constructors

end Gc
end LamaSM
