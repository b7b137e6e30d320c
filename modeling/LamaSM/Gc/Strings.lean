import LamaSM.Gc.Construction

/-! `LmakeString` and `Bstring` (`runtime/runtime.c`): an object made of the characters of a C string.

    The word that points to the characters is rooted although it lies outside the stack. It is no heap
    address, so a collection in between leaves it alone, and the characters are copied from where they were. -/

namespace LamaSM
namespace Gc
open Lib

section Code

variable (g : Globals) (fuel : ℕ) (mmap : ℕ → Option ℕ)

/-- `LmakeString` -/
def LmakeString (length : Word) : Result (ℕ × Globals) := do
  let n := unbox length
  let (r, g) ← allocString g fuel mmap (BitVec.ofInt 64 n).toNat
  return (r + dataHeaderSz, g)

/-- `Bstring`; `args` is the address of `args[0]`. -/
def Bstring (args : ℕ) : Result (ℕ × Globals) :=
  match strlen g.mem fuel (load64 g.mem args).toNat with
  | none => throw .timeout
  | some n => construct g [args] (fun g => do
      let (s, g) ← LmakeString g fuel mmap (boxInt n)
      return (toData s, g)) fun m contents => strncpy m contents (load64 m args).toNat (n + 1)

end Code

/-- The word at `cell` points to the characters, and both lie apart from what a collection may change that
    scans `roots` among others. -/
structure CStringAt (M : Machine) (g : Globals) (mmap : ℕ → Option ℕ) (roots : List ℕ) (cell : ℕ) (bytes : List UInt8) :
    Prop where
  root : cell ∈ roots
  elsewhere : Elsewhere M g cell
  zone : M.heapZone (load64 g.mem cell) = false
  nonnull : load64 g.mem cell ≠ 0
  chars : CString g.mem (load64 g.mem cell).toNat bytes
  heap : (load64 g.mem cell).toNat + bytes.length < g.heap.begin ∨ g.heap.end ≤ (load64 g.mem cell).toNat
  fixed : ∀ q ∈ fixedAddresses { g with extraRoots := roots },
    (load64 g.mem cell).toNat + bytes.length < q ∨ q + 8 ≤ (load64 g.mem cell).toNat
  mapped : ∀ size start, mmap size = some start →
    (load64 g.mem cell).toNat + bytes.length < start ∨ start + size ≤ (load64 g.mem cell).toNat

section Bstring

variable {M : Machine} {s s₀ : State} {g : Globals} {os : List Obj} {roots : List ℕ} {cell id fuel : ℕ}
  {mmap : ℕ → Option ℕ} {bytes : List UInt8}

/-- The characters and the word that points to them lie apart from the new heap. -/
theorem CStringAt.apart (hp : CStringAt M g mmap roots cell bytes) {s₁ : State} {o : Obj} {p : ℕ} {a : Word}
    {m' : ByteMemory} {heap' : MemoryChunk} {os' : List Obj}
    (hdone : Allocates M s₀ { g with extraRoots := roots } mmap o p a s₁ m' heap' os') :
    (cell + 8 ≤ p ∨ p + objSize o ≤ cell) ∧
      ((load64 g.mem cell).toNat + bytes.length < heap'.begin ∨ heap'.end ≤ (load64 g.mem cell).toNat) ∧
      ((load64 g.mem cell).toNat + bytes.length < p ∨ p + objSize o ≤ (load64 g.mem cell).toNat) := by
  have hrep := hdone.represents
  have hplace := hrep.layout.place hdone.place
  have hsize := objSize_le_room o
  have hfilled := hrep.placed.chunk.filled
  have hheap := hp.heap
  have hmapped := hp.mapped
  have hcell : cell + 8 ≤ heap'.begin ∨ heap'.end ≤ cell := by
    obtain ⟨r, -, hroot⟩ := hrep.root hp.root
    cases hroot with
    | slot _ hhigh =>
      have hstack := hp.elsewhere.stack
      unfold slotAddress at hstack
      omega
    | cell helse _ => exact helse.heap
  have hchars : (load64 g.mem cell).toNat + bytes.length < heap'.begin ∨ heap'.end ≤ (load64 g.mem cell).toNat := by
    rcases hdone.chunk with ⟨hbegin, hend⟩ | ⟨size, hmap, hend⟩
    · dsimp only at hbegin hend
      omega
    · have := hmapped size _ hmap
      omega
  dsimp only at hplace hfilled
  exact ⟨by omega, hchars, by omega⟩

/-- The characters and the word that points to them outlive the allocation. -/
theorem CStringAt.kept (hp : CStringAt M g mmap roots cell bytes) (hready : Ready M s₀ { g with extraRoots := roots } os)
    {s₁ : State} {o : Obj} {p : ℕ} {a : Word} {m' : ByteMemory} {heap' : MemoryChunk} {os' : List Obj}
    (hdone : Allocates M s₀ { g with extraRoots := roots } mmap o p a s₁ m' heap' os') :
    load64 m' cell = load64 g.mem cell ∧
      Copied g.mem (load64 g.mem cell).toNat m' (load64 g.mem cell).toNat (bytes.length + 1) := by
  have hrep := hready.represents
  have hmem : cell ∈ fixedAddresses { g with extraRoots := roots } := by
    refine List.mem_append_left _ (List.mem_append_right _ (List.mem_filter.mpr ⟨hp.root, ?_⟩))
    rw [Bool.not_eq_true', Bool.eq_false_iff]
    intro hskip
    obtain ⟨r, hr, hroot⟩ := hrep.root hp.root
    obtain ⟨i, hi, heq⟩ := (hroot.skips hrep.top hrep.placed.bottom hready.top).mp hskip
    have hstack := hp.elsewhere.stack
    unfold slotAddress at *
    omega
  obtain ⟨-, hchars, -⟩ := hp.apart hdone
  refine ⟨hdone.words cell hmem hp.zone, fun k hk => hdone.rest _ ?_ (by omega) fun q hq => ?_⟩
  · have hheap := hp.heap
    dsimp only
    omega
  · have hfixed := hp.fixed q hq
    omega

/-- An object made of the characters, with their address and other words rooted -/
theorem Ready.constructString (h : Ready M s g os) (hnone : s.extraRoots = [])
    (hready : Ready M s₀ { g with extraRoots := roots } os) (hallocs : s₀.allocs = s.allocs)
    (hn : roots.length ≤ maxExtraRootsNumber) (hp : CStringAt M g mmap roots cell bytes) (hlen : bytes.length < 2 ^ 60)
    (hfuel : g.heap.current - g.heap.begin < fuel)
    (hmmap : Maps M { g with extraRoots := roots } mmap (bytesToWords (stringSize bytes.length)))
    {model : Env M → Exec Word}
    (hmodel : ∀ (s₁ s₂ : State) (a : Word), Prepared M s₀ s₁ → s₂.extraRoots = s₁.extraRoots → ∀ E : Env M,
      LamaSM.alloc E s₀ = .ok a s₂ → model E s = .ok a (s₂.filled a (.string (bytes ++ [0])) s₂.touched)) :
    ∃ c s' g' os', Simulates M s g (Gc.construct g roots (fun g => do
      let (s, g) ← LmakeString g fuel mmap (boxInt bytes.length)
      return (toData s, g)) fun m contents => strncpy m contents (load64 m cell).toNat (bytes.length + 1))
        model c s' g' os' := by
  have hd : dataHeaderSz = 16 := rfl
  have hbytesize : objSize (zeroed .string bytes.length) = 16 + bytes.length + 1 := by
    simp [zeroed, objSize, dataHeaderSz, Nat.add_assoc]
  have hsize : objSize (zeroed .string bytes.length) = stringSize bytes.length := by
    rw [stringSize, getHeaderSize, sizeT_of_lt (by omega), hbytesize, hd]
  have hbox : (BitVec.ofInt 64 (unbox (boxInt bytes.length))).toNat = bytes.length := by
    rw [unbox_boxInt (by omega) (by omega), BitVec.toNat_ofInt]
    omega
  have hsized : Sized .string bytes.length := trivial
  have hfits : objSize (zeroed .string bytes.length) < 2 ^ 61 := by omega
  refine h.construct hnone hready hallocs hn hfuel hsized hfits
    (o := fun _ => .string (bytes ++ [0])) (by rw [hsize]; exact hmmap) (fun {g₁ g₂ p} halloc => ?_)
    (fun {p a s₁ m m' heap' os'} hdone hm => ?_) (fun ws => ?_)
    fun s₁ s₂ a hprepared hroots₂ => ⟨s₂.touched, hmodel s₁ s₂ a hprepared hroots₂⟩
  · refine ⟨g₂.mem, ?_, fun b _ => rfl⟩
    have halloc' : allocString g₁ fuel mmap bytes.length = .ok (p, g₂) := by
      rw [allocString, ← hsize]
      exact halloc
    rw [LmakeString, hbox, halloc', except_ok_bind]
    rfl
  · obtain ⟨hword, hchars⟩ := hp.kept hready hdone
    obtain ⟨hcell, -, hapart⟩ := hp.apart hdone
    have hword' : load64 m cell = load64 g.mem cell := (Copied.load64 fun i hi => hm (cell + i) (by omega)).trans hword
    rw [hword']
    have hsource := hp.chars
    generalize (load64 g.mem cell).toNat = src at *
    have hsrc : CString m src bytes := hsource.copied fun i hi => (hm (src + i) (by omega)).trans (hchars i hi)
    refine ⟨fun b hb => (strncpy_of_not_mem (by omega)).trans (hm b hb), ?_⟩
    have hcopy : CString (strncpy m (p + dataHeaderSz) src (bytes.length + 1)) (p + dataHeaderSz) bytes :=
      hsrc.strncpy (by omega)
    rw [ContentsAt, List.length_append, List.length_singleton]
    exact hcopy.bytesFrom
  · refine ⟨rfl, ?_, ?_, ?_⟩
    · simp [Obj.len]
    · simp
    · rw [hbytesize]
      simp [objSize, hd, Nat.add_assoc]

/-- A word elsewhere that is no heap address can be a root. -/
theorem CStringAt.rootAt (hp : CStringAt M g mmap roots cell bytes) {refs : List RootRef} :
    RootAt M { s with extraRoots := refs } { g with extraRoots := roots } (.cell id 1) cell :=
  .cell ⟨hp.elsewhere.stack, hp.elsewhere.custom, hp.elsewhere.heap⟩ (.inr ⟨hp.zone, M.zone_one⟩)

/-- `Bstring` -/
theorem Bstring_simulates (h : Ready M s g os) (hnone : s.extraRoots = []) (hp : CStringAt M g mmap [cell] cell bytes)
    (hlen : bytes.length < 2 ^ 60) (hbytes : bytes.length < fuel) (hfuel : g.heap.current - g.heap.begin < fuel)
    (hmmap : Maps M { g with extraRoots := [cell] } mmap (bytesToWords (stringSize bytes.length))) :
    ∃ c s' g' os', Simulates M s g (Bstring g fuel mmap cell) (fun E => LamaSM.Bstring E id bytes) c s' g' os' := by
  have hready : Ready M { s with extraRoots := [.cell id 1] } { g with extraRoots := [cell] } os := by
    refine h.withRoots (.cons hp.rootAt .nil) (List.pairwise_singleton _ _) (fun i content hmem => ?_) (.inr fun p hp' => ?_)
      fun _ i hzero => ?_
    · cases List.mem_singleton.mp hmem
      exact valid_of_zone M.zone_one
    · rw [List.mem_singleton.mp hp']
      exact hp.nonnull
    · cases List.mem_singleton.mp hzero
  rw [Bstring, hp.chars.strlen hbytes]
  refine h.constructString hnone hready rfl (by simp [maxExtraRootsNumber]) hp hlen hfuel hmmap
    fun s₁ s₂ a hprepared hroots₂ E halloc => ?_
  have hpush : LamaSM.pushExtraRoot (.cell id 1) s = .ok () { s with extraRoots := [.cell id 1] } := by
    rw [← hnone]
    exact if_neg (by rw [hnone]; decide)
  have hpop : LamaSM.popExtraRoot (.cell id 1) s₂ = .ok () { s₂ with extraRoots := [] } := by
    obtain ⟨content, hcells⟩ : ∃ content, s₂.extraRoots = [.cell id content] := by
      rw [hroots₂]
      rcases hprepared with rfl | ⟨heap, forward, slack, -, rfl⟩
      · exact ⟨_, rfl⟩
      · exact ⟨_, rfl⟩
    rw [LamaSM.popExtraRoot, hcells]
    exact if_pos (by simp [RootRef.same])
  rw [LamaSM.Bstring, exec_bind_of_ok hpush, exec_bind_of_ok halloc, exec_bind_of_ok hpop]
  rfl

end Bstring

end Gc
end LamaSM
