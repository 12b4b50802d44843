import PoolMemalloc.Ports.BitmapRegion
import PoolMemalloc.Verified.Transition

/-!
# `BitmapAllocator`

The class as one thread uses it: construction, `alloc`, `dealloc`, and the
system of whole calls in which every pointer given to `dealloc` is live.

`std::aligned_alloc` is the environment: the constructor is given, for each of
its two calls, the address returned for the number of bytes it asks for, null
being a failure.
-/

namespace PoolMemalloc.Ports.BitmapAllocator

open PoolMemalloc.Verified.SizeT
open PoolMemalloc.Verified.WordBitmap
open PoolMemalloc.Verified.Transition
open PoolMemalloc.Ports.BlockArray
open PoolMemalloc.Ports.BitmapRegion

/-- `m_block_size`, and the remaining members as a region. -/
structure Allocator where
  blockSize : Nat
  pool : Region
  deriving Repr, DecidableEq

/-- `m_block_size` after the constructor: at least 16, then rounded up. -/
def storedBlockSize (blockSize : Nat) : Nat :=
  roundUp64 (if blockSize < 16 then 16 else blockSize)

/-- The constructor; `none` where it throws `std::bad_alloc`. -/
def construct (alignedAlloc alignedAllocWords : Nat → Nat)
    (blockSize blockCount : Nat) : Option Allocator :=
  let memory := alignedAlloc (wrap (storedBlockSize blockSize * blockCount))
  if memory = 0 then none
  else if alignedAllocWords (wrap (8 * wordsFor blockCount)) = 0 then none
  else some ⟨storedBlockSize blockSize, fresh memory blockCount⟩

/-- `alloc`; null is `0`. -/
def alloc (a : Allocator) : Nat × Allocator :=
  let res := allocIndex a.pool
  (res.1.elim 0 (indexToPtr a.blockSize a.pool.memory), { a with pool := res.2 })

def dealloc (a : Allocator) (ptr : Nat) : Allocator :=
  { a with
    pool := deallocIndex a.pool (ptrToIndex a.blockSize a.pool.memory ptr) }

/-! ## Runs of whole calls -/

/-- The allocator and the pointers its user holds. -/
structure State where
  allocator : Allocator
  live : List Nat
  deriving Repr, DecidableEq

inductive Call
  | alloc
  | dealloc (ptr : Nat)
  deriving Repr, DecidableEq

/-- One call; `dealloc` is only given live pointers. -/
def exec (s : State) : Call → Option State
  | .alloc =>
      let (ptr, a) := alloc s.allocator
      some ⟨a, if ptr = 0 then s.live else ptr :: s.live⟩
  | .dealloc ptr =>
      if ptr ∈ s.live then some ⟨dealloc s.allocator ptr, s.live.erase ptr⟩
      else none

/-- Runs of whole calls on a newly constructed allocator. -/
def calls (a : Allocator) : System State Call :=
  ofExec (fun s => s = ⟨a, []⟩) exec

/-- Block `i` is held by the user. -/
def Live (s : State) (i : Nat) : Prop :=
  LiveIn s.allocator.blockSize s.allocator.pool.memory
    s.allocator.pool.blockCount s.live i

/-- `a` came out of a construction that did not throw, for sizes that do not
wrap, with an `aligned_alloc` that keeps its promise. -/
structure Constructed (blockSize blockCount : Nat) (a : Allocator) : Prop where
  sizes : SizesFit (if blockSize < 16 then 16 else blockSize) blockCount
  made : ∃ alignedAlloc alignedAllocWords, AlignedAlloc alignedAlloc ∧
    construct alignedAlloc alignedAllocWords blockSize blockCount = some a

/-- A constructed allocator is a fresh, well-placed region. -/
theorem Constructed.placed {blockSize blockCount : Nat} {a : Allocator}
    (h : Constructed blockSize blockCount a) :
    a = ⟨storedBlockSize blockSize, fresh a.pool.memory blockCount⟩ ∧
      Placed (storedBlockSize blockSize) a.pool.memory blockCount ∧
      blockCount + 63 < 2 ^ 64 := by
  obtain ⟨hsizes, alignedAlloc, alignedAllocWords, hspec, hmade⟩ := h
  have hpos : 0 < if blockSize < 16 then 16 else blockSize := by split <;> omega
  unfold construct at hmade
  dsimp only at hmade
  split at hmade
  · cases hmade
  · next hmemory =>
      split at hmade
      · cases hmade
      · cases hmade
        exact ⟨rfl, placed_of_granted hspec hpos hsizes hmemory,
          hsizes.count_lt hpos⟩

/-- What holds between calls: the geometry of the constructed allocator, and a
bitmap that marks exactly the live blocks. -/
structure Inv (blockSize memory blockCount : Nat) (s : State) : Prop where
  sizeEq : s.allocator.blockSize = blockSize
  memoryEq : s.allocator.pool.memory = memory
  countEq : s.allocator.pool.blockCount = blockCount
  nodup : s.live.Nodup
  blocks : ∀ p ∈ s.live, ∃ i, i < blockCount ∧ p = indexToPtr blockSize memory i
  tracks : Tracks s.allocator.pool (LiveIn blockSize memory blockCount s.live)

variable {blockSize memory blockCount : Nat}

theorem inv_init (hcount : blockCount < 2 ^ 64) :
    Inv blockSize memory blockCount
      ⟨⟨blockSize, fresh memory blockCount⟩, []⟩ where
  sizeEq := rfl
  memoryEq := rfl
  countEq := rfl
  nodup := List.nodup_nil
  blocks := by simp
  tracks := (fresh_tracks memory hcount).congr fun i => by simp [LiveIn]

/-- A null result changes nothing. -/
theorem Inv.alloc_null {s : State} (h : Inv blockSize memory blockCount s)
    (hnone : (allocIndex s.allocator.pool).1 = none) :
    alloc s.allocator = (0, s.allocator) := by
  have hpool := h.tracks.allocIndex_of_none hnone
  simp [alloc, hnone, hpool]

/-- A non-null result is the address of a block that was free. -/
theorem Inv.alloc_block (hplaced : Placed blockSize memory blockCount)
    {s : State} (h : Inv blockSize memory blockCount s) {i : Nat}
    (hsome : (allocIndex s.allocator.pool).1 = some i) :
    i < blockCount ∧ indexToPtr blockSize memory i ∉ s.live ∧
      (alloc s.allocator).1 = indexToPtr blockSize memory i ∧
      (alloc s.allocator).1 ≠ 0 := by
  obtain ⟨rfl, rfl, rfl, -, -, htracks⟩ := h
  obtain ⟨hi, hfree, -, -⟩ := htracks.allocIndex_of_some hsome
  have hptr : (alloc s.allocator).1 =
      indexToPtr s.allocator.blockSize s.allocator.pool.memory i := by
    simp [alloc, hsome]
  exact ⟨hi, fun hlive => hfree ⟨hi, hlive⟩, hptr,
    hptr ▸ hplaced.indexToPtr_ne_zero hi⟩

/-- `alloc` returns null exactly when its probe claims nothing. -/
theorem Inv.alloc_eq_zero_iff (hplaced : Placed blockSize memory blockCount)
    {s : State} (h : Inv blockSize memory blockCount s) :
    (alloc s.allocator).1 = 0 ↔ (allocIndex s.allocator.pool).1 = none := by
  cases hres : (allocIndex s.allocator.pool).1 with
  | none => simp [h.alloc_null hres]
  | some i => simpa using (h.alloc_block hplaced hres).2.2.2

theorem Inv.alloc (hplaced : Placed blockSize memory blockCount)
    {s s' : State} (h : Inv blockSize memory blockCount s)
    (hstep : exec s .alloc = some s') : Inv blockSize memory blockCount s' := by
  cases hres : (allocIndex s.allocator.pool).1 with
  | none =>
      rw [exec, h.alloc_null hres] at hstep
      cases hstep
      exact h
  | some i =>
      obtain ⟨hi, hfree, hptr, hne⟩ := h.alloc_block hplaced hres
      obtain ⟨rfl, rfl, rfl, hnodup, hblocks, htracks⟩ := h
      obtain ⟨-, -, htracks', hpool⟩ := htracks.allocIndex_of_some hres
      simp only [exec, if_neg hne, Option.some.injEq] at hstep
      subst hstep
      refine ⟨rfl, by simp [BitmapAllocator.alloc, hpool],
        by simp [BitmapAllocator.alloc, hpool], ?_, ?_, ?_⟩
      · exact List.nodup_cons.mpr ⟨hptr ▸ hfree, hnodup⟩
      · intro p hp
        rcases List.mem_cons.mp hp with rfl | hp
        · exact ⟨i, hi, hptr⟩
        · exact hblocks p hp
      · refine htracks'.congr fun j => ?_
        rw [hptr]
        exact hplaced.liveIn_cons s.live hi j

theorem Inv.dealloc (hplaced : Placed blockSize memory blockCount)
    {s s' : State} (h : Inv blockSize memory blockCount s) {ptr : Nat}
    (hstep : exec s (.dealloc ptr) = some s') :
    Inv blockSize memory blockCount s' := by
  obtain ⟨rfl, rfl, rfl, hnodup, hblocks, htracks⟩ := h
  simp only [exec, Option.ite_none_right_eq_some, Option.some.injEq] at hstep
  obtain ⟨hlive, rfl⟩ := hstep
  obtain ⟨i, hi, rfl⟩ := hblocks ptr hlive
  refine ⟨rfl, rfl, rfl, hnodup.erase _,
    fun p hp => hblocks p (List.mem_of_mem_erase hp), ?_⟩
  have hindex := hplaced.ptrToIndex_indexToPtr hi
  have htracks' := htracks.deallocIndex (i := i) ⟨hi, hlive⟩
  rw [show (BitmapAllocator.dealloc s.allocator _).pool =
    deallocIndex s.allocator.pool i by rw [BitmapAllocator.dealloc, hindex]]
  exact htracks'.congr fun j => hplaced.liveIn_erase hnodup hi j

/-- The invariant holds in every state a run of calls reaches. -/
theorem Constructed.inv {a : Allocator} (ha : Constructed blockSize blockCount a)
    {s : State} (h : Reachable (calls a) s) :
    Inv (storedBlockSize blockSize) a.pool.memory blockCount s := by
  obtain ⟨heq, hplaced, hcount⟩ := ha.placed
  refine Reachable.invariant ?_ ?_ h
  · rintro s rfl
    rw [heq]
    exact inv_init (by omega)
  · intro s c s' _ hs hstep
    cases c with
    | alloc => exact hs.alloc hplaced hstep
    | dealloc ptr => exact hs.dealloc hplaced hstep

/-- A pool of 65 blocks of 64 bytes at address 4096. -/
def pool65 : Allocator := ⟨64, fresh 4096 65⟩

theorem pool65_constructed : Constructed 64 65 pool65 where
  sizes := by unfold SizesFit; decide
  made := ⟨_, fun _ => 8192, @alignedAlloc_fixed 4096 4160 (by decide) (by decide),
    by decide⟩

end PoolMemalloc.Ports.BitmapAllocator
