import Mathlib.Data.Nat.Bitwise
import PoolMemalloc.Ports.BlockArray
import PoolMemalloc.Ports.FreelistAllocator

/-!
# `ThreadLocalFreelistAllocator`

The members that no call changes, the constructor, and what it leaves behind:
`Constructed.seeded` says that the global list holds every block of the region
once, and `Constructed.placed` where these blocks are.
-/

namespace PoolMemalloc.Ports.TlFreelistAllocator

open PoolMemalloc.Verified.SizeT
open PoolMemalloc.Verified.LinkedChain
open PoolMemalloc.Ports.BlockArray
open PoolMemalloc.Ports.FreelistAllocator

/-- `(val + alignment - 1) & ~(alignment - 1)`. -/
def alignUp (val alignment : Nat) : Nat :=
  wrap (val + alignment - 1) &&& (sizeMax - (alignment - 1))

/-- `CACHE_LINE`. -/
def cacheLine : Nat := 64

/-- `sizeof(FreeBlock)`: one pointer, aligned to 64. -/
def sizeofFreeBlock : Nat := 64

/-- `block_sz < sizeof(FreeBlock) ? sizeof(FreeBlock) : block_sz`. -/
def atLeastFreeBlock (blockSz : Nat) : Nat :=
  if blockSz < sizeofFreeBlock then sizeofFreeBlock else blockSz

structure Allocator where
  global : TaggedPtr
  batchSize : Nat
  blockSize : Nat
  blockCount : Nat
  region : Nat
  deriving Repr, DecidableEq

/-- The loop of the constructor, up to block `count`. -/
def seed (region blockSize : Nat) (next : Heap) : Nat → Heap × TaggedPtr
  | 0 => (next, ⟨0, 0⟩)
  | i + 1 =>
      let pushed := seed region blockSize next i
      push pushed.1 pushed.2 (indexToPtr blockSize region i)

/-- The constructor; `none` is `std::bad_alloc`.  `next` is what the memory holds
before. -/
def construct (alignedAlloc : Nat → Nat) (next : Heap)
    (blockSz numBlocks batch : Nat) : Option (Allocator × Heap) :=
  let blockSize := alignUp (atLeastFreeBlock blockSz) cacheLine
  let total := alignUp (wrap (blockSize * numBlocks)) cacheLine
  let region := alignedAlloc total
  if region = 0 then none
  else
    let seeded := seed region blockSize next numBlocks
    some
      ({ global := seeded.2
         batchSize := batch
         blockSize := blockSize
         blockCount := numBlocks
         region := region }, seeded.1)

/-- The addresses of the blocks of a region, in order. -/
def blocksOf (blockSize region count : Nat) : List Nat :=
  (List.range count).map (indexToPtr blockSize region)

/-! ## Sizes -/

/-- Clearing the low six bits rounds down to a multiple of 64. -/
theorem and_mask (n : Nat) (h : n < 2 ^ 64) : n &&& (sizeMax - 63) = n / 64 * 64 := by
  have hmask : sizeMax - 63 = (2 ^ 58 - 1) <<< 6 := by decide
  have hround : n / 64 * 64 = (n >>> 6) <<< 6 := by
    rw [Nat.shiftLeft_eq, Nat.shiftRight_eq_div_pow]
  rw [hmask, hround]
  apply Nat.eq_of_testBit_eq
  intro i
  rw [Nat.testBit_and, Nat.testBit_shiftLeft, Nat.testBit_shiftLeft,
    Nat.testBit_shiftRight, Nat.testBit_two_pow_sub_one]
  by_cases hi : 6 ≤ i
  · by_cases hlt : i - 6 < 58
    · simp [hi, hlt]
    · have hbig : n < 2 ^ i :=
        Nat.lt_of_lt_of_le h (Nat.pow_le_pow_right (by decide) (by omega))
      simp [hi, hlt, Nat.testBit_lt_two_pow hbig]
  · simp [hi]

theorem alignUp_eq (val : Nat) : alignUp val cacheLine = roundUp64 val :=
  and_mask _ (wrap_lt _)

theorem le_atLeastFreeBlock (blockSz : Nat) : blockSz ≤ atLeastFreeBlock blockSz := by
  unfold atLeastFreeBlock
  split <;> omega

theorem atLeastFreeBlock_pos (blockSz : Nat) : 0 < atLeastFreeBlock blockSz := by
  unfold atLeastFreeBlock sizeofFreeBlock
  split <;> omega

theorem dvd_roundUp64 (val : Nat) : 64 ∣ roundUp64 val := Nat.dvd_mul_left _ _

/-- A multiple of 64 is its own rounding. -/
theorem roundUp64_of_dvd {val : Nat} (hlt : val < 2 ^ 64) (h : 64 ∣ val) :
    roundUp64 val = val := by
  unfold roundUp64 wrap
  omega

/-- The bytes the constructor asks for. -/
def regionBytes (blockSz numBlocks : Nat) : Nat :=
  alignUp (wrap (alignUp (atLeastFreeBlock blockSz) cacheLine * numBlocks)) cacheLine

theorem regionBytes_eq {blockSz numBlocks : Nat}
    (h : SizesFit (atLeastFreeBlock blockSz) numBlocks) :
    regionBytes blockSz numBlocks =
      roundUp64 (atLeastFreeBlock blockSz) * numBlocks := by
  rw [regionBytes, alignUp_eq, alignUp_eq, wrap_of_lt h.2]
  exact roundUp64_of_dvd h.2 (Nat.dvd_mul_right_of_dvd (dvd_roundUp64 _) _)

/-! ## The constructed allocator -/

section Seeding

variable {region blockSize count : Nat}

theorem length_blocksOf : (blocksOf blockSize region count).length = count := by
  rw [blocksOf, List.length_map, List.length_range]

theorem nodup_blocksOf (h : Placed blockSize region count) :
    (blocksOf blockSize region count).Nodup := by
  refine List.Nodup.map_on ?_ List.nodup_range
  intro i hi j hj heq
  exact h.indexToPtr_injective (List.mem_range.mp hi) (List.mem_range.mp hj) heq

theorem mem_blocksOf {b : Nat} : b ∈ blocksOf blockSize region count ↔
    ∃ i, i < count ∧ b = indexToPtr blockSize region i := by
  simp only [blocksOf, List.mem_map, List.mem_range, eq_comm]

theorem zero_notMem_blocksOf (h : Placed blockSize region count) :
    0 ∉ blocksOf blockSize region count := by
  intro hmem
  obtain ⟨i, hi, heq⟩ := mem_blocksOf.mp hmem
  exact h.indexToPtr_ne_zero hi heq.symm

/-- The loop of the constructor puts the blocks on the list, the last on top. -/
theorem seed_chain (next : Heap) (h : Placed blockSize region count) : ∀ n, n ≤ count →
    Chain 0 (seed region blockSize next n).1 (seed region blockSize next n).2.ptr
      (blocksOf blockSize region n).reverse := by
  intro n
  induction n with
  | zero => exact fun _ => rfl
  | succ i ih =>
      intro hi
      have hrest := ih (by omega)
      have hstep : (blocksOf blockSize region (i + 1)).reverse =
          indexToPtr blockSize region i :: (blocksOf blockSize region i).reverse := by
        simp [blocksOf, List.range_succ]
      rw [hstep]
      refine push_chain hrest (h.indexToPtr_ne_zero (by omega)) ?_
      rw [List.mem_reverse, mem_blocksOf]
      rintro ⟨j, hj, heq⟩
      have := h.indexToPtr_injective (by omega) (by omega) heq
      omega

/-- It writes only into the blocks. -/
theorem seed_of_notMem (next : Heap) {n b : Nat} (hb : b ∉ blocksOf blockSize region n) :
    (seed region blockSize next n).1 b = next b := by
  induction n with
  | zero => rfl
  | succ i ih =>
      have hsplit : blocksOf blockSize region (i + 1) =
          blocksOf blockSize region i ++ [indexToPtr blockSize region i] := by
        simp [blocksOf, List.range_succ]
      rw [hsplit, List.mem_append, List.mem_singleton, not_or] at hb
      exact (push_of_ne hb.2).trans (ih hb.1)

end Seeding

/-- `a` and the heap `next` came out of the constructor, for sizes that do not
wrap. -/
structure Constructed (blockSz numBlocks batch : Nat) (a : Allocator) (next : Heap) :
    Prop where
  sizes : SizesFit (atLeastFreeBlock blockSz) numBlocks
  made : ∃ alignedAlloc before, AlignedAlloc alignedAlloc ∧
    construct alignedAlloc before blockSz numBlocks batch = some (a, next)

section Constructed

variable {blockSz numBlocks batch : Nat} {a : Allocator} {next : Heap}

/-- What the constructor leaves, field by field. -/
theorem Constructed.fields (h : Constructed blockSz numBlocks batch a next) :
    a.blockSize = roundUp64 (atLeastFreeBlock blockSz) ∧
      a.blockCount = numBlocks ∧ a.batchSize = batch ∧
      Placed a.blockSize a.region a.blockCount ∧ 64 ∣ a.region ∧
      ∃ before, (next, a.global) = seed a.region a.blockSize before numBlocks := by
  obtain ⟨hsizes, alignedAlloc, before, hspec, hmade⟩ := h
  have htotal := regionBytes_eq hsizes
  rw [← wrap_of_lt hsizes.2] at htotal
  simp only [regionBytes, alignUp_eq] at htotal
  unfold construct at hmade
  simp only [alignUp_eq, htotal] at hmade
  split at hmade
  · cases hmade
  · next hgranted =>
      cases hmade
      exact ⟨rfl, rfl, rfl,
        placed_of_granted hspec (atLeastFreeBlock_pos blockSz) hsizes hgranted,
        (hspec _ hgranted).1, before, rfl⟩

theorem Constructed.placed (h : Constructed blockSz numBlocks batch a next) :
    Placed a.blockSize a.region a.blockCount :=
  h.fields.2.2.2.1

/-- Blocks are at least as large as asked for. -/
theorem Constructed.le_blockSize (h : Constructed blockSz numBlocks batch a next) :
    blockSz ≤ a.blockSize := by
  have hsize := h.fields.1
  have hround := le_roundUp64 h.sizes.1
  rw [hsize]
  exact Nat.le_trans (le_atLeastFreeBlock blockSz) hround

theorem Constructed.dvd (h : Constructed blockSz numBlocks batch a next) :
    64 ∣ a.region ∧ 64 ∣ a.blockSize := by
  obtain ⟨hsize, -, -, -, hregion, -⟩ := h.fields
  exact ⟨hregion, hsize ▸ dvd_roundUp64 _⟩

/-- The global list holds every block of the region. -/
theorem Constructed.seeded (h : Constructed blockSz numBlocks batch a next) :
    Chain 0 next a.global.ptr
      (blocksOf a.blockSize a.region a.blockCount).reverse := by
  obtain ⟨-, hcount, -, hplaced, -, before, hseed⟩ := h.fields
  have hchain := seed_chain before hplaced a.blockCount (Nat.le_refl _)
  rw [hcount, ← hseed] at hchain
  exact hcount ▸ hchain

end Constructed

/-- The constructor, when memory is granted at an aligned address with the bytes asked
for inside the address space. -/
theorem constructed_of_granted {granted blockSz numBlocks batch : Nat} {a : Allocator}
    {before next : Heap} (hsizes : SizesFit (atLeastFreeBlock blockSz) numBlocks)
    (haligned : 64 ∣ granted) (hfits : granted + regionBytes blockSz numBlocks < 2 ^ 64)
    (hmade : construct (fun _ => granted) before blockSz numBlocks batch =
      some (a, next)) : Constructed blockSz numBlocks batch a next where
  sizes := hsizes
  made := by
    refine ⟨_, before, alignedAlloc_fixed haligned hfits, ?_⟩
    unfold construct at hmade ⊢
    simpa only [regionBytes, Nat.le_refl, if_true] using hmade

/-- The constructor writes only into the blocks of the new allocator. -/
theorem construct_of_notMem {alignedAlloc : Nat → Nat} {blockSz numBlocks batch : Nat}
    {a : Allocator} {before next : Heap} {b : Nat}
    (hmade : construct alignedAlloc before blockSz numBlocks batch = some (a, next))
    (hb : b ∉ blocksOf a.blockSize a.region a.blockCount) : next b = before b := by
  unfold construct at hmade
  simp only at hmade
  split at hmade
  · cases hmade
  · cases hmade
    exact seed_of_notMem before hb

/-- Three blocks of 64 bytes for requests of 48, with batches of 2. -/
def tlPool3 : Allocator :=
  { global := ⟨4224, 3⟩, batchSize := 2, blockSize := 64, blockCount := 3,
    region := 4096 }

/-- The links its constructor writes into memory that was zero. -/
def tlHeap3 : Heap := (seed 4096 64 (fun _ => 0) 3).1

theorem tlPool3_constructed : Constructed 48 3 2 tlPool3 tlHeap3 where
  sizes := by unfold SizesFit; decide
  made := ⟨_, fun _ => 0, @alignedAlloc_fixed 4096 192 (by decide) (by decide), rfl⟩

end PoolMemalloc.Ports.TlFreelistAllocator
