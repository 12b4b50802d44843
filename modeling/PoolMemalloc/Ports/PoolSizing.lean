import PoolMemalloc.Ports.BitmapAllocator
import PoolMemalloc.Ports.NumaAllocator
import PoolMemalloc.Ports.TlBitmapAllocator

/-!
# The sizes the constructors compute

What the four constructors leave behind when every request for memory is granted.
They multiply without a check, so a constructor may ask for fewer bytes than its
blocks take and complete all the same.

* `Covered`, `Worded` — blocks of the size asked for, inside the memory, each with its
  bit in the bitmap.
* `le_roundUp64_iff`, `le_wrap_iff` — the two ways to lose that.
* `sized_iff` — each constructor keeps it exactly for sizes that do not wrap.
-/

namespace PoolMemalloc.Ports.PoolSizing

open PoolMemalloc.Verified.SizeT
open PoolMemalloc.Ports.BlockArray
open PoolMemalloc.Ports.BitmapRegion
open PoolMemalloc.Ports.TlFreelistAllocator (alignUp cacheLine atLeastFreeBlock
  atLeastFreeBlock_pos le_atLeastFreeBlock alignUp_eq regionBytes regionBytes_eq)

/-- The system grants requests of any size. -/
def Grants (alignedAlloc : Nat → Nat) : Prop := ∀ bytes, alignedAlloc bytes ≠ 0

/-- `count` blocks of `stored` bytes, no fewer than asked for, lie within the bytes
requested. -/
structure Covered (asked stored count requested : Nat) : Prop where
  atLeast : asked ≤ stored
  covers : stored * count ≤ requested
  inside : ∀ i, i < count → i * stored + stored ≤ requested

/-- Every block has a word in the bitmap. -/
structure Worded (count wordCount : Nat) : Prop where
  covers : count ≤ 64 * wordCount
  word : ∀ i, i < count → i / 64 < wordCount

section Sizes

variable {asked stored count requested wordCount : Nat}

theorem covered_iff :
    Covered asked stored count requested ↔ asked ≤ stored ∧ stored * count ≤ requested := by
  refine ⟨fun h => ⟨h.atLeast, h.covers⟩, fun ⟨hatLeast, hcovers⟩ =>
    ⟨hatLeast, hcovers, fun i hi => ?_⟩⟩
  have hmul := Nat.mul_le_mul_left stored (Nat.succ_le_of_lt hi)
  rw [Nat.mul_succ, Nat.mul_comm] at hmul
  omega

theorem worded_iff : Worded count wordCount ↔ count ≤ 64 * wordCount :=
  ⟨fun h => h.covers, fun hcovers => ⟨hcovers, fun i hi => by omega⟩⟩

/-- Rounding a `size_t` up makes it no smaller unless the sum wraps. -/
theorem le_roundUp64_iff (hasked : asked < 2 ^ 64) :
    asked ≤ roundUp64 asked ↔ asked + 63 < 2 ^ 64 := by
  refine ⟨fun hle => ?_, le_roundUp64⟩
  unfold roundUp64 wrap at hle
  omega

/-- A value is at most what a `size_t` keeps of it only if it is kept. -/
theorem le_wrap_iff {n : Nat} : n ≤ wrap n ↔ n < 2 ^ 64 :=
  ⟨fun hle => Nat.lt_of_le_of_lt hle (wrap_lt n), fun hlt => Nat.le_of_eq (wrap_of_lt hlt).symm⟩

/-- The word count is rounded up, unless that sum wraps. -/
theorem le_wordsFor_iff (hcount : count < 2 ^ 64) :
    count ≤ 64 * wordsFor count ↔ count + 63 < 2 ^ 64 := by
  unfold wordsFor wordBits wrap
  omega

/-- A lower limit on the block size does not change when rounding it is safe. -/
theorem le_round_max_iff {least : Nat} (hasked : asked < 2 ^ 64) (hleast : least ≤ 64) :
    asked ≤ roundUp64 (if asked < least then least else asked) ↔
      (if asked < least then least else asked) + 63 < 2 ^ 64 := by
  split
  · have hround : least ≤ roundUp64 least := le_roundUp64 (by omega)
    omega
  · exact le_roundUp64_iff hasked

end Sizes

/-! ## The four constructors -/

/-- The bytes `BitmapAllocator` asks for. -/
def bitmapBytes (blockSize blockCount : Nat) : Nat :=
  wrap (BitmapAllocator.storedBlockSize blockSize * blockCount)

/-- The bytes `ThreadLocalBitmapAllocator` asks for, for each region. -/
def tlBitmapBytes (blockSize blocksPerThread : Nat) : Nat :=
  wrap (roundUp64 blockSize * blocksPerThread)

/-- `max_size()` of the vector `m_regions`, whose elements take 128 bytes; its
constructor throws `std::length_error` above that. -/
def maxRegions : Nat := (2 ^ 63 - 1) / 128

theorem lt_of_le_maxRegions {m : Nat} (hm : m ≤ maxRegions) : m < 2 ^ 64 :=
  Nat.lt_of_le_of_lt hm (by decide)

def BitmapSized (blockSize blockCount : Nat) : Prop :=
  ∀ (alignedAlloc alignedAllocWords : Nat → Nat) (a : BitmapAllocator.Allocator),
    Grants alignedAlloc → Grants alignedAllocWords →
    BitmapAllocator.construct alignedAlloc alignedAllocWords blockSize blockCount = some a →
    Covered blockSize a.blockSize a.pool.blockCount (bitmapBytes blockSize blockCount) ∧
      Worded a.pool.blockCount a.pool.wordCount

def TlBitmapSized (blockSize blocksPerThread maxThreads : Nat) : Prop :=
  ∀ (alignedAlloc alignedAllocWords : Nat → Nat → Nat) (a : TlBitmapAllocator.Allocator),
    (∀ i, Grants (alignedAlloc i)) → (∀ i, Grants (alignedAllocWords i)) →
    maxThreads ≤ maxRegions →
    TlBitmapAllocator.construct alignedAlloc alignedAllocWords blockSize blocksPerThread
      maxThreads = some a →
    blockSize ≤ a.blockSize ∧ ∀ r ∈ a.regions,
      Covered blockSize a.blockSize r.blockCount (tlBitmapBytes blockSize blocksPerThread) ∧
        Worded r.blockCount r.wordCount

def TlFreelistSized (blockSz numBlocks batch : Nat) : Prop :=
  ∀ (alignedAlloc : Nat → Nat) (next next' : FreelistAllocator.Heap)
    (a : TlFreelistAllocator.Allocator), Grants alignedAlloc →
    TlFreelistAllocator.construct alignedAlloc next blockSz numBlocks batch = some (a, next') →
    Covered blockSz a.blockSize a.blockCount (regionBytes blockSz numBlocks)

/-- `region_size` is what `alloc_on_node` is asked for. -/
def NumaSized (blockSz blocksPerNode batch : Nat) : Prop :=
  ∀ (allocOnNode : Nat → Nat → Nat) (isNode : Nat → Bool) (next : FreelistAllocator.Heap)
    (n : Nat), (∀ node, Grants fun bytes => allocOnNode bytes node) →
    n < (NumaAllocator.construct allocOnNode isNode next blockSz blocksPerNode
      batch).1.numNodes →
    Covered blockSz
      ((NumaAllocator.construct allocOnNode isNode next blockSz blocksPerNode
        batch).1.pools n).blockSize
      ((NumaAllocator.construct allocOnNode isNode next blockSz blocksPerNode
        batch).1.pools n).blockCount
      ((NumaAllocator.construct allocOnNode isNode next blockSz blocksPerNode
        batch).1.pools n).regionSize

section Constructors

variable {blockSize count : Nat}

/-- The request the constructor of `BitmapAllocator` makes. -/
theorem bitmap_requested {alignedAlloc alignedAllocWords : Nat → Nat}
    {a : BitmapAllocator.Allocator}
    (hmade : BitmapAllocator.construct alignedAlloc alignedAllocWords blockSize count =
      some a) :
    a = ⟨BitmapAllocator.storedBlockSize blockSize,
      fresh (alignedAlloc (bitmapBytes blockSize count)) count⟩ := by
  unfold BitmapAllocator.construct at hmade
  dsimp only at hmade
  split at hmade
  · cases hmade
  · split at hmade
    · cases hmade
    · exact (Option.some.inj hmade).symm

theorem bitmapSized_iff (hsize : blockSize < 2 ^ 64) (hcount : count < 2 ^ 64) :
    BitmapSized blockSize count ↔
      SizesFit (if blockSize < 16 then 16 else blockSize) count := by
  have hround := le_round_max_iff hsize (show 16 ≤ 64 by decide)
  constructor
  · intro h
    obtain ⟨hcovered, -⟩ := h (fun _ => 64) (fun _ => 64) _ (fun _ => by simp)
      (fun _ => by simp) rfl
    exact ⟨hround.mp hcovered.atLeast, le_wrap_iff.mp hcovered.covers⟩
  · intro hfit alignedAlloc alignedAllocWords a _ _ hmade
    have hpos : 0 < if blockSize < 16 then 16 else blockSize := by split <;> omega
    rw [bitmap_requested hmade, covered_iff, worded_iff]
    exact ⟨⟨hround.mpr hfit.1, le_wrap_iff.mpr hfit.2⟩,
      (le_wordsFor_iff hcount).mpr (hfit.count_lt hpos)⟩

theorem tlBitmap_requested {alignedAlloc alignedAllocWords : Nat → Nat → Nat}
    {maxThreads : Nat} {a : TlBitmapAllocator.Allocator}
    (hmade : TlBitmapAllocator.construct alignedAlloc alignedAllocWords blockSize count
      maxThreads = some a) :
    a = ⟨roundUp64 blockSize, count, maxThreads, (List.range maxThreads).map fun i =>
      fresh (alignedAlloc i (tlBitmapBytes blockSize count)) count, 0⟩ := by
  unfold TlBitmapAllocator.construct at hmade
  dsimp only at hmade
  split at hmade
  · cases hmade
  · exact (Option.some.inj hmade).symm

/-- With no thread there is no region, and with too many no allocator. -/
theorem tlBitmapSized_iff {maxThreads : Nat} (hsize : blockSize < 2 ^ 64)
    (hcount : count < 2 ^ 64) :
    TlBitmapSized blockSize count maxThreads ↔
      maxRegions < maxThreads ∨ blockSize + 63 < 2 ^ 64 ∧
        (0 < maxThreads → roundUp64 blockSize * count < 2 ^ 64 ∧ count + 63 < 2 ^ 64) := by
  have hround := le_roundUp64_iff hsize
  have hwords := le_wordsFor_iff hcount
  constructor
  · intro h
    rcases Nat.lt_or_ge maxRegions maxThreads with hmany | hfew
    · exact Or.inl hmany
    obtain ⟨hle, hregions⟩ := h (fun _ _ => 64) (fun _ _ => 64)
      ⟨roundUp64 blockSize, count, maxThreads,
        (List.range maxThreads).map fun _ => fresh 64 count, 0⟩
      (fun _ _ => by simp) (fun _ _ => by simp) hfew (if_neg (by simp))
    refine Or.inr ⟨hround.mp hle, fun hthreads => ?_⟩
    obtain ⟨hcovered, hworded⟩ := hregions (fresh 64 count)
      (List.mem_map.mpr ⟨0, List.mem_range.mpr hthreads, rfl⟩)
    exact ⟨le_wrap_iff.mp hcovered.covers, hwords.mp hworded.covers⟩
  · intro hfit alignedAlloc alignedAllocWords a _ _ hfew hmade
    obtain ⟨hasked, hregions⟩ := hfit.resolve_left (Nat.not_lt.mpr hfew)
    rw [tlBitmap_requested hmade]
    refine ⟨hround.mpr hasked, fun r hr => ?_⟩
    obtain ⟨i, hi, rfl⟩ := List.mem_map.mp hr
    obtain ⟨hproduct, hsum⟩ := hregions (Nat.zero_lt_of_lt (List.mem_range.mp hi))
    rw [covered_iff, worded_iff]
    exact ⟨⟨hround.mpr hasked, le_wrap_iff.mpr hproduct⟩, hwords.mpr hsum⟩

theorem tlFreelistSized_iff {batch : Nat} (hsize : blockSize < 2 ^ 64) :
    TlFreelistSized blockSize count batch ↔
      SizesFit (atLeastFreeBlock blockSize) count := by
  have hround : blockSize ≤ roundUp64 (atLeastFreeBlock blockSize) ↔
      atLeastFreeBlock blockSize + 63 < 2 ^ 64 := le_round_max_iff hsize (Nat.le_refl 64)
  constructor
  · intro h
    have hcovered : Covered blockSize (alignUp (atLeastFreeBlock blockSize) cacheLine) count
        (regionBytes blockSize count) :=
      h (fun _ => 64) (fun _ => 0) _ _ (fun _ => by simp) rfl
    rw [alignUp_eq] at hcovered
    refine ⟨hround.mp hcovered.atLeast, Nat.lt_of_le_of_lt hcovered.covers ?_⟩
    rw [regionBytes, alignUp_eq]
    unfold roundUp64 wrap
    omega
  · intro hfit alignedAlloc next next' a _ hmade
    unfold TlFreelistAllocator.construct at hmade
    dsimp only at hmade
    split at hmade
    · cases hmade
    · cases hmade
      show Covered blockSize (alignUp (atLeastFreeBlock blockSize) cacheLine) count _
      rw [covered_iff, alignUp_eq, regionBytes_eq hfit]
      exact ⟨hround.mpr hfit.1, Nat.le_refl _⟩

theorem numaSized_iff {batch : Nat} (hsize : blockSize < 2 ^ 64) :
    NumaSized blockSize count batch ↔ SizesFit (atLeastFreeBlock blockSize) count := by
  have hround : blockSize ≤ roundUp64 (atLeastFreeBlock blockSize) ↔
      atLeastFreeBlock blockSize + 63 < 2 ^ 64 := le_round_max_iff hsize (Nat.le_refl 64)
  constructor
  · intro h
    have hcovered := h (fun _ _ => 64) (fun _ => false) (fun _ => 0) 0
      (fun _ _ => by simp) (by decide : 0 < 1)
    simp only [NumaAllocator.construct, alignUp_eq] at hcovered
    exact ⟨hround.mp hcovered.atLeast, le_wrap_iff.mp hcovered.covers⟩
  · intro hfit allocOnNode isNode next n _ _
    simp only [NumaAllocator.construct, alignUp_eq]
    rw [covered_iff]
    exact ⟨hround.mpr hfit.1, le_wrap_iff.mpr hfit.2⟩

end Constructors

/-- Each constructor makes a pool that holds its blocks exactly for sizes that neither
the rounding nor the product wraps. -/
theorem sized_iff (blockSize count maxThreads batch : Nat) (hsize : blockSize < 2 ^ 64)
    (hcount : count < 2 ^ 64) :
    (BitmapSized blockSize count ↔
      SizesFit (if blockSize < 16 then 16 else blockSize) count) ∧
    (TlBitmapSized blockSize count maxThreads ↔
      maxRegions < maxThreads ∨ blockSize + 63 < 2 ^ 64 ∧
        (0 < maxThreads → roundUp64 blockSize * count < 2 ^ 64 ∧ count + 63 < 2 ^ 64)) ∧
    (TlFreelistSized blockSize count batch ↔
      SizesFit (atLeastFreeBlock blockSize) count) ∧
    (NumaSized blockSize count batch ↔ SizesFit (atLeastFreeBlock blockSize) count) :=
  ⟨bitmapSized_iff hsize hcount, tlBitmapSized_iff hsize hcount,
    tlFreelistSized_iff hsize, numaSized_iff hsize⟩

/-- Sizes that fit each of the constructors. -/
theorem sized_iff_64_65 :
    BitmapSized 64 65 ∧ TlBitmapSized 64 65 2 ∧ TlFreelistSized 64 65 8 ∧ NumaSized 64 65 8 :=
  have h := sized_iff 64 65 2 8 (by decide) (by decide)
  ⟨h.1.mpr (by decide), h.2.1.mpr (Or.inr (by decide)), h.2.2.1.mpr (by decide),
    h.2.2.2.mpr (by decide)⟩

/-- Two blocks of more than half the address space: 128 bytes are asked for. -/
theorem not_sized : ¬ BitmapSized (2 ^ 63 + 64) 2 := by
  intro h
  obtain ⟨hcovered, -⟩ := h (fun _ => 64) (fun _ => 64) _ (fun _ => by simp)
    (fun _ => by simp) rfl
  exact absurd hcovered.covers (by decide)

end PoolMemalloc.Ports.PoolSizing
