import PoolMemalloc.Verified.SizeT

/-!
# Regions of equal blocks

Every allocator here carves its memory into blocks of one size and converts
between block indices and addresses.  The conversions are exact for a `Placed`
region; an `Arena` is several of them that do not overlap.

* `Placed.ptrToIndex_indexToPtr` — the conversions agree.
* `placed_of_granted` — a granted request for sizes that fit is a placed region.
* `Arena.liveIn_cons`, `Arena.liveIn_erase` — handing out or taking back one
  block changes the liveness of that block and of no other.
-/

namespace PoolMemalloc.Ports.BlockArray

open PoolMemalloc.Verified.SizeT

/-- `((block_size + 63) / 64) * 64`, the sum taken in a `size_t`. -/
def roundUp64 (blockSize : Nat) : Nat := wrap (blockSize + 63) / 64 * 64

def indexToPtr (blockSize memory index : Nat) : Nat :=
  wrap (memory + wrap (index * blockSize))

def ptrToIndex (blockSize memory ptr : Nat) : Nat :=
  wrapSub ptr memory / blockSize

theorem le_roundUp64 {blockSize : Nat} (h : blockSize + 63 < 2 ^ 64) :
    blockSize ≤ roundUp64 blockSize := by
  unfold roundUp64 wrap
  omega

/-! ## Addresses -/

/-- A region of `blockCount` blocks at `memory` that neither starts at null nor
runs past the end of the address space. -/
structure Placed (blockSize memory blockCount : Nat) : Prop where
  blockPos : 0 < blockSize
  memoryPos : 0 < memory
  fits : memory + blockCount * blockSize < 2 ^ 64

/-- Region `k` of `n` has its `blockCount` blocks at `base k`, and no two regions
overlap. -/
structure Arena (blockSize : Nat) (base : Nat → Nat) (blockCount n : Nat) :
    Prop where
  placed : ∀ k, k < n → Placed blockSize (base k) blockCount
  disjoint : ∀ k j, k < n → j < n → k ≠ j →
    base k + blockCount * blockSize ≤ base j ∨
      base j + blockCount * blockSize ≤ base k

/-- What `std::aligned_alloc(64, ·)` promises about a result that is not null:
it is aligned, and the bytes asked for end inside the address space. -/
def AlignedAlloc (alignedAlloc : Nat → Nat) : Prop :=
  ∀ bytes, alignedAlloc bytes ≠ 0 →
    64 ∣ alignedAlloc bytes ∧ alignedAlloc bytes + bytes < 2 ^ 64

/-- An allocator that answers `memory` to requests of at most `limit` bytes and
fails otherwise keeps the promise. -/
theorem alignedAlloc_fixed {memory limit : Nat} (haligned : 64 ∣ memory)
    (hfits : memory + limit < 2 ^ 64) :
    AlignedAlloc fun bytes => if bytes ≤ limit then memory else 0 := by
  intro bytes hne
  by_cases h : bytes ≤ limit
  · simp only [if_pos h]
    exact ⟨haligned, by omega⟩
  · simp only [if_neg h] at hne
    exact (hne rfl).elim

/-- Neither rounding the block size up nor multiplying it by the block count
wraps. -/
def SizesFit (blockSize blockCount : Nat) : Prop :=
  blockSize + 63 < 2 ^ 64 ∧ roundUp64 blockSize * blockCount < 2 ^ 64

instance (blockSize blockCount : Nat) : Decidable (SizesFit blockSize blockCount) :=
  inferInstanceAs (Decidable (_ ∧ _))

section Addresses

variable {blockSize memory blockCount : Nat}

/-- A granted request for a pool whose sizes fit is a well-placed region. -/
theorem placed_of_granted {alignedAlloc : Nat → Nat}
    (hspec : AlignedAlloc alignedAlloc) (hpos : 0 < blockSize)
    (hfit : SizesFit blockSize blockCount)
    (hgranted : alignedAlloc (wrap (roundUp64 blockSize * blockCount)) ≠ 0) :
    Placed (roundUp64 blockSize)
      (alignedAlloc (wrap (roundUp64 blockSize * blockCount))) blockCount where
  blockPos := Nat.lt_of_lt_of_le hpos (le_roundUp64 hfit.1)
  memoryPos := Nat.pos_of_ne_zero hgranted
  fits := by
    have hend := (hspec _ hgranted).2
    rw [wrap_of_lt hfit.2] at hend ⊢
    rwa [Nat.mul_comm blockCount]

/-- Sizes that fit leave room for rounding the block count up to whole words. -/
theorem SizesFit.count_lt (h : SizesFit blockSize blockCount)
    (hpos : 0 < blockSize) : blockCount + 63 < 2 ^ 64 := by
  have hsize : 64 ≤ roundUp64 blockSize := by
    have hle := le_roundUp64 h.1
    unfold roundUp64 at hle ⊢
    omega
  have hmul := Nat.mul_le_mul_right blockCount hsize
  have hfit := h.2
  omega

/-- A block ends before every block of a larger index begins. -/
theorem block_end_le {i : Nat} (hi : i < blockCount) :
    memory + i * blockSize + blockSize ≤ memory + blockCount * blockSize := by
  have hmul := Nat.mul_le_mul_right blockSize (Nat.succ_le_of_lt hi)
  rw [Nat.succ_mul] at hmul
  omega

theorem Placed.indexToPtr_eq (h : Placed blockSize memory blockCount) {i : Nat}
    (hi : i < blockCount) :
    indexToPtr blockSize memory i = memory + i * blockSize := by
  have hend : memory + i * blockSize + blockSize ≤ _ := block_end_le hi
  have hfits := h.fits
  rw [indexToPtr, wrap_of_lt (n := i * blockSize) (by omega),
    wrap_of_lt (by omega)]

theorem Placed.indexToPtr_bounds (h : Placed blockSize memory blockCount)
    {i : Nat} (hi : i < blockCount) :
    memory ≤ indexToPtr blockSize memory i ∧
      indexToPtr blockSize memory i + blockSize ≤
        memory + blockCount * blockSize := by
  rw [h.indexToPtr_eq hi]
  exact ⟨Nat.le_add_right _ _, block_end_le hi⟩

theorem Placed.indexToPtr_ne_zero (h : Placed blockSize memory blockCount)
    {i : Nat} (hi : i < blockCount) : indexToPtr blockSize memory i ≠ 0 := by
  have hbounds := (h.indexToPtr_bounds hi).1
  have hpos := h.memoryPos
  omega

/-- `dealloc` recovers the index `alloc` converted. -/
theorem Placed.ptrToIndex_indexToPtr (h : Placed blockSize memory blockCount)
    {i : Nat} (hi : i < blockCount) :
    ptrToIndex blockSize memory (indexToPtr blockSize memory i) = i := by
  have hend : memory + i * blockSize + blockSize ≤ _ := block_end_le hi
  have hfits := h.fits
  have hpos := h.blockPos
  rw [ptrToIndex, indexToPtr, wrap_of_lt (n := i * blockSize) (by omega),
    wrapSub_wrapAdd (by omega) (by omega), Nat.mul_div_cancel _ hpos]

theorem Placed.indexToPtr_injective (h : Placed blockSize memory blockCount)
    {i j : Nat} (hi : i < blockCount) (hj : j < blockCount)
    (heq : indexToPtr blockSize memory i = indexToPtr blockSize memory j) :
    i = j := by
  rw [← h.ptrToIndex_indexToPtr hi, heq, h.ptrToIndex_indexToPtr hj]

/-- Block `i` of the region is one of the pointers the user holds. -/
def LiveIn (blockSize memory blockCount : Nat) (live : List Nat) (i : Nat) :
    Prop :=
  i < blockCount ∧ indexToPtr blockSize memory i ∈ live

theorem Placed.liveIn_cons (h : Placed blockSize memory blockCount)
    (live : List Nat) {i : Nat} (hi : i < blockCount) (j : Nat) :
    LiveIn blockSize memory blockCount
        (indexToPtr blockSize memory i :: live) j ↔
      LiveIn blockSize memory blockCount live j ∨ j = i := by
  unfold LiveIn
  constructor
  · rintro ⟨hj, hmem⟩
    rcases List.mem_cons.mp hmem with heq | hmem
    · exact Or.inr (h.indexToPtr_injective hj hi heq)
    · exact Or.inl ⟨hj, hmem⟩
  · rintro (⟨hj, hmem⟩ | rfl)
    · exact ⟨hj, List.mem_cons_of_mem _ hmem⟩
    · exact ⟨hi, List.mem_cons_self⟩

theorem Placed.liveIn_erase (h : Placed blockSize memory blockCount)
    {live : List Nat} (hnodup : live.Nodup) {i : Nat} (hi : i < blockCount)
    (j : Nat) :
    LiveIn blockSize memory blockCount
        (live.erase (indexToPtr blockSize memory i)) j ↔
      LiveIn blockSize memory blockCount live j ∧ j ≠ i := by
  unfold LiveIn
  rw [hnodup.mem_erase_iff]
  constructor
  · rintro ⟨hj, hne, hmem⟩
    exact ⟨⟨hj, hmem⟩, fun heq => hne (heq ▸ rfl)⟩
  · rintro ⟨⟨hj, hmem⟩, hne⟩
    exact ⟨hj, fun heq => hne (h.indexToPtr_injective hj hi heq), hmem⟩

/-- Pointers outside the region do not change which of its blocks are live. -/
theorem liveIn_congr (live live' : List Nat)
    (h : ∀ i, i < blockCount → (indexToPtr blockSize memory i ∈ live' ↔
      indexToPtr blockSize memory i ∈ live)) (i : Nat) :
    LiveIn blockSize memory blockCount live' i ↔
      LiveIn blockSize memory blockCount live i :=
  and_congr_right fun hi => h i hi

/-- Blocks of different regions have different addresses. -/
theorem Arena.indexToPtr_ne {base : Nat → Nat} {n : Nat}
    (h : Arena blockSize base blockCount n) {k j i i' : Nat} (hk : k < n) (hj : j < n) (hne : k ≠ j)
    (hi : i < blockCount) (hi' : i' < blockCount) :
    indexToPtr blockSize (base k) i ≠ indexToPtr blockSize (base j) i' := by
  have hk' := (h.placed k hk).indexToPtr_bounds hi
  have hj' := (h.placed j hj).indexToPtr_bounds hi'
  have hpos := (h.placed k hk).blockPos
  rcases h.disjoint k j hk hj hne with hd | hd <;> omega

/-- Handing out block `i` of region `k` makes exactly that block live. -/
theorem Arena.liveIn_cons {base : Nat → Nat} {n : Nat}
    (h : Arena blockSize base blockCount n) (live : List Nat) {k i j : Nat}
    (hk : k < n) (hi : i < blockCount) (hj : j < n) (b : Nat) :
    LiveIn blockSize (base j) blockCount
        (indexToPtr blockSize (base k) i :: live) b ↔
      LiveIn blockSize (base j) blockCount live b ∨ (j = k ∧ b = i) := by
  by_cases hjk : j = k
  · subst hjk
    rw [(h.placed j hj).liveIn_cons live hi b]
    simp
  · refine (liveIn_congr live _ (fun b' hb' => ?_) b).trans (by simp [hjk])
    simp [h.indexToPtr_ne hj hk hjk hb' hi]

/-- Taking back block `i` of region `k` makes exactly that block free. -/
theorem Arena.liveIn_erase {base : Nat → Nat} {n : Nat}
    (h : Arena blockSize base blockCount n) {live : List Nat}
    (hnodup : live.Nodup) {k i j : Nat} (hk : k < n) (hi : i < blockCount)
    (hj : j < n) (b : Nat) :
    LiveIn blockSize (base j) blockCount
        (live.erase (indexToPtr blockSize (base k) i)) b ↔
      LiveIn blockSize (base j) blockCount live b ∧ ¬ (j = k ∧ b = i) := by
  by_cases hjk : j = k
  · subst hjk
    rw [(h.placed j hj).liveIn_erase hnodup hi b]
    simp
  · refine (liveIn_congr live _ (fun b' hb' => ?_) b).trans (by simp [hjk])
    rw [hnodup.mem_erase_iff]
    simp [h.indexToPtr_ne hj hk hjk hb' hi]

end Addresses

end PoolMemalloc.Ports.BlockArray
