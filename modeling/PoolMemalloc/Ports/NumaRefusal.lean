import PoolMemalloc.Ports.NumaAllocator

/-!
# `owner_node` when the memory of a node was refused

The constructor goes on when `alloc_on_node` returns null, and the pool keeps its
`region_size`.  `owner_node` does not pass over such a pool: it looks like a region from
address 0 on, and it hides what a pool of a larger index has below `region_size`.
`ownerExact_iff` — the regions for which that does no harm.  `not_ownerExact_low` is an
allocator that takes the first block of node 1 for one of node 0, which has none.
-/

namespace PoolMemalloc.Ports.NumaRefusal

open PoolMemalloc.Verified.SizeT
open PoolMemalloc.Ports.CacheWorld
open PoolMemalloc.Ports.NumaAllocator

/-- The pools are of one size, and the regions that are not null end inside the address
space and do not overlap. -/
structure Regions (a : Allocator) (regionSize : Nat) : Prop where
  common : ∀ n, n < a.numNodes → (a.pools n).regionSize = regionSize
  fits : ∀ n, n < a.numNodes → (a.pools n).region ≠ 0 →
    (a.pools n).region + regionSize < 2 ^ 64
  apart : ∀ n m, n < a.numNodes → m < a.numNodes → n ≠ m →
    (a.pools n).region ≠ 0 → (a.pools m).region ≠ 0 →
      (a.pools n).region + regionSize ≤ (a.pools m).region ∨
        (a.pools m).region + regionSize ≤ (a.pools n).region

/-- The address is in the region of pool `n`, which has one. -/
structure Inside (a : Allocator) (n addr : Nat) : Prop where
  node : n < a.numNodes
  granted : (a.pools n).region ≠ 0
  low : (a.pools n).region ≤ addr
  high : addr < (a.pools n).region + (a.pools n).regionSize

/-- Every address goes to the pool whose region it is in. -/
structure OwnerExact (a : Allocator) : Prop where
  owner : ∀ n addr, Inside a n addr → ownerNode a addr = n
  /-- So a block of `n` is never put into the cache of another pool. -/
  dealloc : ∀ {τ : Type} [DecidableEq τ] (w : World (τ × Nat) (Nat × Nat)) (i : Nat)
    (t : τ) (n ptr : Nat), Inside a n ptr →
      NumaAllocator.dealloc a w i t ptr =
        deallocTo w (t, n) (i, n) (a.pools n).batchSize ptr

/-- The test of `owner_node`, for pool `n`. -/
def Meets (a : Allocator) (addr n : Nat) : Prop :=
  addr ≥ (a.pools n).region ∧ addr < wrap ((a.pools n).region + (a.pools n).regionSize)

section Owner

variable {a : Allocator} {regionSize n m addr : Nat}

/-- `owner_node` returns the first pool that meets its test. -/
theorem ownerNode_eq_iff (hn : n < a.numNodes) (hmeets : Meets a addr n) :
    ownerNode a addr = n ↔ ∀ m, m < n → ¬ Meets a addr m := by
  unfold ownerNode
  cases hfind : (List.range a.numNodes).find? fun n =>
      addr ≥ (a.pools n).region ∧
        addr < wrap ((a.pools n).region + (a.pools n).regionSize) with
  | none =>
      have hmiss := List.find?_eq_none.mp hfind n (List.mem_range.mpr hn)
      exact (hmiss (decide_eq_true hmeets)).elim
  | some k =>
      obtain ⟨hk, -, hfirst⟩ := List.find?_range_eq_some.mp hfind
      simp only [decide_eq_true_eq, Bool.not_eq_true', decide_eq_false_iff_not] at hk hfirst
      show k = n ↔ _
      constructor
      · rintro rfl
        exact hfirst
      · intro hnone
        rcases Nat.lt_trichotomy k n with hlt | heq | hgt
        · exact (hnone k hlt hk).elim
        · exact heq
        · exact (hfirst n hgt hmeets).elim

/-- An address inside a region meets the test of its pool. -/
theorem Inside.meets (h : Regions a regionSize) (hin : Inside a n addr) :
    Meets a addr n := by
  have hfits := h.fits n hin.node hin.granted
  have hhigh := hin.high
  rw [h.common n hin.node] at hhigh
  refine ⟨hin.low, ?_⟩
  rwa [h.common n hin.node, wrap_of_lt hfits]

/-- No other region meets it. -/
theorem Inside.not_meets (h : Regions a regionSize) (hin : Inside a n addr)
    (hm : m < a.numNodes) (hne : m ≠ n) (hgranted : (a.pools m).region ≠ 0) :
    ¬ Meets a addr m := by
  rintro ⟨hlow, hhigh⟩
  have hlow' := hin.low
  have hhigh' := hin.high
  rw [h.common m hm, wrap_of_lt (h.fits m hm hgranted)] at hhigh
  rw [h.common n hin.node] at hhigh'
  rcases h.apart m n hm hin.node hne hgranted hin.granted with hsep | hsep <;> omega

/-- A pool without a region meets it for the addresses below its size. -/
theorem meets_of_null (h : Regions a regionSize) (hsize : regionSize < 2 ^ 64)
    (hm : m < a.numNodes) (hnull : (a.pools m).region = 0) :
    Meets a addr m ↔ addr < regionSize := by
  unfold Meets
  rw [hnull, h.common m hm, Nat.zero_add, wrap_of_lt hsize]
  exact and_iff_right (Nat.zero_le addr)

end Owner

/-- `owner_node` is exact just if no pool without a region comes before one whose region
begins below `region_size`. -/
theorem ownerExact_iff (a : Allocator) (regionSize : Nat) (h : Regions a regionSize) :
    OwnerExact a ↔ ∀ m n, m < n → n < a.numNodes → (a.pools m).region = 0 →
      (a.pools n).region ≠ 0 → regionSize ≤ (a.pools n).region := by
  constructor
  · intro hexact m n hmn hn hnull hgranted
    by_contra hlt
    have hfits := h.fits n hn hgranted
    have hin : Inside a n (a.pools n).region :=
      { node := hn
        granted := hgranted
        low := Nat.le_refl _
        high := by
          rw [h.common n hn]
          omega }
    have hfirst := (ownerNode_eq_iff hn (hin.meets h)).mp (hexact.owner n _ hin)
    refine hfirst m hmn ((meets_of_null h ?_ ?_ hnull).mpr ?_) <;> omega
  · intro hclear
    have howner : ∀ n addr, Inside a n addr → ownerNode a addr = n := by
      intro n addr hin
      refine (ownerNode_eq_iff hin.node (hin.meets h)).mpr fun m hmn => ?_
      have hm := Nat.lt_trans hmn hin.node
      by_cases hnull : (a.pools m).region = 0
      · have hfits := h.fits n hin.node hin.granted
        have hlow := hin.low
        have hle := hclear m n hmn hin.node hnull hin.granted
        rw [meets_of_null h (by omega) hm hnull]
        omega
      · exact hin.not_meets h hm (Nat.ne_of_lt hmn) hnull
    refine ⟨howner, fun w i t n ptr hin => ?_⟩
    rw [NumaAllocator.dealloc, howner n ptr hin]

/-- Two nodes for 2048 blocks of 64 bytes each.  Node 0 was refused its memory, node 1 has
it at `region`. -/
def refusedFirst (region : Nat) : Allocator :=
  (NumaAllocator.construct (fun _ n => if n = 0 then 0 else region) (fun n => n < 2)
    (fun _ => 0) 64 2048 64).1

theorem refusedFirst_regions {region : Nat} (hfits : region + 131072 < 2 ^ 64) :
    Regions (refusedFirst region) 131072 where
  common _ _ := rfl
  fits n hn hgranted := by
    have hn : n < 2 := hn
    change (if n = 0 then 0 else region) ≠ 0 at hgranted
    change (if n = 0 then 0 else region) + 131072 < 2 ^ 64
    rw [ite_ne_left_iff] at hgranted
    rwa [if_neg hgranted.1]
  apart n m hn hm hne hgranted hgranted' := by
    have hn : n < 2 := hn
    have hm : m < 2 := hm
    change (if n = 0 then 0 else region) ≠ 0 at hgranted
    change (if m = 0 then 0 else region) ≠ 0 at hgranted'
    rw [ite_ne_left_iff] at hgranted hgranted'
    omega

/-- Node 1 has its region above the size of a region. -/
theorem ownerExact_high : OwnerExact (refusedFirst 262144) := by
  refine (ownerExact_iff _ 131072 (refusedFirst_regions (by decide))).mpr ?_
  intro m n hmn hn _ _
  have hn : n < 2 := hn
  obtain rfl : n = 1 := by omega
  decide

/-- Node 1 has its region below that: its first block is taken for one of node 0. -/
theorem not_ownerExact_low :
    Regions (refusedFirst 65536) 131072 ∧ ¬ OwnerExact (refusedFirst 65536) := by
  refine ⟨refusedFirst_regions (by decide), fun h => ?_⟩
  have hin : Inside (refusedFirst 65536) 1 65536 :=
    { node := by decide
      granted := by decide
      low := by decide
      high := by decide }
  exact absurd (h.owner 1 65536 hin) (by decide)

end PoolMemalloc.Ports.NumaRefusal
