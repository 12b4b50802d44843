import PoolMemalloc.Ports.BitmapAllocator
import PoolMemalloc.Ports.TlBitmapAllocator

/-!
# When a bitmap allocator reports exhaustion

`alloc` gives up as soon as its exchange lands on a padding bit of the last
word, without probing the words before the hint.  `HintCovers` is the exact
condition under which that makes no difference, for both bitmap allocators and
in every reachable state; `alloc_null_below_hint` is a run of 65 blocks that
violates it.
-/

namespace PoolMemalloc.Ports.BitmapExhaustion

open PoolMemalloc.Verified.SizeT
open PoolMemalloc.Verified.Transition
open PoolMemalloc.Ports.BlockArray
open PoolMemalloc.Ports.BitmapRegion

section BitmapAllocator

open PoolMemalloc.Ports.BitmapAllocator

variable {blockSize blockCount : Nat} {a : Allocator} {s : State}

/-- Between calls, a null result means exhaustion exactly when the hint covers
the free blocks. -/
theorem alloc_exact_iff (ha : Constructed blockSize blockCount a)
    (h : Reachable (calls a) s) :
    ((alloc s.allocator).1 = 0 ↔ ∀ i, i < blockCount → Live s i) ↔
      HintCovers s.allocator.pool (Live s) := by
  have hinv := ha.inv h
  obtain ⟨-, hplaced, hcount⟩ := ha.placed
  rw [hinv.alloc_eq_zero_iff hplaced]
  obtain ⟨hsize, hmemory, hblocks, -, -, htracks⟩ := hinv
  have hfit : s.allocator.pool.blockCount ≤ s.allocator.pool.wordCount * 64 := by
    rw [htracks.words]
    exact le_wordsFor (hblocks ▸ hcount)
  have hexact := htracks.exhausted_iff_hintCovers hfit
  rw [hblocks] at hexact
  unfold Live
  rw [hsize, hmemory, hblocks]
  exact hexact

end BitmapAllocator

section TlBitmapAllocator

open PoolMemalloc.Ports.TlBitmapAllocator

variable {blockSize blocksPerThread maxThreads : Nat} {a : Allocator} {s : State}

/-- The same for the region the calling thread is served from. -/
theorem tl_alloc_exact_iff (ha : Constructed blockSize blocksPerThread maxThreads a)
    (h : Reachable (calls a) s) (t : Nat) :
    ∃ r ptr a', s.allocator.regions[
        (selectRegion s.allocator (s.tRegionIndex t)).1]? = some r ∧
      alloc s.allocator (s.tRegionIndex t) =
        some (ptr, (selectRegion s.allocator (s.tRegionIndex t)).1, a') ∧
      ((ptr = 0 ↔ ∀ i, i < blocksPerThread →
          LiveIn s.allocator.blockSize r.memory blocksPerThread s.live i) ↔
        HintCovers r
          (LiveIn s.allocator.blockSize r.memory blocksPerThread s.live)) := by
  obtain ⟨base, harena, hcount, hinvs⟩ := ha.inv
  have hinv := hinvs s h
  obtain ⟨r, hr, halloc⟩ := hinv.alloc_eq ha.threads t
  obtain ⟨hmemory, hblocks, htracks⟩ := hinv.region _ r hr
  have hplaced := harena.placed _ (hinv.selectRegion_lt ha.threads t)
  refine ⟨r, _, _, hr, halloc, ?_⟩
  have hfit : r.blockCount ≤ r.wordCount * 64 := by
    rw [htracks.words]
    exact le_wordsFor (hblocks ▸ hcount)
  have hnull : (allocIndex r).1.elim 0 (indexToPtr (roundUp64 blockSize) r.memory) = 0 ↔
      (allocIndex r).1 = none := by
    cases hres : (allocIndex r).1 with
    | none => simp
    | some i =>
        have hi := (htracks.allocIndex_of_some hres).1
        simpa [hmemory] using hplaced.indexToPtr_ne_zero (hblocks ▸ hi)
  have hexact := htracks.exhausted_iff_hintCovers hfit
  rw [hblocks] at hexact
  rw [hnull, hinv.sizeEq, hmemory]
  exact hexact

end TlBitmapAllocator

/-- Null means that every block is live exactly in the reachable states whose
hint covers the free blocks: for `BitmapAllocator`, and for
`ThreadLocalBitmapAllocator` with respect to the calling thread's region. -/
theorem alloc_null_iff_all_live_iff_hintCovers (blockSize blockCount : Nat) :
    (∀ (a : BitmapAllocator.Allocator) (s : BitmapAllocator.State),
      BitmapAllocator.Constructed blockSize blockCount a →
      Reachable (BitmapAllocator.calls a) s →
      (((BitmapAllocator.alloc s.allocator).1 = 0 ↔
          ∀ i, i < blockCount → BitmapAllocator.Live s i) ↔
        HintCovers s.allocator.pool (BitmapAllocator.Live s))) ∧
    (∀ (maxThreads : Nat) (a : TlBitmapAllocator.Allocator)
        (s : TlBitmapAllocator.State) (t : Nat),
      TlBitmapAllocator.Constructed blockSize blockCount maxThreads a →
      Reachable (TlBitmapAllocator.calls a) s →
      ∃ r ptr a', s.allocator.regions[(TlBitmapAllocator.selectRegion
          s.allocator (s.tRegionIndex t)).1]? = some r ∧
        TlBitmapAllocator.alloc s.allocator (s.tRegionIndex t) =
          some (ptr, (TlBitmapAllocator.selectRegion s.allocator
            (s.tRegionIndex t)).1, a') ∧
        ((ptr = 0 ↔ ∀ i, i < blockCount →
            LiveIn s.allocator.blockSize r.memory blockCount s.live i) ↔
          HintCovers r
            (LiveIn s.allocator.blockSize r.memory blockCount s.live))) :=
  ⟨fun _ _ ha h => alloc_exact_iff ha h,
    fun _ _ _ t ha h => tl_alloc_exact_iff ha h t⟩

/-! ## A pool of 65 blocks -/

section Pool65

open PoolMemalloc.Ports.BitmapAllocator (pool65 pool65_constructed)
open PoolMemalloc.Ports.TlBitmapAllocator (tlPool65 tlPool65_constructed)

/-- Fill the pool, free block 0 and then block 64, and allocate once. -/
def staleHint : List BitmapAllocator.Call :=
  List.replicate 65 .alloc ++
    [.dealloc (4096 + 64 * 0), .dealloc (4096 + 64 * 64), .alloc]

/-- After that run block 0 is free and `alloc` returns null. -/
theorem alloc_null_below_hint :
    BitmapAllocator.Constructed 64 65 pool65 ∧
      ¬ ∀ s, Reachable (BitmapAllocator.calls pool65) s →
        ((BitmapAllocator.alloc s.allocator).1 = 0 ↔
          ∀ i, i < 65 → BitmapAllocator.Live s i) := by
  refine ⟨pool65_constructed, fun hclaim => ?_⟩
  have hrun : (replay BitmapAllocator.exec ⟨pool65, []⟩ staleHint).any
      (fun s => (BitmapAllocator.alloc s.allocator).1 == 0 &&
        !decide (indexToPtr s.allocator.blockSize s.allocator.pool.memory 0 ∈
          s.live)) = true := by
    decide +kernel
  obtain ⟨s, hs, hcheck⟩ := (Option.any_eq_true _ _).mp hrun
  have hnull := (Bool.and_eq_true_iff.mp hcheck).1
  have hfree := (Bool.and_eq_true_iff.mp hcheck).2
  have hlive := (hclaim s (Reachable.replay staleHint (.init rfl) hs)).mp
    (by simpa using hnull) 0 (by decide)
  exact absurd hlive.2 (by simpa using hfree)

/-- The same calls by thread 3, all in region 0. -/
def tlStaleHint : List TlBitmapAllocator.Call :=
  List.replicate 65 (.alloc 3) ++
    [.dealloc (4096 + 64 * 0), .dealloc (4096 + 64 * 64), .alloc 3]

/-- The exact condition after those runs, when block 0 is free and below the hint: `alloc`
returns null in both. -/
theorem alloc_null_iff_all_live_pool65 : ∃ s s',
    replay BitmapAllocator.exec ⟨pool65, []⟩ staleHint = some s ∧
    replay TlBitmapAllocator.exec ⟨tlPool65, fun _ => sizeMax, []⟩ tlStaleHint = some s' ∧
    ((BitmapAllocator.alloc s.allocator).1 = 0 ∧ 4096 ∉ s.live ∧ 4096 ∉ s'.live) ∧
    (((BitmapAllocator.alloc s.allocator).1 = 0 ↔
        ∀ i, i < 65 → BitmapAllocator.Live s i) ↔
      HintCovers s.allocator.pool (BitmapAllocator.Live s)) ∧
    ∃ r ptr a', s'.allocator.regions[(TlBitmapAllocator.selectRegion s'.allocator
        (s'.tRegionIndex 3)).1]? = some r ∧
      TlBitmapAllocator.alloc s'.allocator (s'.tRegionIndex 3) = some (ptr,
        (TlBitmapAllocator.selectRegion s'.allocator (s'.tRegionIndex 3)).1, a') ∧
      ((ptr = 0 ↔ ∀ i, i < 65 → LiveIn s'.allocator.blockSize r.memory 65 s'.live i) ↔
        HintCovers r (LiveIn s'.allocator.blockSize r.memory 65 s'.live)) := by
  have hrun : (replay BitmapAllocator.exec ⟨pool65, []⟩ staleHint).any
      (fun s => decide ((BitmapAllocator.alloc s.allocator).1 = 0 ∧ 4096 ∉ s.live)) =
        true := by
    decide +kernel
  have hrun' : (replay TlBitmapAllocator.exec ⟨tlPool65, fun _ => sizeMax, []⟩
      tlStaleHint).any (fun s' => decide (4096 ∉ s'.live)) = true := by
    decide +kernel
  obtain ⟨s, hs, hcheck⟩ := (Option.any_eq_true _ _).mp hrun
  obtain ⟨s', hs', hcheck'⟩ := (Option.any_eq_true _ _).mp hrun'
  obtain ⟨hnull, hfree⟩ := of_decide_eq_true hcheck
  exact ⟨s, s', hs, hs', ⟨hnull, hfree, of_decide_eq_true hcheck'⟩,
    (alloc_null_iff_all_live_iff_hintCovers 64 65).1 pool65 s pool65_constructed
      (Reachable.replay staleHint (.init rfl) hs),
    (alloc_null_iff_all_live_iff_hintCovers 64 65).2 2 tlPool65 s' 3 tlPool65_constructed
      (Reachable.replay tlStaleHint (.init rfl) hs')⟩

end Pool65

end PoolMemalloc.Ports.BitmapExhaustion
