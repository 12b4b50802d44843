import PoolMemalloc.Ports.BitmapAllocator
import PoolMemalloc.Ports.TlBitmapAllocator

/-!
# The block that `alloc` returns after a `dealloc`

`dealloc` leaves the hint at the word of the block it frees, and the next probe starts
there.  That word has a clear bit below the block count, so the first exchange is in it,
at its lowest clear bit, which is not above the bit just cleared: a padding bit is never
claimed, however full the pool is.
-/

namespace PoolMemalloc.Ports.BitmapReuse

open PoolMemalloc.Verified
open PoolMemalloc.Verified.WordBitmap
open PoolMemalloc.Verified.Transition
open PoolMemalloc.Ports.BlockArray
open PoolMemalloc.Ports.BitmapRegion

/-- Block `i` is the lowest free block in the word of block `j`. -/
structure LowestFree (live : Nat → Prop) (j i : Nat) : Prop where
  word : i / 64 = j / 64
  le : i ≤ j
  free : ¬ live i
  lowest : ∀ m, m / 64 = j / 64 → ¬ live m → i ≤ m

section Region

variable {r : Region} {live : Nat → Prop} {i j : Nat}

theorem LowestFree.congr {live' : Nat → Prop} (h : LowestFree live j i)
    (hiff : ∀ m, live' m ↔ live m) : LowestFree live' j i where
  word := h.word
  le := h.le
  free := fun hlive => h.free ((hiff i).mp hlive)
  lowest m hm hfree := h.lowest m hm fun hlive => hfree ((hiff m).mpr hlive)

/-- A probe that starts at the word of a free block claims in that word. -/
theorem allocIndex_at_hint (h : Tracks r live) (hj : j < r.blockCount)
    (hword : j / 64 < r.wordCount) (hfree : ¬ live j) (hhint : r.hint = j / 64) :
    ∃ i, (allocIndex r).1 = some i ∧ LowestFree live j i := by
  have hopen : wordAt r.bitmap (j / 64) ≠ FULL := fun hfull =>
    hfree (h.live_of_full hfull)
  rcases h.allocIndex_cases with ⟨hfull, -⟩ | ⟨k, hk, hopen', hbefore, hwrap, heq⟩
  · exact (hopen (hfull _ hword)).elim
  · -- the probe neither passes the word nor wraps around to it
    obtain rfl : k = j / 64 := by
      rcases Nat.lt_trichotomy k (j / 64) with hlt | hk' | hgt
      · exact (hopen (hwrap (hhint ▸ hlt) _ (Nat.le_of_eq hhint) hword)).elim
      · exact hk'
      · exact (hopen (hbefore _ (Nat.le_of_eq hhint) hgt)).elim
    have hle : lowestIn r (j / 64) ≤ j := by
      apply Nat.le_of_not_lt
      intro hlt
      exact hfree (h.live_below_lowestIn hopen hlt)
    refine ⟨lowestIn r (j / 64), ?_, lowestIn_div hopen, hle, h.free_findFreeBit hopen,
      fun m hm hfree' => ?_⟩
    · rw [heq, h.claim_eq hk hopen, if_neg (by omega)]
    · apply Nat.le_of_not_lt
      intro hlt
      rw [← hm] at hlt hopen
      exact hfree' (h.live_below_lowestIn hopen hlt)

/-- `alloc` right after `dealloc` of a live block. -/
theorem allocIndex_deallocIndex (h : Tracks r live) (hj : live j) :
    ∃ i, (allocIndex (deallocIndex r j)).1 = some i ∧
      LowestFree (fun m => live m ∧ m ≠ j) j i :=
  allocIndex_at_hint (h.deallocIndex hj) (h.inRange j hj) (h.word_lt hj)
    (fun hlive => hlive.2 rfl) rfl

end Region

/-- Block `i` of a region at `memory`, the lowest free one of the word of block `j` once
`ptr` is not live any more. -/
def ReusedAt (blockSize memory blockCount : Nat) (live : List Nat) (j ptr i : Nat) : Prop :=
  i < blockCount ∧ memory + i * blockSize ≠ 0 ∧
    LowestFree (LiveIn blockSize memory blockCount (live.erase ptr)) j i

section BitmapAllocator

open PoolMemalloc.Ports.BitmapAllocator

variable {blockSize blockCount : Nat} {a : Allocator} {s : State} {j : Nat}

theorem alloc_dealloc (ha : Constructed blockSize blockCount a)
    (h : Reachable (calls a) s) (hj : Live s j) :
    ∃ i, ReusedAt s.allocator.blockSize s.allocator.pool.memory blockCount s.live j
        (indexToPtr s.allocator.blockSize s.allocator.pool.memory j) i ∧
      (alloc (dealloc s.allocator
          (indexToPtr s.allocator.blockSize s.allocator.pool.memory j))).1 =
        s.allocator.pool.memory + i * s.allocator.blockSize := by
  obtain ⟨-, hplaced, -⟩ := ha.placed
  obtain ⟨hsize, hmemory, hcount, hnodup, -, htracks⟩ := ha.inv h
  unfold Live at hj
  rw [hsize, hmemory] at hj ⊢
  rw [hcount] at hj
  have hlt := hj.1
  obtain ⟨i, hsome, hlowest⟩ := allocIndex_deallocIndex htracks hj
  have hi : i < blockCount := Nat.lt_of_le_of_lt hlowest.le hlt
  have hpool : (dealloc s.allocator
      (indexToPtr (BitmapAllocator.storedBlockSize blockSize) a.pool.memory j)).pool =
        deallocIndex s.allocator.pool j := by
    rw [dealloc, hsize, hmemory, hplaced.ptrToIndex_indexToPtr hlt]
  refine ⟨i, ⟨hi, ?_, hlowest.congr (hplaced.liveIn_erase hnodup hlt)⟩, ?_⟩
  · rw [← hplaced.indexToPtr_eq hi]
    exact hplaced.indexToPtr_ne_zero hi
  · rw [← hplaced.indexToPtr_eq hi, alloc, hpool, hsome]
    show indexToPtr s.allocator.blockSize s.allocator.pool.memory i = _
    rw [hsize, hmemory]

end BitmapAllocator

section TlBitmapAllocator

open PoolMemalloc.Ports.TlBitmapAllocator

variable {blockSize blocksPerThread maxThreads : Nat} {a : Allocator} {s : State}
variable {r : Region} {k u j : Nat}

/-- The same for the region that the allocating thread is served from, whichever thread
has called `dealloc`. -/
theorem tl_alloc_dealloc (ha : Constructed blockSize blocksPerThread maxThreads a)
    (h : Reachable (calls a) s)
    (hselect : (selectRegion s.allocator (s.tRegionIndex u)).1 = k)
    (hr : s.allocator.regions[k]? = some r)
    (hj : LiveIn s.allocator.blockSize r.memory blocksPerThread s.live j) :
    ∃ i a', ReusedAt s.allocator.blockSize r.memory blocksPerThread s.live j
        (indexToPtr s.allocator.blockSize r.memory j) i ∧
      alloc (dealloc s.allocator (indexToPtr s.allocator.blockSize r.memory j))
        (s.tRegionIndex u) = some (r.memory + i * s.allocator.blockSize, k, a') := by
  obtain ⟨base, harena, -, hinvs⟩ := ha.inv
  have hinv := hinvs s h
  obtain ⟨hmemory, hcount, htracks⟩ := hinv.region k r hr
  have hk : k < maxThreads := hinv.length ▸ (List.getElem?_eq_some_iff.mp hr).1
  have hplaced := harena.placed k hk
  rw [hinv.sizeEq, hmemory] at hj ⊢
  have hlt := hj.1
  obtain ⟨i, hsome, hlowest⟩ := allocIndex_deallocIndex htracks hj
  have hi : i < blocksPerThread := Nat.lt_of_le_of_lt hlowest.le hlt
  have hklen : k < s.allocator.regions.length := (List.getElem?_eq_some_iff.mp hr).1
  have hserved : (selectRegion { s.allocator with
      regions := s.allocator.regions.set k (deallocIndex r j) } (s.tRegionIndex u)).1 = k :=
    hselect ▸ selectRegion_fst s.allocator _ _
  have halloc : ∃ a', alloc (dealloc s.allocator
      (indexToPtr (roundUp64 blockSize) (base k) j)) (s.tRegionIndex u) =
        some (indexToPtr (roundUp64 blockSize) (base k) i, k, a') := by
    rw [hinv.dealloc_eq harena hk hlt hr, alloc]
    simp only [hserved, selectRegion_regions, List.getElem?_set_self hklen, Option.map_some,
      hsome, Option.elim_some]
    rw [hinv.sizeEq, show (deallocIndex r j).memory = base k from hmemory]
    exact ⟨_, rfl⟩
  obtain ⟨a', halloc⟩ := halloc
  rw [hplaced.indexToPtr_eq hi] at halloc
  refine ⟨i, a', ⟨hi, ?_, hlowest.congr (hplaced.liveIn_erase hinv.nodup hlt)⟩, halloc⟩
  rw [← hplaced.indexToPtr_eq hi]
  exact hplaced.indexToPtr_ne_zero hi

end TlBitmapAllocator

/-- A block that is freed is reused at once, within its word: by `BitmapAllocator`, and by
`ThreadLocalBitmapAllocator` when the thread that allocates is served from its region. -/
theorem freed_block_reused (blockSize blockCount : Nat) :
    (∀ (a : BitmapAllocator.Allocator) (s : BitmapAllocator.State) (j : Nat),
      BitmapAllocator.Constructed blockSize blockCount a →
      Reachable (BitmapAllocator.calls a) s → BitmapAllocator.Live s j →
      ∃ i, ReusedAt s.allocator.blockSize s.allocator.pool.memory blockCount s.live j
          (indexToPtr s.allocator.blockSize s.allocator.pool.memory j) i ∧
        (BitmapAllocator.alloc (BitmapAllocator.dealloc s.allocator
            (indexToPtr s.allocator.blockSize s.allocator.pool.memory j))).1 =
          s.allocator.pool.memory + i * s.allocator.blockSize) ∧
    ∀ (maxThreads : Nat) (a : TlBitmapAllocator.Allocator) (s : TlBitmapAllocator.State)
        (r : Region) (k u j : Nat),
      TlBitmapAllocator.Constructed blockSize blockCount maxThreads a →
      Reachable (TlBitmapAllocator.calls a) s →
      (TlBitmapAllocator.selectRegion s.allocator (s.tRegionIndex u)).1 = k →
      s.allocator.regions[k]? = some r →
      LiveIn s.allocator.blockSize r.memory blockCount s.live j →
      ∃ i a', ReusedAt s.allocator.blockSize r.memory blockCount s.live j
          (indexToPtr s.allocator.blockSize r.memory j) i ∧
        TlBitmapAllocator.alloc (TlBitmapAllocator.dealloc s.allocator
            (indexToPtr s.allocator.blockSize r.memory j)) (s.tRegionIndex u) =
          some (r.memory + i * s.allocator.blockSize, k, a') :=
  ⟨fun _ _ _ ha h hj => alloc_dealloc ha h hj,
    fun _ _ _ _ _ _ _ ha h hselect hr hj => tl_alloc_dealloc ha h hselect hr hj⟩

section Pools

open PoolMemalloc.Ports.BitmapAllocator (pool65 pool65_constructed)
open PoolMemalloc.Ports.TlBitmapAllocator (tlPool65 tlPool65_constructed)

/-- The first block of a fresh pool, and the first that thread 3 gets of a fresh pool of
two regions. -/
theorem freed_block_reused_pools :
    (∃ s, replay BitmapAllocator.exec ⟨pool65, []⟩ [.alloc] = some s ∧
      ∃ i, ReusedAt s.allocator.blockSize s.allocator.pool.memory 65 s.live 0
          (indexToPtr s.allocator.blockSize s.allocator.pool.memory 0) i ∧
        (BitmapAllocator.alloc (BitmapAllocator.dealloc s.allocator
            (indexToPtr s.allocator.blockSize s.allocator.pool.memory 0))).1 =
          s.allocator.pool.memory + i * s.allocator.blockSize) ∧
    ∃ s r, replay TlBitmapAllocator.exec ⟨tlPool65, fun _ => SizeT.sizeMax, []⟩
        [.alloc 3] = some s ∧ s.allocator.regions[0]? = some r ∧
      ∃ i a', ReusedAt s.allocator.blockSize r.memory 65 s.live 0
          (indexToPtr s.allocator.blockSize r.memory 0) i ∧
        TlBitmapAllocator.alloc (TlBitmapAllocator.dealloc s.allocator
            (indexToPtr s.allocator.blockSize r.memory 0)) (s.tRegionIndex 3) =
          some (r.memory + i * s.allocator.blockSize, 0, a') := by
  refine ⟨⟨_, rfl, (freed_block_reused 64 65).1 pool65 _ 0 pool65_constructed
      (Reachable.replay [.alloc] (.init rfl) rfl) ?_⟩,
    ⟨_, _, rfl, rfl, (freed_block_reused 64 65).2 2 tlPool65 _ _ 0 3 0 tlPool65_constructed
      (Reachable.replay [.alloc 3] (.init rfl) rfl) ?_ rfl ?_⟩⟩
  · unfold BitmapAllocator.Live LiveIn
    decide +kernel
  · decide +kernel
  · unfold LiveIn
    decide +kernel

end Pools

end PoolMemalloc.Ports.BitmapReuse
