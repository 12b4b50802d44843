import PoolMemalloc.Ports.BitmapAllocator
import PoolMemalloc.Ports.RegionInterleaving

/-!
# Concurrent use of `BitmapAllocator`

The one-region instance of `PoolMemalloc.Ports.RegionInterleaving`: `m_hint` is
atomic, so a load returns the value written last, and `dealloc` does not look
for a region.

* `start_eq` — the machine starts from the words and the hint the constructor
  leaves.
* `bitmapAllocator_safe` — every bit has one owner under every interleaving, and
  what that means for the pointers handed out.
-/

namespace PoolMemalloc.Ports.BitmapInterleaving

open PoolMemalloc.Verified.SizeT
open PoolMemalloc.Verified.WordBitmap
open PoolMemalloc.Verified.Transition
open PoolMemalloc.Ports.BlockArray
open PoolMemalloc.Ports.BitmapRegion
open PoolMemalloc.Ports.BitmapAllocator
open PoolMemalloc.Ports.RegionInterleaving

/-- `BitmapAllocator` as a layout of one region. -/
def layout (a : Allocator) : Layout where
  blockSize := a.blockSize
  blockCount := a.pool.blockCount
  regionCount := 1
  base _ := a.pool.memory
  locate _ := some 0
  readable written value := written.head? == some value

variable {blockSize blockCount : Nat} {a : Allocator}
variable {s : RegionInterleaving.State}

theorem layout_ok (ha : Constructed blockSize blockCount a) : LayoutOk (layout a) := by
  obtain ⟨heq, hplaced, hcount⟩ := ha.placed
  have hsize : a.blockSize = storedBlockSize blockSize := by rw [heq]
  have hblocks : a.pool.blockCount = blockCount := by rw [heq]; rfl
  exact
    { arena :=
        { placed := fun _ _ => by
            rw [layout, hsize, hblocks]
            exact hplaced
          disjoint := fun k j hk hj hne => by
            simp only [layout] at hk hj
            omega }
      count := by rwa [layout, hblocks]
      locate := fun k i hk _ => by
        simp only [layout] at hk
        rw [Nat.lt_one_iff.mp hk]
        rfl
      readable := fun written value hread =>
        List.mem_of_mem_head? (by simpa [layout] using hread) }

/-- The machine's words and hint are those the constructor leaves. -/
theorem start_eq (ha : Constructed blockSize blockCount a) :
    (start (layout a)).bitmap 0 = a.pool.bitmap ∧
      (start (layout a)).hints 0 = [a.pool.hint] := by
  obtain ⟨heq, -, -⟩ := ha.placed
  rw [heq]
  exact ⟨rfl, rfl⟩

/-- What holds between any two atomic steps. -/
structure Safe (a : Allocator) (s : RegionInterleaving.State) : Prop where
  /-- A bit of a block is set exactly while the block is live, claimed by an
  `alloc` that has not returned, or given to a `dealloc` that has not cleared it. -/
  bit : ∀ i, i < a.pool.blockCount →
    (testBit (s.bitmap 0) i = true ↔ ∃ o, Owns (layout a) s 0 i o)
  /-- A block has one owner at most. -/
  owner : ∀ i o o', Owns (layout a) s 0 i o → Owns (layout a) s 0 i o' → o = o'
  /-- A padding bit is set only while exactly one thread is between claiming it
  and rolling it back. -/
  padding : ∀ i, a.pool.blockCount ≤ i → testBit (s.bitmap 0) i = true →
    ∃! t, Settling s t 0 i
  /-- `m_hint` is the index of a word, or 0. -/
  hint : ∀ hint, (s.hints 0).head? = some hint →
    hint < wordsFor a.pool.blockCount ∨ hint = 0
  /-- A non-null result is the address of a block that is not live. -/
  result : ∀ t s', exec (layout a) s (.ret t) = some s' →
    ∃ i, i < a.pool.blockCount ∧
      s'.live = (a.pool.memory + i * a.blockSize) :: s.live ∧
      a.pool.memory + i * a.blockSize ∉ s.live ∧
      a.pool.memory + i * a.blockSize ≠ 0
  /-- Every live pointer is the address of a block. -/
  blocks : ∀ p ∈ s.live, ∃ i, i < a.pool.blockCount ∧
    p = a.pool.memory + i * a.blockSize
  nodup : s.live.Nodup
  disjoint : ∀ p ∈ s.live, ∀ q ∈ s.live, p ≠ q →
    p + a.blockSize ≤ q ∨ q + a.blockSize ≤ p
  /-- The rollback of a padding bit leaves set what another owner has set. -/
  rollback : ∀ t s', exec (layout a) s (.settle t) = some s' →
    ∀ i o, Owns (layout a) s 0 i o → o ≠ .allocating t →
      testBit (s'.bitmap 0) i = true

/-- Concurrent safety of `BitmapAllocator`, for any number of threads. -/
theorem bitmapAllocator_safe (blockSize blockCount : Nat) (a : Allocator)
    (ha : Constructed blockSize blockCount a) (s : RegionInterleaving.State)
    (h : Reachable (steps (layout a)) s) : Safe a s := by
  have hL := layout_ok ha
  have hinv := inv_of_reachable hL h
  have hregion : 0 < (layout a).regionCount := Nat.one_pos
  exact
    { bit := fun i _ => hinv.bit_iff_owns hregion i
      owner := fun i o o' => hinv.owner_unique
      padding := fun i hpad hbit => hinv.padding_settling hL hregion hpad hbit
      hint := fun hint hhead => hinv.hints 0 hint (List.mem_of_mem_head? hhead)
      result := fun t s' hstep => by
        obtain ⟨k, i, -, -, hi, hlive, hfresh, hne⟩ := hinv.ret_eq hL hstep
        exact ⟨i, hi, hlive, hfresh, hne⟩
      blocks := fun p hp => by
        obtain ⟨k, i, hk, hi, rfl⟩ := hinv.blocks p hp
        exact ⟨i, hi, (hL.arena.placed k hk).indexToPtr_eq hi⟩
      nodup := hinv.nodup
      disjoint := fun p hp q hq hne => hinv.live_disjoint hL hp hq hne
      rollback := fun t s' hstep i o ho hother =>
        hinv.settle_keeps hregion ho hother hstep }

/-- A pool of two blocks, so of one word with 62 bits of padding. -/
def pool2 : Allocator := ⟨64, fresh 4096 2⟩

theorem pool2_constructed : Constructed 64 2 pool2 where
  sizes := by unfold SizesFit; decide
  made := ⟨_, fun _ => 8192, @alignedAlloc_fixed 4096 128 (by decide) (by decide),
    by decide⟩

/-- What an `alloc` of thread `t` does up to its exchange. -/
def claims (t : Nat) : List Event :=
  [.callAlloc t 0, .loadHint t 0, .loadWord t, .exchange t false]

/-- Thread 0 keeps block 0 and thread 2 is about to free block 1; thread 1 has claimed a
padding bit and is about to roll it back. -/
def rollingBack : List Event :=
  claims 0 ++ [.settle 0, .ret 0] ++ claims 2 ++ [.settle 2, .ret 2] ++ claims 1 ++
    [.callDealloc 2 4160]

theorem safe_pool2_rollingBack : ∃ s,
    replay (exec (layout pool2)) (start (layout pool2)) rollingBack = some s ∧
    (s.live = [4096] ∧ s.pc 1 = .settle 0 0 2 ∧ s.pc 2 = .fetchAnd 0 4160 ∧
      s.bitmap 0 = [7]) ∧ Safe pool2 s := by
  have hrun : (replay (exec (layout pool2)) (start (layout pool2)) rollingBack).any
      (fun s => decide (s.live = [4096] ∧ s.pc 1 = .settle 0 0 2 ∧
        s.pc 2 = .fetchAnd 0 4160 ∧ s.bitmap 0 = [7])) = true := by
    decide +kernel
  obtain ⟨s, hs, hcheck⟩ := (Option.any_eq_true _ _).mp hrun
  exact ⟨s, hs, of_decide_eq_true hcheck,
    bitmapAllocator_safe 64 2 pool2 pool2_constructed s
      (Reachable.replay rollingBack (.init rfl) hs)⟩

end PoolMemalloc.Ports.BitmapInterleaving
