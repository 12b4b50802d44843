import PoolMemalloc.Ports.RegionInterleaving
import PoolMemalloc.Ports.TlBitmapAllocator

/-!
# Concurrent use of `ThreadLocalBitmapAllocator`

The many-region instance of `PoolMemalloc.Ports.RegionInterleaving`.  A region's
`hint` is a plain field that several threads may write, so a load of it returns
any value written before; `dealloc` searches the regions for the one that owns
the pointer; and `alloc` works on the region of the calling thread's
`t_region_index`, which is assigned in one `fetch_add` of the thread counter.

`tlBitmapAllocator_safe` holds for any number of threads, so also for more than
`max_threads`, when regions are shared.
-/

namespace PoolMemalloc.Ports.TlBitmapInterleaving

open PoolMemalloc.Verified.SizeT
open PoolMemalloc.Verified.WordBitmap
open PoolMemalloc.Verified.Transition
open PoolMemalloc.Ports.BlockArray
open PoolMemalloc.Ports.BitmapRegion
open PoolMemalloc.Ports.TlBitmapAllocator
open PoolMemalloc.Ports.RegionInterleaving (Layout LayoutOk Event Pc servedBy
  servedBy_exec step_of_exec)

def memoryOf (a : Allocator) (k : Nat) : Nat := (a.regions[k]?.map Region.memory).getD 0

/-- The regions of `a` as a layout; `locate` is the search of `dealloc`. -/
def layout (a : Allocator) : Layout where
  blockSize := a.blockSize
  blockCount := a.blocksPerThread
  regionCount := a.regions.length
  base := memoryOf a
  locate ptr := a.regions.findIdx? fun r => owns a.blockSize r ptr
  readable written value := decide (value ∈ written)

/-- The shared words and hints, every thread's `t_region_index`, and the counter
of `assign_region`. -/
structure State where
  core : RegionInterleaving.State
  tRegionIndex : Nat → Nat
  threadCounter : Nat

/-- The region index an `alloc` of thread `t` would use now. -/
def selected (a : Allocator) (s : State) (t : Nat) : Nat × Allocator :=
  selectRegion { a with threadCounter := s.threadCounter } (s.tRegionIndex t)

/-- One atomic step.  The label of a call of `alloc` carries the region it
selects. -/
def exec (a : Allocator) (s : State) : Event → Option State
  | .callAlloc t k =>
      if k = (selected a s t).1 then
        (RegionInterleaving.exec (layout a) s.core (.callAlloc t k)).map fun core =>
          { core := core
            tRegionIndex := Function.update s.tRegionIndex t k
            threadCounter := (selected a s t).2.threadCounter }
      else none
  | e => (RegionInterleaving.exec (layout a) s.core e).map fun core =>
      { s with core := core }

/-- All interleavings of the threads' steps on a newly constructed allocator,
before any thread has been assigned a region. -/
def steps (a : Allocator) : System State Event :=
  ofExec (fun s => s = ⟨RegionInterleaving.start (layout a), fun _ => sizeMax,
    a.threadCounter⟩) (exec a)

/-! ## The layout of a constructed allocator -/

section Layout

variable {blockSize blocksPerThread maxThreads : Nat} {a : Allocator}

/-- Regions that do not overlap are a layout, and the address search finds the region
of every block. -/
theorem layout_ok_of_arena {base : Nat → Nat}
    (harena : Arena (roundUp64 blockSize) base blocksPerThread maxThreads)
    (hcount : blocksPerThread + 63 < 2 ^ 64)
    (heq : a = ⟨roundUp64 blockSize, blocksPerThread, maxThreads,
      (List.range maxThreads).map fun i => fresh (base i) blocksPerThread, 0⟩) :
    LayoutOk (layout a) ∧ a.regions.length = maxThreads ∧
      a.maxThreads = maxThreads := by
  have hlen : a.regions.length = maxThreads := by simp [heq]
  have hget : ∀ k, k < maxThreads →
      a.regions[k]? = some (fresh (base k) blocksPerThread) := by
    intro k hk
    simp [heq, hk]
  have hbase : ∀ k, k < maxThreads → memoryOf a k = base k := by
    intro k hk
    rw [memoryOf, hget k hk]
    rfl
  have hsize : a.blockSize = roundUp64 blockSize := by rw [heq]
  have hblocks : a.blocksPerThread = blocksPerThread := by rw [heq]
  refine ⟨⟨⟨fun k hk => ?_, fun k j hk hj hne => ?_⟩, ?_, fun k i hk hi => ?_,
    fun written value hread => of_decide_eq_true hread⟩, hlen, by rw [heq]⟩
  · have hk' : k < maxThreads := hlen ▸ hk
    simpa only [layout, hbase k hk', hsize, hblocks] using harena.placed k hk'
  · have hk' : k < maxThreads := hlen ▸ hk
    have hj' : j < maxThreads := hlen ▸ hj
    simpa only [layout, hbase k hk', hbase j hj', hsize, hblocks] using
      harena.disjoint k j hk' hj' hne
  · simpa only [layout, hblocks] using hcount
  · have hk' : k < maxThreads := hlen ▸ hk
    have hi' : i < blocksPerThread := hblocks ▸ hi
    have howns : ∀ j, j < maxThreads →
        (owns (roundUp64 blockSize) (fresh (base j) blocksPerThread)
          (indexToPtr (roundUp64 blockSize) (base k) i) = true ↔ j = k) :=
      fun j hj => owns_indexToPtr_iff harena hk' hj hi' rfl rfl
    have hat : ∀ j (hj : j < a.regions.length),
        a.regions[j] = fresh (base j) blocksPerThread := by
      intro j hj
      have hsome := hget j (hlen ▸ hj)
      rw [List.getElem?_eq_getElem hj] at hsome
      exact Option.some.inj hsome
    simp only [layout, hbase k hk', hsize]
    rw [List.findIdx?_eq_some_iff_getElem]
    refine ⟨hlen ▸ hk', ?_, fun j hj => ?_⟩
    · rw [hat]
      exact (howns k hk').mpr rfl
    · rw [hat]
      intro hfound
      have hjk := (howns j (by omega)).mp hfound
      omega

theorem layout_ok (ha : Constructed blockSize blocksPerThread maxThreads a) :
    LayoutOk (layout a) ∧ a.regions.length = maxThreads ∧
      a.maxThreads = maxThreads := by
  obtain ⟨base, harena, hcount, heq⟩ := ha.arena
  exact layout_ok_of_arena harena hcount heq

end Layout

/-! ## The invariant -/

/-- The words' invariant, and that every running `alloc` works on the region of
its thread. -/
structure Inv (a : Allocator) (s : State) : Prop where
  core : RegionInterleaving.Inv (layout a) s.core
  index : ∀ t, s.tRegionIndex t = sizeMax ∨ s.tRegionIndex t < a.regions.length
  served : ∀ t k, servedBy (s.core.pc t) = some k → s.tRegionIndex t = k

section Steps

variable {a : Allocator} {s s' : State} {e : Event}

theorem exec_core (hstep : exec a s e = some s') :
    RegionInterleaving.exec (layout a) s.core e = some s'.core := by
  cases e with
  | callAlloc t k =>
      simp only [exec, Option.ite_none_right_eq_some, Option.map_eq_some_iff] at hstep
      obtain ⟨-, core, hcore, rfl⟩ := hstep
      exact hcore
  | _ =>
      simp only [exec, Option.map_eq_some_iff] at hstep
      obtain ⟨core, hcore, rfl⟩ := hstep
      exact hcore

theorem exec_index (hstep : exec a s e = some s') (u : Nat) :
    s'.tRegionIndex u = s.tRegionIndex u ∨
      e = .callAlloc u (s'.tRegionIndex u) := by
  cases e with
  | callAlloc t k =>
      simp only [exec, Option.ite_none_right_eq_some, Option.map_eq_some_iff] at hstep
      obtain ⟨-, core, -, rfl⟩ := hstep
      by_cases hu : u = t
      · subst hu
        exact Or.inr (by simp)
      · exact Or.inl (by simp [hu])
  | _ =>
      simp only [exec, Option.map_eq_some_iff] at hstep
      obtain ⟨core, -, rfl⟩ := hstep
      exact Or.inl rfl

theorem exec_callAlloc {t k : Nat} (hstep : exec a s (.callAlloc t k) = some s') :
    k < a.regions.length ∧ s.core.pc t = .idle ∧ s'.tRegionIndex t = k := by
  simp only [exec, Option.ite_none_right_eq_some, Option.map_eq_some_iff] at hstep
  obtain ⟨-, core, hcore, rfl⟩ := hstep
  cases step_of_exec hcore with
  | callAlloc hpc hk => exact ⟨hk, hpc, by simp⟩

/-- An index is assigned within `m_regions`. -/
theorem index_step
    (hindex : ∀ t, s.tRegionIndex t = sizeMax ∨ s.tRegionIndex t < a.regions.length)
    (hstep : exec a s e = some s') (t : Nat) :
    s'.tRegionIndex t = sizeMax ∨ s'.tRegionIndex t < a.regions.length := by
  rcases exec_index hstep t with hsame | rfl
  · rw [hsame]
    exact hindex t
  · exact Or.inr (exec_callAlloc hstep).1

theorem Inv.step (hL : LayoutOk (layout a)) (h : Inv a s)
    (hstep : exec a s e = some s') : Inv a s' where
  core := h.core.step hL (exec_core hstep)
  index := index_step h.index hstep
  served t k hserved := by
    rcases servedBy_exec (exec_core hstep) hserved with hold | rfl
    · rcases exec_index hstep t with hsame | rfl
      · rw [hsame]
        exact h.served t k hold
      · -- an `alloc` is only called by an idle thread
        rw [(exec_callAlloc hstep).2.1] at hold
        cases hold
    · exact (exec_callAlloc hstep).2.2

/-- The index `alloc` is about to use is that of a region. -/
theorem selected_lt {t : Nat}
    (hindex : s.tRegionIndex t = sizeMax ∨ s.tRegionIndex t < a.regions.length)
    (hthreads : a.maxThreads = a.regions.length) (hpos : 0 < a.maxThreads) :
    (selected a s t).1 < a.regions.length := by
  rw [← hthreads] at hindex ⊢
  exact selectRegion_lt hindex hpos

end Steps

theorem inv_of_reachable {a : Allocator} (hL : LayoutOk (layout a)) {s : State}
    (h : Reachable (steps a) s) : Inv a s := by
  refine Reachable.invariant ?_ ?_ h
  · rintro s rfl
    exact
      { core := RegionInterleaving.inv_start _
        index := fun _ => Or.inl rfl
        served := fun t k hserved => by
          simp [RegionInterleaving.start, servedBy] at hserved }
  · intro s e s' _ hs hstep
    exact hs.step hL hstep

/-! ## Safety -/

/-- Region `k` of `a` is the one whose addresses include block `i` at `ptr`. -/
structure BlockAt (a : Allocator) (k i ptr : Nat) : Prop where
  index : i < a.blocksPerThread
  address : ∃ r, a.regions[k]? = some r ∧ ptr = r.memory + i * a.blockSize
  only : ∀ j r, a.regions[j]? = some r → r.memory ≤ ptr →
    ptr < r.memory + a.blocksPerThread * a.blockSize → j = k

/-- What holds between any two atomic steps. -/
structure Safe (a : Allocator) (s : State) : Prop where
  /-- No pointer is live twice, and live blocks do not overlap. -/
  nodup : s.core.live.Nodup
  disjoint : ∀ p ∈ s.core.live, ∀ q ∈ s.core.live, p ≠ q →
    p + a.blockSize ≤ q ∨ q + a.blockSize ≤ p
  /-- Every live pointer is a block of one region. -/
  blocks : ∀ p ∈ s.core.live, ∃ k i, BlockAt a k i p
  /-- `alloc` indexes `m_regions` in bounds. -/
  selects : ∀ t, (selected a s t).1 < a.regions.length
  /-- A non-null result is a block of the calling thread's region that is not
  live. -/
  result : ∀ t s', exec a s (.ret t) = some s' →
    ∃ i ptr, BlockAt a (s.tRegionIndex t) i ptr ∧ ptr ≠ 0 ∧
      ptr ∉ s.core.live ∧ s'.core.live = ptr :: s.core.live
  /-- `dealloc` of a live pointer goes on to clear the bit of its block, whoever
  calls it. -/
  frees : ∀ t ptr s', exec a s (.callDealloc t ptr) = some s' →
    ∃ k i, BlockAt a k i ptr ∧ s'.core.pc t = .fetchAnd k ptr ∧
      s'.core.bitmap = s.core.bitmap
  /-- That bit is set, and no other bit of any region changes. -/
  clears : ∀ t s', exec a s (.fetchAnd t) = some s' →
    ∃ k i ptr, s.core.pc t = .fetchAnd k ptr ∧ BlockAt a k i ptr ∧
      testBit (s.core.bitmap k) i = true ∧
      ∀ j b, testBit (s'.core.bitmap j) b =
        (testBit (s.core.bitmap j) b && !decide (j = k ∧ b = i))
  /-- The rest of `dealloc` changes no bit. -/
  hint : ∀ t s', exec a s (.storeHint t) = some s' →
    s'.core.bitmap = s.core.bitmap
  /-- The rollback of a padding bit leaves set what another owner has set. -/
  rollback : ∀ t s', exec a s (.settle t) = some s' →
    ∀ k i o, k < a.regions.length →
      RegionInterleaving.Owns (layout a) s.core k i o → o ≠ .allocating t →
      testBit (s'.core.bitmap k) i = true

section Safety

variable {a : Allocator}

theorem blockAt_of_lt (hL : LayoutOk (layout a)) {k i : Nat}
    (hk : k < a.regions.length) (hi : i < a.blocksPerThread) :
    BlockAt a k i (memoryOf a k + i * a.blockSize) where
  index := hi
  address := ⟨a.regions[k], List.getElem?_eq_getElem hk, by simp [memoryOf, hk]⟩
  only j r hr hge hlt := by
    obtain ⟨hj, hget⟩ := List.getElem?_eq_some_iff.mp hr
    have hbase : memoryOf a j = r.memory := by simp [memoryOf, hr]
    have hend : memoryOf a k + i * a.blockSize + a.blockSize ≤ _ := block_end_le hi
    have hpos : 0 < a.blockSize := (hL.arena.placed k hk).blockPos
    refine Decidable.byContradiction fun hne => ?_
    have hdisjoint := hL.arena.disjoint j k hj hk hne
    simp only [layout, hbase] at hdisjoint
    omega

/-- Concurrent safety of `ThreadLocalBitmapAllocator`, for any number of threads
and regions. -/
theorem tlBitmapAllocator_safe (blockSize blocksPerThread maxThreads : Nat)
    (a : Allocator) (ha : Constructed blockSize blocksPerThread maxThreads a)
    (s : State) (h : Reachable (steps a) s) : Safe a s := by
  obtain ⟨hL, hlen, hthreads⟩ := layout_ok ha
  have hinv := inv_of_reachable hL h
  have hcore := hinv.core
  have hptr : ∀ k i, k < a.regions.length → i < a.blocksPerThread →
      indexToPtr a.blockSize (memoryOf a k) i = memoryOf a k + i * a.blockSize :=
    fun k i hk hi => (hL.arena.placed k hk).indexToPtr_eq hi
  exact
    { nodup := hcore.nodup
      disjoint := fun p hp q hq hne => hcore.live_disjoint hL hp hq hne
      blocks := fun p hp => by
        obtain ⟨k, i, hk, hi, rfl⟩ := hcore.blocks p hp
        exact ⟨k, i, hptr k i hk hi ▸ blockAt_of_lt hL hk hi⟩
      selects := fun t => selected_lt (hinv.index t) (hthreads.trans hlen.symm)
        (hthreads ▸ ha.threads)
      result := fun t s' hstep => by
        obtain ⟨k, i, hpc, hk, hi, hlive, hfresh, hne⟩ :=
          hcore.ret_eq hL (exec_core hstep)
        obtain rfl := hinv.served t k (by rw [hpc]; rfl)
        exact ⟨i, _, blockAt_of_lt hL hk hi, hne, hfresh, hlive⟩
      frees := fun t ptr s' hstep => by
        obtain ⟨k, i, hk, hi, rfl, -, -, heq⟩ :=
          hcore.callDealloc_eq hL (exec_core hstep)
        refine ⟨k, i, hptr k i hk hi ▸ blockAt_of_lt hL hk hi, ?_, ?_⟩
        · rw [heq]
          simp [RegionInterleaving.State.goto]
        · rw [heq]
          rfl
      clears := fun t s' hstep => by
        obtain ⟨k, i, hk, hi, hpc, -, hbits, -, -, -⟩ :=
          hcore.fetchAnd_eq hL (exec_core hstep)
        refine ⟨k, i, _, hpc, hptr k i hk hi ▸ blockAt_of_lt hL hk hi, ?_, hbits⟩
        have hindex := (hL.arena.placed k hk).ptrToIndex_indexToPtr hi
        refine (hcore.bit k hk i).mpr (Or.inr ⟨t, ?_⟩)
        rw [hpc, RegionInterleaving.owned, hindex]
      hint := fun t s' hstep => by
        have hcoreStep := exec_core hstep
        generalize s'.core = core at hcoreStep ⊢
        cases step_of_exec hcoreStep with
        | storeHint => rfl
      rollback := fun t s' hstep k i o hk ho hother =>
        hcore.settle_keeps hk ho hother (exec_core hstep) }

/-- Threads 0, 1 and 2 allocate, 0 and 2 from the region they share; thread 1 is in the
middle of freeing thread 0's block, and thread 2 claims a bit of the same word. -/
def sharedRegion : List Event :=
  [.callAlloc 0 0, .loadHint 0 0, .loadWord 0, .exchange 0 false, .settle 0, .ret 0,
    .callAlloc 1 1, .loadHint 1 0, .loadWord 1, .exchange 1 false, .settle 1, .ret 1,
    .callAlloc 2 0, .loadHint 2 0, .loadWord 2, .callDealloc 1 4096, .exchange 2 false,
    .fetchAnd 1, .settle 2, .ret 2]

theorem safe_tlPool65_sharedRegion : ∃ s,
    replay (exec tlPool65) ⟨RegionInterleaving.start (layout tlPool65), fun _ => sizeMax, 0⟩
      sharedRegion = some s ∧
    (s.core.live = [4160, 16384] ∧ s.tRegionIndex 2 = s.tRegionIndex 0 ∧
      s.core.pc 1 = .storeHint 0 0 ∧ s.core.bitmap 0 = [2, 0]) ∧
    Safe tlPool65 s := by
  have hrun : (replay (exec tlPool65)
      ⟨RegionInterleaving.start (layout tlPool65), fun _ => sizeMax, 0⟩ sharedRegion).any
        (fun s => decide (s.core.live = [4160, 16384] ∧
          s.tRegionIndex 2 = s.tRegionIndex 0 ∧ s.core.pc 1 = .storeHint 0 0 ∧
          s.core.bitmap 0 = [2, 0])) = true := by
    decide +kernel
  obtain ⟨s, hs, hcheck⟩ := (Option.any_eq_true _ _).mp hrun
  exact ⟨s, hs, of_decide_eq_true hcheck,
    tlBitmapAllocator_safe 64 65 2 tlPool65 tlPool65_constructed s
      (Reachable.replay sharedRegion (.init rfl) hs)⟩

end Safety

end PoolMemalloc.Ports.TlBitmapInterleaving
