import PoolMemalloc.Ports.BitmapRegion
import PoolMemalloc.Verified.Transition

/-!
# `ThreadLocalBitmapAllocator`

One region per thread up to `max_threads`, handed out by a counter and shared
round robin beyond that.  `t_region_index` is a `static thread_local`: it belongs
to the thread, not to the allocator, so `alloc` takes it as an argument and
returns its new value.

`dealloc` finds the region by a linear search over address ranges;
`deallocIn_eq` says which region that is; in an `Arena`, where regions do not
overlap, exactly one region owns the address of a block (`owns_indexToPtr_iff`).
-/

namespace PoolMemalloc.Ports.TlBitmapAllocator

open PoolMemalloc.Verified.SizeT
open PoolMemalloc.Verified.WordBitmap
open PoolMemalloc.Verified.Transition
open PoolMemalloc.Ports.BlockArray
open PoolMemalloc.Ports.BitmapRegion

structure Allocator where
  blockSize : Nat
  blocksPerThread : Nat
  maxThreads : Nat
  regions : List Region
  threadCounter : Nat
  deriving Repr, DecidableEq

/-- The constructor.  `alignedAlloc i` and `alignedAllocWords i` answer the two
requests made for region `i`; neither answer is checked, and `none` is the
undefined behaviour of constructing a word through a null `bitmap`. -/
def construct (alignedAlloc alignedAllocWords : Nat → Nat → Nat)
    (blockSize blocksPerThread maxThreads : Nat) : Option Allocator :=
  let mBlockSize := roundUp64 blockSize
  let wordCount := wordsFor blocksPerThread
  if ∃ i ∈ List.range maxThreads,
      alignedAllocWords i (wrap (8 * wordCount)) = 0 ∧ wordCount ≠ 0 then none
  else some
    { blockSize := mBlockSize
      blocksPerThread := blocksPerThread
      maxThreads := maxThreads
      regions := (List.range maxThreads).map fun i =>
        fresh (alignedAlloc i (wrap (mBlockSize * blocksPerThread)))
          blocksPerThread
      threadCounter := 0 }

def assignRegion (a : Allocator) : Nat × Allocator :=
  (a.threadCounter % a.maxThreads,
    { a with threadCounter := wrap (a.threadCounter + 1) })

/-- The head of `alloc`: the region index the call uses, `t_region_index` being
assigned first if it still is `SIZE_MAX`. -/
def selectRegion (a : Allocator) (tRegionIndex : Nat) : Nat × Allocator :=
  if tRegionIndex = sizeMax then assignRegion a else (tRegionIndex, a)

/-- `alloc`: the pointer, the thread's region index and the allocator after the
call; `none` where `m_regions` is indexed out of bounds. -/
def alloc (a : Allocator) (tRegionIndex : Nat) :
    Option (Nat × Nat × Allocator) :=
  let selected := selectRegion a tRegionIndex
  selected.2.regions[selected.1]?.map fun r =>
    ((allocIndex r).1.elim 0 (indexToPtr a.blockSize r.memory), selected.1,
      { selected.2 with
        regions := selected.2.regions.set selected.1 (allocIndex r).2 })

/-- The range test of `dealloc`. -/
def owns (blockSize : Nat) (r : Region) (ptr : Nat) : Bool :=
  decide (r.memory ≤ ptr) &&
    decide (ptr < wrap (r.memory + wrap (r.blockCount * blockSize)))

/-- The search loop of `dealloc`. -/
def deallocIn (blockSize ptr : Nat) : List Region → List Region
  | [] => []
  | r :: rest =>
      if owns blockSize r ptr then
        deallocIndex r (ptrToIndex blockSize r.memory ptr) :: rest
      else r :: deallocIn blockSize ptr rest

def dealloc (a : Allocator) (ptr : Nat) : Allocator :=
  { a with regions := deallocIn a.blockSize ptr a.regions }

/-! ## The address search -/

/-- The search stops at the first region that owns the pointer. -/
theorem deallocIn_eq (blockSize ptr : Nat) (regions : List Region) :
    ∀ (k : Nat) (r : Region), regions[k]? = some r →
      owns blockSize r ptr = true →
      (∀ j r', j < k → regions[j]? = some r' → owns blockSize r' ptr = false) →
      deallocIn blockSize ptr regions =
        regions.set k (deallocIndex r (ptrToIndex blockSize r.memory ptr)) := by
  induction regions with
  | nil =>
      intro k r hk
      simp at hk
  | cons head rest ih =>
      intro k r hk howns hbefore
      cases k with
      | zero =>
          obtain rfl : head = r := by simpa using hk
          simp [deallocIn, howns]
      | succ k =>
          have hhead := hbefore 0 head (Nat.succ_pos k) rfl
          have hrest := ih k r (by simpa using hk) howns
            (fun j r' hj hr' => hbefore (j + 1) r' (by omega) (by simpa using hr'))
          simp [deallocIn, hhead, hrest]

/-- A pointer that no region owns is ignored. -/
theorem deallocIn_of_not_owns {blockSize ptr : Nat} {regions : List Region}
    (h : ∀ r ∈ regions, owns blockSize r ptr = false) :
    deallocIn blockSize ptr regions = regions := by
  induction regions with
  | nil => rfl
  | cons head rest ih =>
      have hrest := ih fun r hr => h r (List.mem_cons_of_mem _ hr)
      simp [deallocIn, h head List.mem_cons_self, hrest]

section Search

variable {blockSize blockCount n : Nat} {base : Nat → Nat}

theorem owns_indexToPtr_iff (h : Arena blockSize base blockCount n) {r : Region}
    {k j i : Nat} (hk : k < n) (hj : j < n) (hi : i < blockCount)
    (hmemory : r.memory = base j) (hcount : r.blockCount = blockCount) :
    owns blockSize r (indexToPtr blockSize (base k) i) = true ↔ j = k := by
  have hfits := (h.placed j hj).fits
  have hbounds := (h.placed k hk).indexToPtr_bounds hi
  have hpos := (h.placed k hk).blockPos
  have hend : wrap (r.memory + wrap (r.blockCount * blockSize)) =
      base j + blockCount * blockSize := by
    rw [hmemory, hcount, wrap_of_lt (n := blockCount * blockSize) (by omega),
      wrap_of_lt hfits]
  rw [owns, hend, hmemory, Bool.and_eq_true, decide_eq_true_eq,
    decide_eq_true_eq]
  constructor
  · rintro ⟨hge, hlt⟩
    refine Decidable.byContradiction fun hne => ?_
    rcases h.disjoint j k hj hk hne with hd | hd <;> omega
  · rintro rfl
    omega

end Search

/-! ## Runs of whole calls on one allocator -/

/-- One allocator, every thread's `t_region_index`, and the pointers the users
hold. -/
structure State where
  allocator : Allocator
  tRegionIndex : Nat → Nat
  live : List Nat

inductive Call
  | alloc (thread : Nat)
  | dealloc (ptr : Nat)
  deriving Repr, DecidableEq

/-- One call; any thread may free any live pointer. -/
def exec (s : State) : Call → Option State
  | .alloc t =>
      (alloc s.allocator (s.tRegionIndex t)).map fun res =>
        { allocator := res.2.2
          tRegionIndex := fun u => if u = t then res.2.1 else s.tRegionIndex u
          live := if res.1 = 0 then s.live else res.1 :: s.live }
  | .dealloc ptr =>
      if ptr ∈ s.live then
        some { s with
          allocator := dealloc s.allocator ptr, live := s.live.erase ptr }
      else none

/-- Runs of whole calls on a newly constructed allocator, before any thread has
been assigned a region. -/
def calls (a : Allocator) : System State Call :=
  ofExec (fun s => s = ⟨a, fun _ => sizeMax, []⟩) exec

/-- `a` came out of the constructor for sizes that do not wrap, with every
`aligned_alloc` granted, at addresses that do not overlap. -/
structure Constructed (blockSize blocksPerThread maxThreads : Nat)
    (a : Allocator) : Prop where
  blockPos : 0 < blockSize
  threads : 0 < maxThreads
  sizes : SizesFit blockSize blocksPerThread
  made : ∃ alignedAlloc alignedAllocWords : Nat → Nat → Nat,
    let base := fun i =>
      alignedAlloc i (wrap (roundUp64 blockSize * blocksPerThread))
    (∀ i, i < maxThreads → AlignedAlloc (alignedAlloc i) ∧ base i ≠ 0) ∧
    (∀ i j, i < maxThreads → j < maxThreads → i ≠ j →
      base i + roundUp64 blockSize * blocksPerThread ≤ base j ∨
        base j + roundUp64 blockSize * blocksPerThread ≤ base i) ∧
    construct alignedAlloc alignedAllocWords blockSize blocksPerThread
      maxThreads = some a

/-- A constructed allocator is an arena of fresh regions. -/
theorem Constructed.arena {blockSize blocksPerThread maxThreads : Nat}
    {a : Allocator} (h : Constructed blockSize blocksPerThread maxThreads a) :
    ∃ base, Arena (roundUp64 blockSize) base blocksPerThread maxThreads ∧
      blocksPerThread + 63 < 2 ^ 64 ∧
      a = ⟨roundUp64 blockSize, blocksPerThread, maxThreads,
        (List.range maxThreads).map fun i => fresh (base i) blocksPerThread, 0⟩ := by
  obtain ⟨hpos, -, hsizes, alignedAlloc, alignedAllocWords, hgranted, hdisjoint,
    hmade⟩ := h
  refine ⟨fun i => alignedAlloc i (wrap (roundUp64 blockSize * blocksPerThread)),
    ⟨fun k hk => ?_, fun k j hk hj hne => ?_⟩, hsizes.count_lt hpos, ?_⟩
  · obtain ⟨hspec, hne⟩ := hgranted k hk
    exact placed_of_granted hspec hpos hsizes hne
  · rw [Nat.mul_comm blocksPerThread]
    exact hdisjoint k j hk hj hne
  · unfold construct at hmade
    dsimp only at hmade
    split at hmade
    · cases hmade
    · exact (Option.some.inj hmade).symm

/-- What holds between calls. -/
structure Inv (blockSize : Nat) (base : Nat → Nat) (blockCount n : Nat)
    (s : State) : Prop where
  sizeEq : s.allocator.blockSize = blockSize
  threadsEq : s.allocator.maxThreads = n
  length : s.allocator.regions.length = n
  region : ∀ k r, s.allocator.regions[k]? = some r →
    r.memory = base k ∧ r.blockCount = blockCount ∧
      Tracks r (LiveIn blockSize (base k) blockCount s.live)
  nodup : s.live.Nodup
  blocks : ∀ p ∈ s.live, ∃ k i, k < n ∧ i < blockCount ∧
    p = indexToPtr blockSize (base k) i
  index : ∀ t, s.tRegionIndex t = sizeMax ∨ s.tRegionIndex t < n

section Calls

variable {blockSize blockCount n : Nat} {base : Nat → Nat}

theorem inv_init (hcount : blockCount < 2 ^ 64) :
    Inv blockSize base blockCount n
      ⟨⟨blockSize, blockCount, n,
        (List.range n).map fun i => fresh (base i) blockCount, 0⟩,
        fun _ => sizeMax, []⟩ where
  sizeEq := rfl
  threadsEq := rfl
  length := by simp
  region k r hr := by
    obtain ⟨i, hi, rfl⟩ : ∃ i, (List.range n)[k]? = some i ∧
        fresh (base i) blockCount = r := by
      simpa [List.getElem?_map] using hr
    obtain rfl : k = i := by
      rw [List.getElem?_range] at hi
      · exact Option.some.inj hi
      · exact Nat.lt_of_not_ge fun hge => by simp [hge] at hi
    exact ⟨rfl, rfl, (fresh_tracks (base k) hcount).congr fun i => by simp [LiveIn]⟩
  nodup := List.nodup_nil
  blocks := by simp
  index _ := Or.inl rfl

/-- The selected index is in range, whether it was assigned now or before. -/
theorem selectRegion_lt {a : Allocator} {tRegionIndex : Nat}
    (hindex : tRegionIndex = sizeMax ∨ tRegionIndex < a.maxThreads)
    (hpos : 0 < a.maxThreads) : (selectRegion a tRegionIndex).1 < a.maxThreads := by
  unfold selectRegion assignRegion
  split
  · exact Nat.mod_lt _ hpos
  · next hassigned => exact hindex.resolve_left hassigned

theorem Inv.selectRegion_lt {s : State} (h : Inv blockSize base blockCount n s)
    (hn : 0 < n) (t : Nat) :
    (selectRegion s.allocator (s.tRegionIndex t)).1 < n := by
  have hindex := h.index t
  rw [← h.threadsEq] at hindex hn ⊢
  exact TlBitmapAllocator.selectRegion_lt hindex hn

/-- Selecting a region touches no region. -/
@[simp] theorem selectRegion_regions (a : Allocator) (t : Nat) :
    (selectRegion a t).2.regions = a.regions := by
  unfold selectRegion assignRegion
  split <;> rfl

@[simp] theorem selectRegion_blockSize (a : Allocator) (t : Nat) :
    (selectRegion a t).2.blockSize = a.blockSize := by
  unfold selectRegion assignRegion
  split <;> rfl

/-- Which region is selected does not depend on the regions. -/
theorem selectRegion_fst (a : Allocator) (regions : List Region) (t : Nat) :
    (selectRegion { a with regions := regions } t).1 = (selectRegion a t).1 := by
  unfold selectRegion assignRegion
  split <;> rfl

@[simp] theorem selectRegion_maxThreads (a : Allocator) (t : Nat) :
    (selectRegion a t).2.maxThreads = a.maxThreads := by
  unfold selectRegion assignRegion
  split <;> rfl

/-- `alloc` never indexes `m_regions` out of bounds, and what it does is the
region-level call on the selected region. -/
theorem Inv.alloc_eq {s : State} (h : Inv blockSize base blockCount n s)
    (hn : 0 < n) (t : Nat) :
    ∃ r, s.allocator.regions[(selectRegion s.allocator (s.tRegionIndex t)).1]? =
        some r ∧
      alloc s.allocator (s.tRegionIndex t) =
        some ((allocIndex r).1.elim 0 (indexToPtr blockSize r.memory),
          (selectRegion s.allocator (s.tRegionIndex t)).1,
          { (selectRegion s.allocator (s.tRegionIndex t)).2 with
            regions := s.allocator.regions.set
              (selectRegion s.allocator (s.tRegionIndex t)).1
              (allocIndex r).2 }) := by
  have hlt := h.selectRegion_lt hn t
  rw [← h.length] at hlt
  refine ⟨_, List.getElem?_eq_getElem hlt, ?_⟩
  simp [alloc, List.getElem?_eq_getElem hlt, h.sizeEq]

/-- Replacing region `k` by one that tracks the new live set keeps the
invariant, as long as the other regions' live blocks stay the same. -/
theorem Inv.set_region {s : State} (h : Inv blockSize base blockCount n s)
    {k : Nat} {r q : Region} (hr : s.allocator.regions[k]? = some r)
    (a : Allocator) (tRegionIndex : Nat → Nat) (live : List Nat)
    (hsize : a.blockSize = blockSize) (hthreads : a.maxThreads = n)
    (hregions : a.regions = s.allocator.regions.set k q)
    (hstatic : q.memory = r.memory ∧ q.blockCount = r.blockCount)
    (htracks : Tracks q (LiveIn blockSize (base k) blockCount live))
    (hother : ∀ j, j < n → j ≠ k → ∀ i, i < blockCount →
      (indexToPtr blockSize (base j) i ∈ live ↔
        indexToPtr blockSize (base j) i ∈ s.live))
    (hnodup : live.Nodup)
    (hblocks : ∀ p ∈ live, ∃ k i, k < n ∧ i < blockCount ∧
      p = indexToPtr blockSize (base k) i)
    (hindex : ∀ t, tRegionIndex t = sizeMax ∨ tRegionIndex t < n) :
    Inv blockSize base blockCount n ⟨a, tRegionIndex, live⟩ where
  sizeEq := hsize
  threadsEq := hthreads
  length := by simp [hregions, h.length]
  region j u hu := by
    have hk : k < s.allocator.regions.length :=
      (List.getElem?_eq_some_iff.mp hr).1
    simp only [hregions] at hu
    by_cases hj : j = k
    · subst hj
      rw [List.getElem?_set_self hk] at hu
      obtain rfl : q = u := Option.some.inj hu
      obtain ⟨hmem, hcount, -⟩ := h.region j r hr
      exact ⟨hstatic.1.trans hmem, hstatic.2.trans hcount, htracks⟩
    · rw [List.getElem?_set_ne (Ne.symm hj)] at hu
      obtain ⟨hmem, hcount, hold⟩ := h.region j u hu
      have hjn : j < n := h.length ▸ (List.getElem?_eq_some_iff.mp hu).1
      exact ⟨hmem, hcount, hold.congr (liveIn_congr _ _ (hother j hjn hj))⟩
  nodup := hnodup
  blocks := hblocks
  index := hindex

theorem Inv.alloc (hn : 0 < n) (harena : Arena blockSize base blockCount n)
    {s s' : State} (h : Inv blockSize base blockCount n s) {t : Nat}
    (hstep : exec s (.alloc t) = some s') : Inv blockSize base blockCount n s' := by
  obtain ⟨r, hr, halloc⟩ := h.alloc_eq hn t
  have hk := h.selectRegion_lt hn t
  obtain ⟨hmem, hcount, htracks⟩ := h.region _ r hr
  have hplaced := harena.placed _ hk
  have hindex : ∀ u, (if u = t then
        (selectRegion s.allocator (s.tRegionIndex t)).1
        else s.tRegionIndex u) = sizeMax ∨
      (if u = t then (selectRegion s.allocator (s.tRegionIndex t)).1
        else s.tRegionIndex u) < n := by
    intro u
    split
    · exact Or.inr hk
    · exact h.index u
  simp only [exec, halloc, Option.map_some, Option.some.injEq] at hstep
  subst hstep
  cases hres : (allocIndex r).1 with
  | none =>
      have hpool := htracks.allocIndex_of_none hres
      refine h.set_region (q := r) hr _ _ _ (by simp [h.sizeEq])
        (by simp [h.threadsEq]) (by simp [hpool]) ⟨rfl, rfl⟩ ?_ ?_ ?_ ?_ hindex
      · simpa using htracks
      · simp
      · simpa using h.nodup
      · simpa using h.blocks
  | some i =>
      obtain ⟨hi, hfree, htracks', hpool⟩ := htracks.allocIndex_of_some hres
      rw [hcount] at hi
      have hptr : (some i).elim 0 (indexToPtr blockSize r.memory) =
          indexToPtr blockSize
            (base (selectRegion s.allocator (s.tRegionIndex t)).1) i := by
        rw [hmem]
        rfl
      simp only [hptr, if_neg (hplaced.indexToPtr_ne_zero hi)]
      refine h.set_region (q := (allocIndex r).2) hr _ _ _ (by simp [h.sizeEq])
        (by simp [h.threadsEq]) rfl (by simp [hpool]) ?_ ?_ ?_ ?_ hindex
      · exact htracks'.congr (hplaced.liveIn_cons s.live hi)
      · intro j hj hne i' hi'
        have := harena.indexToPtr_ne hj hk hne hi' hi
        simp [this]
      · exact List.nodup_cons.mpr ⟨fun hmem' => hfree ⟨hi, hmem'⟩, h.nodup⟩
      · intro p hp
        rcases List.mem_cons.mp hp with rfl | hp
        · exact ⟨_, i, hk, hi, rfl⟩
        · exact h.blocks p hp

/-- `dealloc` of a block finds the region it is in. -/
theorem Inv.dealloc_eq (harena : Arena blockSize base blockCount n) {s : State}
    (h : Inv blockSize base blockCount n s) {k i : Nat} (hk : k < n)
    (hi : i < blockCount) {r : Region} (hr : s.allocator.regions[k]? = some r) :
    TlBitmapAllocator.dealloc s.allocator (indexToPtr blockSize (base k) i) =
      { s.allocator with regions := s.allocator.regions.set k (deallocIndex r i) } := by
  obtain ⟨hmem, hcount, -⟩ := h.region k r hr
  have hsearch := deallocIn_eq blockSize (indexToPtr blockSize (base k) i)
    s.allocator.regions k r hr ((owns_indexToPtr_iff harena hk hk hi hmem hcount).mpr rfl)
    (fun j r' hj hr' => by
      obtain ⟨hmem', hcount', -⟩ := h.region j r' hr'
      rw [Bool.eq_false_iff]
      intro howns
      have := (owns_indexToPtr_iff harena hk (by omega) hi hmem' hcount').mp howns
      omega)
  rw [hmem, (harena.placed k hk).ptrToIndex_indexToPtr hi] at hsearch
  simp only [TlBitmapAllocator.dealloc, h.sizeEq, hsearch]

theorem Inv.dealloc (harena : Arena blockSize base blockCount n)
    {s s' : State} (h : Inv blockSize base blockCount n s) {ptr : Nat}
    (hstep : exec s (.dealloc ptr) = some s') :
    Inv blockSize base blockCount n s' := by
  simp only [exec, Option.ite_none_right_eq_some, Option.some.injEq] at hstep
  obtain ⟨hlive, rfl⟩ := hstep
  obtain ⟨k, i, hk, hi, rfl⟩ := h.blocks ptr hlive
  have hklen : k < s.allocator.regions.length := h.length ▸ hk
  have hr := List.getElem?_eq_getElem hklen
  obtain ⟨-, -, htracks⟩ := h.region k _ hr
  have hplaced := harena.placed k hk
  refine h.set_region (q := deallocIndex s.allocator.regions[k] i) hr _ _ _
    (by rw [h.dealloc_eq harena hk hi hr]; exact h.sizeEq)
    (by rw [h.dealloc_eq harena hk hi hr]; exact h.threadsEq)
    (by rw [h.dealloc_eq harena hk hi hr]) ⟨rfl, rfl⟩ ?_ ?_ ?_ ?_ h.index
  · exact (htracks.deallocIndex ⟨hi, hlive⟩).congr
      (hplaced.liveIn_erase h.nodup hi)
  · intro j hj hne i' hi'
    have := harena.indexToPtr_ne hj hk hne hi' hi
    rw [h.nodup.mem_erase_iff]
    simp [this]
  · exact h.nodup.erase _
  · exact fun p hp => h.blocks p (List.mem_of_mem_erase hp)

/-- Without regions `alloc` indexes `m_regions` out of bounds. -/
theorem alloc_of_no_regions {a : Allocator} (h : a.regions = []) (tRegionIndex : Nat) :
    alloc a tRegionIndex = none := by
  rw [alloc, selectRegion_regions, h, List.getElem?_nil, Option.map_none]

/-- The invariant holds in every state a run of calls reaches. -/
theorem inv_of_reachable {a : Allocator} (harena : Arena blockSize base blockCount n)
    (hcount : blockCount < 2 ^ 64)
    (heq : a = ⟨blockSize, blockCount, n,
      (List.range n).map fun i => fresh (base i) blockCount, 0⟩)
    {s : State} (h : Reachable (calls a) s) : Inv blockSize base blockCount n s := by
  refine Reachable.invariant ?_ ?_ h
  · rintro s rfl
    exact heq ▸ inv_init hcount
  · intro s c s' _ hs hstep
    cases c with
    | alloc t =>
        rcases Nat.eq_zero_or_pos n with rfl | hn
        · have hnone := alloc_of_no_regions (List.eq_nil_of_length_eq_zero hs.length)
            (s.tRegionIndex t)
          simp only [calls, ofExec, exec, hnone, Option.map_none, reduceCtorEq] at hstep
        · exact hs.alloc hn harena hstep
    | dealloc ptr => exact hs.dealloc harena hstep

theorem Constructed.inv {a : Allocator} (ha : Constructed blockSize blockCount n a) :
    ∃ base, Arena (roundUp64 blockSize) base blockCount n ∧
      blockCount + 63 < 2 ^ 64 ∧
      ∀ s, Reachable (calls a) s → Inv (roundUp64 blockSize) base blockCount n s := by
  obtain ⟨base, harena, hcount, heq⟩ := ha.arena
  exact ⟨base, harena, hcount, fun s h => inv_of_reachable harena (by omega) heq h⟩

end Calls

/-- Two regions of 65 blocks. -/
def tlPool65 : Allocator :=
  ⟨64, 65, 2, [fresh 4096 65, fresh 16384 65], 0⟩

theorem tlPool65_constructed : Constructed 64 65 2 tlPool65 where
  blockPos := by decide
  threads := by decide
  sizes := by unfold SizesFit; decide
  made := by
    have hsize : roundUp64 64 * 65 = 4160 := by decide
    have hbytes : wrap 4160 = 4160 := by decide
    refine ⟨fun i bytes => if bytes ≤ 4160 then 4096 + 12288 * i else 0,
      fun _ _ => 8192, ?_, ?_, by decide⟩
    · intro i hi
      refine ⟨alignedAlloc_fixed (by omega) (by omega), ?_⟩
      simp [hsize, hbytes]
    · intro i j hi hj hne
      simp only [hsize, hbytes, Nat.le_refl, if_true]
      omega

end PoolMemalloc.Ports.TlBitmapAllocator
