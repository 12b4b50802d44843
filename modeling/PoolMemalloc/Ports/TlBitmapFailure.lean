import PoolMemalloc.Ports.PoolSizing
import PoolMemalloc.Ports.TlBitmapInterleaving

/-!
# Failed requests in the constructor of `ThreadLocalBitmapAllocator`

The constructor looks at none of the answers it gets from `aligned_alloc`.  A null
`bitmap` is written to on the spot.  A null `memory` is a region whose blocks have the
addresses from 0 on: `first_null` runs the threads up to the one that is assigned the
region, whose first `alloc` returns block 0 as null and leaves its bit set.

Without regions `assign_region` divides by `max_threads = 0`.

`Survives` is what a caller may expect of an allocator all the same, in runs of whole
calls and of interleaved steps.  `survives_iff` — it holds exactly if the construction
throws, or if there is a region and either no block to hand out or no request that failed.
-/

namespace PoolMemalloc.Ports.TlBitmapFailure

open PoolMemalloc.Verified.SizeT
open PoolMemalloc.Verified.WordBitmap
open PoolMemalloc.Verified.Transition
open PoolMemalloc.Ports.BlockArray
open PoolMemalloc.Ports.BitmapRegion
open PoolMemalloc.Ports.TlBitmapAllocator
open PoolMemalloc.Ports.TlBitmapInterleaving (layout steps selected selected_lt index_step
  layout_ok_of_arena exec_core)
open PoolMemalloc.Ports.RegionInterleaving (Owns LayoutOk)
open PoolMemalloc.Ports.PoolSizing (maxRegions lt_of_le_maxRegions)

/-- What `aligned_alloc` promises about the answers to the requests of one constructor
call: those that are not null end inside the address space and do not overlap. -/
def Answers (memory : Nat → Nat) (bytes n : Nat) : Prop :=
  ∀ k, k < n → memory k ≠ 0 → memory k + bytes < 2 ^ 64 ∧
    ∀ j, j < n → j ≠ k → memory j ≠ 0 →
      memory k + bytes ≤ memory j ∨ memory j + bytes ≤ memory k

/-- What the next call may do, between whole calls. -/
structure CallsSafe (s : State) : Prop where
  /-- `alloc` has a region to search: it neither divides by 0 nor indexes `m_regions` out
  of bounds. -/
  defined : ∀ t, ∃ ptr k a', alloc s.allocator (s.tRegionIndex t) = some (ptr, k, a')
  /-- A non-null result lies in a region whose memory was granted. -/
  result : ∀ t ptr k a', alloc s.allocator (s.tRegionIndex t) = some (ptr, k, a') →
    ptr ≠ 0 → ∃ r, s.allocator.regions[k]? = some r ∧ r.memory ≠ 0 ∧ r.memory ≤ ptr ∧
      ptr + s.allocator.blockSize ≤ r.memory + r.blockCount * s.allocator.blockSize
  /-- A null result leaves no bit set. -/
  null : ∀ t k a', alloc s.allocator (s.tRegionIndex t) = some (0, k, a') →
    a'.regions = s.allocator.regions
  /-- `dealloc` of a live pointer clears the bit of its block, and no other. -/
  frees : ∀ ptr ∈ s.live, ∃ k r i, s.allocator.regions[k]? = some r ∧ r.memory ≠ 0 ∧
    i < r.blockCount ∧ ptr = r.memory + i * s.allocator.blockSize ∧
    testBit r.bitmap i = true ∧
    (dealloc s.allocator ptr).regions = s.allocator.regions.set k (deallocIndex r i) ∧
    ∀ j, testBit (deallocIndex r i).bitmap j = (testBit r.bitmap j && decide (j ≠ i))

/-- The same between any two atomic steps. -/
structure StepsSafe (a : Allocator) (s : TlBitmapInterleaving.State) : Prop where
  selects : ∀ t, (selected a s t).1 < a.regions.length
  result : ∀ t s', TlBitmapInterleaving.exec a s (.ret t) = some s' →
    ∃ (k : Nat) (r : Region) (i : Nat), a.regions[k]? = some r ∧ r.memory ≠ 0 ∧
      i < a.blocksPerThread ∧ r.memory + i * a.blockSize ≠ 0 ∧
      s'.core.live = (r.memory + i * a.blockSize) :: s.core.live
  /-- A set bit is that of a live block or belongs to a call that has not returned. -/
  owner : ∀ k i, k < a.regions.length → testBit (s.core.bitmap k) i = true →
    ∃ o, Owns (layout a) s.core k i o
  frees : ∀ t ptr s', TlBitmapInterleaving.exec a s (.callDealloc t ptr) = some s' →
    ∃ (k : Nat) (r : Region) (i : Nat), a.regions[k]? = some r ∧ r.memory ≠ 0 ∧
      i < a.blocksPerThread ∧ ptr = r.memory + i * a.blockSize ∧
      s'.core.pc t = .fetchAnd k ptr
  clears : ∀ t s', TlBitmapInterleaving.exec a s (.fetchAnd t) = some s' →
    ∃ (k : Nat) (r : Region) (i : Nat), a.regions[k]? = some r ∧
      s.core.pc t = .fetchAnd k (r.memory + i * a.blockSize) ∧
      testBit (s.core.bitmap k) i = true ∧
      ∀ j b, testBit (s'.core.bitmap j) b =
        (testBit (s.core.bitmap j) b && !decide (j = k ∧ b = i))

/-- Unless the vector of regions throws, the constructor completes, no bitmap that has
words is null, and every later call and step is safe. -/
def Survives (memory bitmaps : Nat → Nat) (blockSize blocksPerThread maxThreads : Nat) :
    Prop :=
  maxThreads ≤ maxRegions → ∃ a, construct (fun i _ => memory i) (fun i _ => bitmaps i)
      blockSize blocksPerThread maxThreads = some a ∧
    (∀ k, k < maxThreads → wordsFor blocksPerThread ≠ 0 → bitmaps k ≠ 0) ∧
    (∀ s, Reachable (calls a) s → CallsSafe s) ∧
    ∀ s, Reachable (steps a) s → StepsSafe a s

/-- The allocator the constructor makes of these answers, if it makes one. -/
def constructed (memory : Nat → Nat) (blockSize blocksPerThread maxThreads : Nat) :
    Allocator :=
  ⟨roundUp64 blockSize, blocksPerThread, maxThreads,
    (List.range maxThreads).map fun i => fresh (memory i) blocksPerThread, 0⟩

section Construction

variable {memory bitmaps : Nat → Nat} {blockSize n m : Nat}

theorem construct_eq (h : ∀ k, k < m → wordsFor n ≠ 0 → bitmaps k ≠ 0) :
    construct (fun i _ => memory i) (fun i _ => bitmaps i) blockSize n m =
      some (constructed memory blockSize n m) := by
  refine if_neg ?_
  rintro ⟨i, hi, hnull, hwords⟩
  exact h i (List.mem_range.mp hi) hwords hnull

theorem eq_of_construct {a : Allocator}
    (h : construct (fun i _ => memory i) (fun i _ => bitmaps i) blockSize n m = some a) :
    a = constructed memory blockSize n m := by
  unfold construct at h
  dsimp only at h
  split at h
  · cases h
  · exact (Option.some.inj h).symm

/-- Regions that were all granted do not overlap. -/
theorem arena_of_granted (hpos : 0 < blockSize) (hfit : SizesFit blockSize n)
    (hanswers : Answers memory (roundUp64 blockSize * n) m)
    (hgranted : ∀ k, k < m → memory k ≠ 0) :
    Arena (roundUp64 blockSize) memory n m where
  placed k hk :=
    { blockPos := Nat.lt_of_lt_of_le hpos (le_roundUp64 hfit.1)
      memoryPos := Nat.pos_of_ne_zero (hgranted k hk)
      fits := by
        rw [Nat.mul_comm n]
        exact (hanswers k hk (hgranted k hk)).1 }
  disjoint k j hk hj hne := by
    rw [Nat.mul_comm n]
    exact (hanswers k hk (hgranted k hk)).2 j hj (Ne.symm hne) (hgranted j hj)

end Construction

/-! ## All requests granted -/

section Granted

variable {blockSize n m : Nat} {base : Nat → Nat} {a : Allocator}

theorem callsSafe_of_inv (harena : Arena blockSize base n m) (hm : 0 < m) {s : State}
    (h : Inv blockSize base n m s) : CallsSafe s where
  defined t := by
    obtain ⟨r, -, heq⟩ := h.alloc_eq hm t
    exact ⟨_, _, _, heq⟩
  result t ptr k a' hcall hne := by
    obtain ⟨r, hr, heq⟩ := h.alloc_eq hm t
    obtain ⟨hmem, hcount, htracks⟩ := h.region _ r hr
    have hplaced := harena.placed _ (h.selectRegion_lt hm t)
    rw [heq, Option.some.injEq, Prod.mk.injEq, Prod.mk.injEq] at hcall
    obtain ⟨hptr, rfl, -⟩ := hcall
    refine ⟨r, hr, ?_, ?_⟩
    · rw [hmem]
      exact Nat.ne_of_gt hplaced.memoryPos
    cases hres : (allocIndex r).1 with
    | none =>
        rw [hres] at hptr
        exact (hne hptr.symm).elim
    | some i =>
        have hi := (htracks.allocIndex_of_some hres).1
        rw [hcount] at hi
        rw [hres, Option.elim_some, hmem] at hptr
        rw [hmem, hcount, h.sizeEq, ← hptr]
        exact hplaced.indexToPtr_bounds hi
  null t k a' hcall := by
    obtain ⟨r, hr, heq⟩ := h.alloc_eq hm t
    obtain ⟨hmem, hcount, htracks⟩ := h.region _ r hr
    have hplaced := harena.placed _ (h.selectRegion_lt hm t)
    rw [heq, Option.some.injEq, Prod.mk.injEq, Prod.mk.injEq] at hcall
    obtain ⟨hptr, rfl, rfl⟩ := hcall
    cases hres : (allocIndex r).1 with
    | none =>
        show s.allocator.regions.set _ (allocIndex r).2 = s.allocator.regions
        rw [htracks.allocIndex_of_none hres]
        obtain ⟨hlt, rfl⟩ := List.getElem?_eq_some_iff.mp hr
        exact List.set_getElem_self hlt
    | some i =>
        have hi := (htracks.allocIndex_of_some hres).1
        rw [hcount] at hi
        rw [hres, Option.elim_some, hmem] at hptr
        exact (hplaced.indexToPtr_ne_zero hi hptr).elim
  frees ptr hptr := by
    obtain ⟨k, i, hk, hi, rfl⟩ := h.blocks ptr hptr
    have hklen : k < s.allocator.regions.length := h.length ▸ hk
    have hr := List.getElem?_eq_getElem hklen
    obtain ⟨hmem, hcount, htracks⟩ := h.region k _ hr
    have hplaced := harena.placed k hk
    have hlive : LiveIn blockSize (base k) n s.live i := ⟨hi, hptr⟩
    refine ⟨k, _, i, hr, ?_, ?_, ?_, (htracks.bit i).mpr hlive, ?_, fun j => ?_⟩
    · rw [hmem]
      exact Nat.ne_of_gt hplaced.memoryPos
    · rw [hcount]
      exact hi
    · rw [hmem, h.sizeEq]
      exact hplaced.indexToPtr_eq hi
    · rw [h.dealloc_eq harena hk hi hr]
    · have hafter := (htracks.deallocIndex hlive).bit j
      have hbefore := htracks.bit j
      rw [Bool.eq_iff_iff, hafter, Bool.and_eq_true, hbefore, decide_eq_true_eq]

theorem stepsSafe_of_inv (hL : LayoutOk (layout a)) {s : TlBitmapInterleaving.State}
    (hselects : ∀ t, (selected a s t).1 < a.regions.length)
    (h : RegionInterleaving.Inv (layout a) s.core) : StepsSafe a s := by
  have hregion : ∀ k i, k < a.regions.length → i < a.blocksPerThread →
      ∃ r, a.regions[k]? = some r ∧ r.memory ≠ 0 ∧
        indexToPtr a.blockSize (TlBitmapInterleaving.memoryOf a k) i =
          r.memory + i * a.blockSize := by
    intro k i hk hi
    have hbase : TlBitmapInterleaving.memoryOf a k = a.regions[k].memory := by
      simp [TlBitmapInterleaving.memoryOf, hk]
    have hplaced := hL.arena.placed k hk
    refine ⟨a.regions[k], List.getElem?_eq_getElem hk, ?_, ?_⟩
    · rw [← hbase]
      exact Nat.ne_of_gt hplaced.memoryPos
    · rw [← hbase]
      exact hplaced.indexToPtr_eq hi
  exact
    { selects := hselects
      result := fun t s' hstep => by
        obtain ⟨k, i, -, hk, hi, hlive, -, hne⟩ := h.ret_eq hL (exec_core hstep)
        obtain ⟨r, hr, hmem, hptr⟩ := hregion k i hk hi
        have heq := (hL.arena.placed k hk).indexToPtr_eq hi
        have hsame : TlBitmapInterleaving.memoryOf a k + i * a.blockSize =
            r.memory + i * a.blockSize := heq.symm.trans hptr
        refine ⟨k, r, i, hr, hmem, hi, ?_, ?_⟩
        · rw [← hsame]
          exact hne
        · rw [← hsame]
          exact hlive
      owner := fun k i hk hbit => (h.bit_iff_owns hk i).mp hbit
      frees := fun t ptr s' hstep => by
        obtain ⟨k, i, hk, hi, rfl, -, -, heq⟩ := h.callDealloc_eq hL (exec_core hstep)
        obtain ⟨r, hr, hmem, hptr⟩ := hregion k i hk hi
        refine ⟨k, r, i, hr, hmem, hi, hptr, ?_⟩
        rw [heq]
        simp [RegionInterleaving.State.goto]
      clears := fun t s' hstep => by
        obtain ⟨k, i, hk, hi, hpc, -, hbits, -⟩ := h.fetchAnd_eq hL (exec_core hstep)
        obtain ⟨r, hr, -, hptr⟩ := hregion k i hk hi
        have hindex := (hL.arena.placed k hk).ptrToIndex_indexToPtr hi
        refine ⟨k, r, i, hr, ?_, (h.bit k hk i).mpr (Or.inr ⟨t, ?_⟩), hbits⟩
        · rw [← hptr]
          exact hpc
        · rw [hpc, RegionInterleaving.owned, hindex] }

end Granted

/-! ## No blocks -/

section NoBlocks

variable {memory : Nat → Nat} {blockSize m : Nat}

theorem wordsFor_zero : wordsFor 0 = 0 := by decide

/-- Without words there is nothing to probe. -/
theorem allocIndex_of_no_words {r : Region} (h : r.wordCount = 0) :
    allocIndex r = (none, r) := by
  rw [allocIndex, h, allocLoop]

/-- Between the calls on regions that have no words. -/
structure Blockless (s : State) : Prop where
  live : s.live = []
  words : ∀ r ∈ s.allocator.regions, r.wordCount = 0
  length : s.allocator.regions.length = s.allocator.maxThreads
  index : ∀ t, s.tRegionIndex t = sizeMax ∨ s.tRegionIndex t < s.allocator.maxThreads

/-- Then no call changes a region or hands anything out. -/
theorem Blockless.alloc_eq {s : State} (h : Blockless s) (hpos : 0 < s.allocator.maxThreads)
    (t : Nat) :
    TlBitmapAllocator.alloc s.allocator (s.tRegionIndex t) =
      some (0, selectRegion s.allocator (s.tRegionIndex t)) := by
  have hlt := selectRegion_lt (h.index t) hpos
  rw [← h.length] at hlt
  have hr := List.getElem?_eq_getElem hlt
  have hwords := h.words _ (List.mem_of_getElem? hr)
  simp only [TlBitmapAllocator.alloc, selectRegion_regions, hr, Option.map_some,
    allocIndex_of_no_words hwords, Option.elim_none, List.set_getElem_self]
  rw [← selectRegion_regions s.allocator (s.tRegionIndex t)]

theorem Blockless.step {s s' : State} {c : Call} (h : Blockless s)
    (hpos : 0 < s.allocator.maxThreads) (hstep : exec s c = some s') :
    Blockless s' ∧ s'.allocator.maxThreads = s.allocator.maxThreads := by
  cases c with
  | alloc t =>
      simp only [exec, h.alloc_eq hpos, Option.map_some, Option.some.injEq] at hstep
      subst hstep
      have hlt := selectRegion_lt (h.index t) hpos
      refine ⟨⟨?_, ?_, ?_, fun u => ?_⟩, selectRegion_maxThreads _ _⟩
      · exact h.live
      · show ∀ r ∈ (selectRegion s.allocator (s.tRegionIndex t)).2.regions, r.wordCount = 0
        rw [selectRegion_regions]
        exact h.words
      · show (selectRegion s.allocator (s.tRegionIndex t)).2.regions.length =
          (selectRegion s.allocator (s.tRegionIndex t)).2.maxThreads
        rw [selectRegion_regions, selectRegion_maxThreads]
        exact h.length
      · simp only [selectRegion_maxThreads]
        split
        · exact .inr hlt
        · exact h.index u
  | dealloc ptr => simp [exec, h.live] at hstep

theorem blockless_of_reachable {a : Allocator} (hwords : ∀ r ∈ a.regions, r.wordCount = 0)
    (hlength : a.regions.length = a.maxThreads) (hpos : 0 < a.maxThreads) {s : State}
    (hreach : Reachable (calls a) s) :
    Blockless s ∧ 0 < s.allocator.maxThreads := by
  refine Reachable.invariant
    (P := fun s => Blockless s ∧ 0 < s.allocator.maxThreads) ?_ ?_ hreach
  · intro s hs
    rw [hs]
    exact ⟨⟨rfl, hwords, hlength, fun _ => .inl rfl⟩, hpos⟩
  · intro s c s' _ hs hstep
    obtain ⟨hnext, hthreads⟩ := hs.1.step hs.2 hstep
    exact ⟨hnext, hthreads ▸ hs.2⟩

theorem Blockless.safe {s : State} (h : Blockless s) (hpos : 0 < s.allocator.maxThreads) :
    CallsSafe s where
  defined t := ⟨_, _, _, h.alloc_eq hpos t⟩
  result t ptr k a' halloc hne := by
    rw [h.alloc_eq hpos, Option.some.injEq, Prod.mk.injEq] at halloc
    exact (hne halloc.1.symm).elim
  null t k a' halloc := by
    rw [h.alloc_eq hpos, Option.some.injEq, Prod.mk.injEq] at halloc
    have hregions := selectRegion_regions s.allocator (s.tRegionIndex t)
    rwa [halloc.2] at hregions
  frees ptr hptr := by
    rw [h.live] at hptr
    exact (List.not_mem_nil hptr).elim

/-- What an `alloc` that finds no words goes through. -/
def Probing : RegionInterleaving.Pc → Prop
  | .idle => True
  | .loadHint _ => True
  | .loadWord _ _ _ => True
  | _ => False

/-- None of the steps that follow an exchange is enabled. -/
private theorem exec_of_probing {L : RegionInterleaving.Layout}
    {s : RegionInterleaving.State} {t : Nat} (h : Probing (s.pc t)) :
    (∀ spurious, RegionInterleaving.exec L s (.exchange t spurious) = none) ∧
      RegionInterleaving.exec L s (.settle t) = none ∧
      RegionInterleaving.exec L s (.ret t) = none ∧
      RegionInterleaving.exec L s (.fetchAnd t) = none ∧
      RegionInterleaving.exec L s (.storeHint t) = none := by
  cases hpc : s.pc t with
  | idle => simp [RegionInterleaving.exec, hpc]
  | loadHint k => simp [RegionInterleaving.exec, hpc]
  | loadWord k start probe => simp [RegionInterleaving.exec, hpc]
  | _ =>
      rw [hpc] at h
      exact h.elim

private theorem probing_update {f : Nat → RegionInterleaving.Pc}
    (h : ∀ t, Probing (f t)) (t : Nat) {pc : RegionInterleaving.Pc} (hpc : Probing pc)
    (u : Nat) : Probing (Function.update f t pc u) := by
  by_cases hu : u = t
  · subst hu
    rwa [Function.update_self]
  · rw [Function.update_of_ne hu]
    exact h u

theorem index_of_reachable {a : Allocator} {s : TlBitmapInterleaving.State}
    (hreach : Reachable (steps a) s) (t : Nat) :
    s.tRegionIndex t = sizeMax ∨ s.tRegionIndex t < a.regions.length := by
  refine Reachable.invariant (P := fun s : TlBitmapInterleaving.State => ∀ t,
    s.tRegionIndex t = sizeMax ∨ s.tRegionIndex t < a.regions.length) ?_ ?_ hreach t
  · intro s hs t
    rw [hs]
    exact .inl rfl
  · intro s e s' _ hindex hstep
    exact index_step hindex hstep

theorem steps_of_no_blocks {a : Allocator} (h : a.blocksPerThread = 0)
    {s : TlBitmapInterleaving.State} (hreach : Reachable (steps a) s) :
    s.core.live = [] ∧ (∀ t, Probing (s.core.pc t)) ∧ ∀ k, s.core.bitmap k = [] := by
  have hwords : (layout a).wordCount = 0 := by
    show wordsFor a.blocksPerThread = 0
    rw [h, wordsFor_zero]
  refine Reachable.invariant (P := fun s => s.core.live = [] ∧
    (∀ t, Probing (s.core.pc t)) ∧ ∀ k, s.core.bitmap k = []) ?_ ?_ hreach
  · rintro s rfl
    refine ⟨rfl, fun t => trivial, fun k => ?_⟩
    show List.replicate (layout a).wordCount 0 = []
    rw [hwords, List.replicate_zero]
  · rintro s e s' - ⟨hlive, hprobing, hbitmap⟩ hstep
    have hcore := exec_core hstep
    generalize s'.core = core' at hcore ⊢
    cases e with
    | callAlloc t k =>
        simp only [RegionInterleaving.exec, Option.ite_none_right_eq_some,
          Option.some.injEq] at hcore
        obtain ⟨-, rfl⟩ := hcore
        exact ⟨hlive, probing_update hprobing t trivial, hbitmap⟩
    | loadHint t value =>
        cases hpc : s.core.pc t with
        | loadHint k =>
            simp only [RegionInterleaving.exec, hpc, Option.ite_none_right_eq_some,
              Option.some.injEq] at hcore
            obtain ⟨-, rfl⟩ := hcore
            exact ⟨hlive, probing_update hprobing t trivial, hbitmap⟩
        | _ => simp [RegionInterleaving.exec, hpc] at hcore
    | loadWord t =>
        cases hpc : s.core.pc t with
        | loadWord k start probe =>
            simp only [RegionInterleaving.exec, hpc, hwords, Nat.not_lt_zero, if_false,
              Option.some.injEq] at hcore
            subst hcore
            exact ⟨hlive, probing_update hprobing t trivial, hbitmap⟩
        | _ => simp [RegionInterleaving.exec, hpc] at hcore
    | callDealloc t ptr => simp [RegionInterleaving.exec, hlive] at hcore
    | exchange t spurious =>
        rw [(exec_of_probing (hprobing t)).1 spurious] at hcore
        cases hcore
    | settle t =>
        rw [(exec_of_probing (hprobing t)).2.1] at hcore
        cases hcore
    | ret t =>
        rw [(exec_of_probing (hprobing t)).2.2.1] at hcore
        cases hcore
    | fetchAnd t =>
        rw [(exec_of_probing (hprobing t)).2.2.2.1] at hcore
        cases hcore
    | storeHint t =>
        rw [(exec_of_probing (hprobing t)).2.2.2.2] at hcore
        cases hcore

theorem stepsSafe_of_no_blocks {a : Allocator} {s : TlBitmapInterleaving.State}
    (hselects : ∀ t, (selected a s t).1 < a.regions.length)
    (hlive : s.core.live = []) (hprobing : ∀ t, Probing (s.core.pc t))
    (hbitmap : ∀ k, s.core.bitmap k = []) : StepsSafe a s where
  selects := hselects
  result t s' hstep := by
    have hcore := exec_core hstep
    rw [(exec_of_probing (hprobing t)).2.2.1] at hcore
    cases hcore
  owner k i _ hbit := by simp [hbitmap, testBit, wordAt] at hbit
  frees t ptr s' hstep := by
    have hcore := exec_core hstep
    simp [RegionInterleaving.exec, hlive] at hcore
  clears t s' hstep := by
    have hcore := exec_core hstep
    rw [(exec_of_probing (hprobing t)).2.2.2.1] at hcore
    cases hcore

end NoBlocks

/-! ## A region whose memory was refused -/

section Refused

variable {memory bitmaps : Nat → Nat} {blockSize n m : Nat}

/-- Threads 0 to `j - 1` have made one `alloc` each; the other regions are unused. -/
theorem first_allocs (memory : Nat → Nat) (blockSize n : Nat) (hm : m < 2 ^ 64) :
    ∀ j, j ≤ m →
    ∃ s, Reachable (calls (constructed memory blockSize n m)) s ∧
      s.allocator.maxThreads = m ∧ s.allocator.threadCounter = j ∧
      (∀ k, j ≤ k → k < m → s.allocator.regions[k]? = some (fresh (memory k) n)) ∧
      ∀ t, j ≤ t → s.tRegionIndex t = sizeMax := by
  intro j
  induction j with
  | zero =>
      intro _
      refine ⟨_, .init rfl, rfl, rfl, fun k _ hk => ?_, fun _ _ => rfl⟩
      simp [constructed, hk]
  | succ j ih =>
      intro hj
      obtain ⟨s, hreach, hthreads, hcounter, hfresh, hunassigned⟩ := ih (by omega)
      have hselect : selectRegion s.allocator (s.tRegionIndex j) =
          (j, { s.allocator with threadCounter := j + 1 }) := by
        have hmod : j % s.allocator.maxThreads = j := by
          rw [hthreads]
          exact Nat.mod_eq_of_lt hj
        rw [selectRegion, if_pos (hunassigned j (Nat.le_refl j)), assignRegion, hcounter,
          hmod, wrap_of_lt (by omega)]
      let res := allocIndex (fresh (memory j) n)
      let ptr := res.1.elim 0 (indexToPtr s.allocator.blockSize (memory j))
      refine
        ⟨{ allocator :=
             { s.allocator with
               threadCounter := j + 1
               regions := s.allocator.regions.set j res.2 }
           tRegionIndex := fun u => if u = j then j else s.tRegionIndex u
           live := if ptr = 0 then s.live else ptr :: s.live },
          hreach.step (e := Call.alloc j) ?_, hthreads, rfl, ?_, ?_⟩
      · simp only [calls, ofExec, exec, alloc, hselect, hfresh j (Nat.le_refl j) hj,
          Option.map_some]
        rfl
      · intro k hk hlt
        have hne : j ≠ k := by omega
        rw [List.getElem?_set_ne hne]
        exact hfresh k (by omega) hlt
      · intro t ht
        have hne : t ≠ j := by omega
        simp only [if_neg hne]
        exact hunassigned t (by omega)

/-- The thread that is assigned a region without memory gets null for block 0. -/
theorem first_null (hm : m < 2 ^ 64) (hn : 0 < n) (hcount : n + 63 < 2 ^ 64) {k : Nat}
    (hk : k < m) (hnull : memory k = 0) :
    ∃ s, Reachable (calls (constructed memory blockSize n m)) s ∧ ¬ CallsSafe s := by
  obtain ⟨s, hreach, hthreads, hcounter, hfresh, hunassigned⟩ :=
    first_allocs memory blockSize n hm k (by omega)
  refine ⟨s, hreach, fun hsafe => ?_⟩
  have hr := hfresh k (Nat.le_refl k) hk
  have hselect : (selectRegion s.allocator (s.tRegionIndex k)).1 = k := by
    rw [selectRegion, if_pos (hunassigned k (Nat.le_refl k)), assignRegion, hcounter,
      hthreads]
    exact Nat.mod_eq_of_lt hk
  have hblock := fresh_allocIndex (memory k) hn hcount
  have hptr : indexToPtr s.allocator.blockSize (memory k) 0 = 0 := by
    rw [hnull, indexToPtr, Nat.zero_mul]
    rfl
  have halloc : ∃ a', alloc s.allocator (s.tRegionIndex k) = some (0, k, a') ∧
      a'.regions = s.allocator.regions.set k (allocIndex (fresh (memory k) n)).2 := by
    refine ⟨{ (selectRegion s.allocator (s.tRegionIndex k)).2 with
      regions := s.allocator.regions.set k (allocIndex (fresh (memory k) n)).2 }, ?_, rfl⟩
    simp only [alloc, selectRegion_regions, selectRegion_blockSize, hselect, hr,
      Option.map_some, hblock, Option.elim_some]
    rw [show (fresh (memory k) n).memory = memory k from rfl, hptr]
  obtain ⟨a', hcall, hregions⟩ := halloc
  -- the bit of block 0 is set although the result is null
  have hsame := hsafe.null k k a' hcall
  obtain ⟨hlt, hget⟩ := List.getElem?_eq_some_iff.mp hr
  have hset : (allocIndex (fresh (memory k) n)).2 = fresh (memory k) n := by
    rw [hregions] at hsame
    have hat := congrArg (fun regions => regions[k]?) hsame
    simp only [List.getElem?_set_self hlt, hr, Option.some.injEq] at hat
    exact hat
  have htracks := fresh_tracks (memory k) (Nat.lt_of_le_of_lt (Nat.le_add_right n 63) hcount)
  have hbit := ((htracks.allocIndex_of_some hblock).2.2.1.bit 0).mpr (Or.inr rfl)
  rw [hset] at hbit
  exact (htracks.bit 0).mp hbit

theorem not_survives (hm : m ≤ maxRegions) (hn : 0 < n) (hcount : n + 63 < 2 ^ 64)
    {k : Nat} (hk : k < m) (hnull : memory k = 0) :
    ¬ Survives memory bitmaps blockSize n m := by
  intro h
  obtain ⟨a, hmade, -, hcalls, -⟩ := h hm
  obtain rfl := eq_of_construct hmade
  obtain ⟨s, hreach, hunsafe⟩ :=
    first_null (lt_of_le_maxRegions hm) hn hcount hk hnull
  exact hunsafe (hcalls s hreach)

end Refused

/-- Without regions the first `alloc` is undefined. -/
theorem not_survives_no_regions {memory bitmaps : Nat → Nat} {blockSize n : Nat} :
    ¬ Survives memory bitmaps blockSize n 0 := by
  intro h
  obtain ⟨a, hmade, -, hcalls, -⟩ := h (Nat.zero_le _)
  obtain rfl := eq_of_construct hmade
  obtain ⟨ptr, k, a', halloc⟩ := (hcalls _ (.init rfl)).defined 0
  rw [alloc_of_no_regions rfl] at halloc
  cases halloc

/-- Whatever requests fail, for sizes that do not overflow, the construction throws or
the allocator is usable exactly if there are too many regions, or at least one and either
no blocks or no request that failed. -/
theorem survives_iff (memory bitmaps : Nat → Nat) (blockSize n m : Nat)
    (hpos : 1 ≤ blockSize) (hfit : SizesFit blockSize n)
    (hanswers : Answers memory (roundUp64 blockSize * n) m) :
    Survives memory bitmaps blockSize n m ↔
      maxRegions < m ∨
        0 < m ∧ (n = 0 ∨ ∀ k, k < m → memory k ≠ 0 ∧ bitmaps k ≠ 0) := by
  have hcount := hfit.count_lt hpos
  constructor
  · intro h
    rcases Nat.lt_or_ge maxRegions m with hmany | hm
    · exact Or.inl hmany
    rcases Nat.eq_zero_or_pos m with rfl | hregions
    · exact (not_survives_no_regions h).elim
    refine Or.inr ⟨hregions, ?_⟩
    rcases Nat.eq_zero_or_pos n with hn | hn
    · exact Or.inl hn
    · have hwords : wordsFor n ≠ 0 := by
        have hle := le_wordsFor hcount
        omega
      obtain ⟨-, -, hbitmaps, -⟩ := h hm
      exact Or.inr fun k hk => ⟨fun hnull => not_survives hm hn hcount hk hnull h,
        hbitmaps k hk hwords⟩
  · rintro (hmany | ⟨hregions, rfl | hgranted⟩) hm
    · exact (Nat.not_le_of_lt hmany hm).elim
    · have hbitmaps : ∀ k, k < m → wordsFor 0 ≠ 0 → bitmaps k ≠ 0 :=
        fun _ _ hwords => (hwords wordsFor_zero).elim
      have hlength : (constructed memory blockSize 0 m).regions.length = m := by
        simp [constructed]
      refine ⟨_, construct_eq hbitmaps, hbitmaps, fun s hreach => ?_, fun s hreach => ?_⟩
      · have hwords : ∀ r ∈ (constructed memory blockSize 0 m).regions, r.wordCount = 0 := by
          intro r hr
          obtain ⟨i, -, rfl⟩ := List.mem_map.mp hr
          exact wordsFor_zero
        obtain ⟨hblockless, hthreads⟩ :=
          blockless_of_reachable hwords hlength hregions hreach
        exact hblockless.safe hthreads
      · obtain ⟨hlive, hprobing, hbitmap⟩ := steps_of_no_blocks rfl hreach
        refine stepsSafe_of_no_blocks (fun t => ?_) hlive hprobing hbitmap
        exact selected_lt (index_of_reachable hreach t) hlength.symm hregions
    · have hbitmaps : ∀ k, k < m → wordsFor n ≠ 0 → bitmaps k ≠ 0 :=
        fun k hk _ => (hgranted k hk).2
      have harena := arena_of_granted hpos hfit hanswers fun k hk => (hgranted k hk).1
      obtain ⟨hL, hlength, -⟩ := layout_ok_of_arena harena hcount
        (a := constructed memory blockSize n m) rfl
      refine ⟨_, construct_eq hbitmaps, hbitmaps, fun s hreach => ?_, fun s hreach => ?_⟩
      · exact callsSafe_of_inv harena hregions
          (inv_of_reachable harena (by omega) rfl hreach)
      · refine stepsSafe_of_inv hL (fun t => ?_)
          (TlBitmapInterleaving.inv_of_reachable hL hreach).core
        exact selected_lt (index_of_reachable hreach t) hlength.symm hregions

/-- Two regions of 65 blocks, all granted. -/
theorem survives_iff_granted :
    Survives (fun k => 4096 + 12288 * k) (fun _ => 64) 64 65 2 :=
  (survives_iff _ _ 64 65 2 (by decide) (by decide) (by
    intro k hk _
    have hbytes : roundUp64 64 * 65 = 4160 := by decide
    rw [hbytes]
    dsimp only
    exact ⟨by omega, fun j hj hne _ => by omega⟩)).mpr
    (Or.inr ⟨by decide, Or.inr fun k _ => ⟨by omega, by decide⟩⟩)

/-- One thread and one block, whose memory was refused. -/
theorem not_survives_refused : ¬ Survives (fun _ => 0) (fun _ => 64) 64 1 1 :=
  not_survives (by decide) (by decide) (by decide) Nat.one_pos rfl

end PoolMemalloc.Ports.TlBitmapFailure
