import PoolMemalloc.Ports.BitmapInterleaving
import PoolMemalloc.Ports.TlBitmapInterleaving
import PoolMemalloc.Ports.TlFreelistMutex
import PoolMemalloc.Verified.BlockService

/-!
# The allocators as services

The allocators with `alloc` and `dealloc` that the benchmarks run on, each in its atomic
steps: `BitmapAllocator`, `ThreadLocalBitmapAllocator` and `ThreadLocalFreelistAllocator`.
To their users all three lend blocks, and no block twice at a time.

A user may write into a block it has at any moment; in the machine with links these are
the `scribble` steps, which nobody notices.
-/

namespace PoolMemalloc.Ports.AllocatorServices

open PoolMemalloc.Verified.BlockService
open PoolMemalloc.Verified.Conservation
open PoolMemalloc.Verified.Transition
open PoolMemalloc.Verified.SizeT (sizeMax wrap wrap_of_lt)
open PoolMemalloc.Verified.WordBitmap (wordAt)
open PoolMemalloc.Ports.BlockArray (indexToPtr roundUp64 le_roundUp64)
open PoolMemalloc.Ports.BitmapRegion (probeIndex wordBits)

/-! ## One machine for bitmap regions -/

section Regions

open PoolMemalloc.Ports.RegionInterleaving

def regionPhase : Pc → Phase
  | .idle => .outside
  | .fetchAnd _ _ => .freeing
  | .storeHint _ _ => .freeing
  | _ => .allocating

def regionView (s : RegionInterleaving.State) : View where
  phase t := regionPhase (s.pc t)
  live := s.live

def regionNotice (e : RegionInterleaving.Event) (s' : RegionInterleaving.State) :
    Option Notice :=
  match e with
  | .callAlloc t _ => some (.callAlloc t)
  | .loadWord t => if s'.pc t = .idle then some (.gotBlock t 0) else none
  | .settle t => if s'.pc t = .idle then some (.gotBlock t 0) else none
  | .ret t => some (.gotBlock t (s'.live.headD 0))
  | .callDealloc t ptr => some (.callDealloc t ptr)
  | .storeHint t => some (.freed t)
  | _ => none

variable {L : Layout} {s s' : RegionInterleaving.State} {e : RegionInterleaving.Event}
variable {t : Nat} {pc : Pc}

theorem phase_eq (hpc : s.pc t = pc) : (regionView s).phase t = regionPhase pc :=
  congrArg regionPhase hpc

theorem regionView_moved (s : RegionInterleaving.State) (t : Nat) (pc : Pc) (live : List Nat) :
    regionView { s.goto t pc with live := live } =
      { (regionView s).enter t (regionPhase pc) with live := live } := by
  simp only [regionView, State.goto, View.enter, View.mk.injEq, and_true]
  funext u
  by_cases hu : u = t
  · subst hu
    simp
  · simp [hu]

theorem regionView_goto (s : RegionInterleaving.State) (t : Nat) (pc : Pc) :
    regionView (s.goto t pc) = (regionView s).enter t (regionPhase pc) :=
  regionView_moved s t pc s.live

/-- Within a call the users notice nothing. -/
theorem regionView_quiet (hphase : regionPhase (s.pc t) = regionPhase pc) :
    regionView (s.goto t pc) = regionView s := by
  have hsame : (regionView s).phase t = regionPhase pc := hphase
  rw [regionView_goto, View.enter, ← hsame, Function.update_eq_self]

theorem region_told (hL : LayoutOk L) (h : Inv L s) (hexec : exec L s e = some s') :
    Told (regionView s) (regionNotice e s') (regionView s') := by
  cases step_of_exec hexec with
  | @callAlloc t k hpc hk =>
      rw [regionView_goto]
      exact .callAlloc (phase_eq hpc)
  | @loadHint t k value hpc hread =>
      apply regionView_quiet
      rw [hpc]
      rfl
  | @full t k start probe hpc hprobe hword =>
      have hbusy : (s.goto t (.loadWord k start (probe + 1))).pc t ≠ .idle := by simp
      rw [regionNotice, if_neg hbusy]
      apply regionView_quiet
      rw [hpc]
      rfl
  | @loaded t k start probe hpc hprobe hword =>
      have hbusy : (s.goto t (.exchange k start probe
          (wordAt (s.bitmap k) (probeIndex L.wordCount start probe)))).pc t ≠ .idle := by simp
      rw [regionNotice, if_neg hbusy]
      apply regionView_quiet
      rw [hpc]
      rfl
  | @exhausted t k start probe hpc hprobe =>
      rw [regionNotice, if_pos (State.goto_pc s t .idle), regionView_goto]
      exact .refused (phase_eq hpc)
  | @claimed t k start probe word hpc hword =>
      apply regionView_quiet (s := s.writeWord _ _ _)
      show regionPhase (s.pc t) = _
      rw [hpc]
      rfl
  | @overtaken t k start probe word spurious hpc hword hfail =>
      apply regionView_quiet
      rw [hpc]
      rfl
  | @reloaded t k start probe word spurious hpc hword =>
      apply regionView_quiet
      rw [hpc]
      rfl
  | @undone t k wordIndex freeBit hpc hpad =>
      rw [regionNotice, if_pos (State.goto_pc _ t .idle), regionView_goto]
      exact .refused (v := regionView s) (phase_eq hpc)
  | @kept t k wordIndex freeBit hpc hin =>
      have hbusy : ((s.writeHint k wordIndex).goto t
          (.done k (wrap (wordIndex * wordBits + freeBit)))).pc t ≠ .idle := by simp
      rw [regionNotice, if_neg hbusy]
      apply regionView_quiet (s := s.writeHint _ _)
      show regionPhase (s.pc t) = _
      rw [hpc]
      rfl
  | @ret t k index hpc =>
      obtain ⟨k', i, hpc', -, -, hlive, hfresh, hne⟩ := h.ret_eq hL hexec
      have hcons := List.cons.inj hlive
      rw [regionNotice, regionView_moved]
      apply Tells.granted (phase_eq hpc)
      · rw [hcons.1]
        exact hne
      · rw [hcons.1]
        exact hfresh
  | @callDealloc t ptr k hpc hlive hlocate =>
      rw [regionView_moved]
      exact .callDealloc (phase_eq hpc) hlive
  | @ignored t ptr hpc hlive hlocate =>
      obtain ⟨k, i, hk, hi, rfl⟩ := h.blocks ptr hlive
      rw [hL.locate k i hk hi] at hlocate
      cases hlocate
  | @fetchAnd t k ptr hpc =>
      apply regionView_quiet (s := s.writeWord _ _ _)
      show regionPhase (s.pc t) = _
      rw [hpc]
      rfl
  | @storeHint t k wordIndex hpc =>
      rw [regionView_goto]
      exact .freed (v := regionView s) (phase_eq hpc)

theorem regionPhase_outside (h : regionPhase pc = .outside) : pc = .idle := by
  cases pc with
  | idle => rfl
  | _ => cases h

theorem region_takes (hL : LayoutOk L) (h : Inv L s) (ht : (regionView s).phase t = .outside)
    {ptr : Nat} (hmem : ptr ∈ s.live) : ∃ s', exec L s (.callDealloc t ptr) = some s' := by
  have hidle : s.pc t = .idle := regionPhase_outside ht
  obtain ⟨k, i, hk, hi, rfl⟩ := h.blocks ptr hmem
  simp only [exec, if_pos (And.intro hidle hmem), hL.locate k i hk hi]
  exact ⟨_, rfl⟩

/-- `BitmapAllocator`. -/
def bitmapService {blockSize blockCount : Nat} {a : BitmapAllocator.Allocator}
    (ha : BitmapAllocator.Constructed blockSize blockCount a) : Service where
  State := RegionInterleaving.State
  Event := RegionInterleaving.Event
  init := RegionInterleaving.start (BitmapInterleaving.layout a)
  exec := RegionInterleaving.exec (BitmapInterleaving.layout a)
  view := regionView
  notice _ e s' := regionNotice e s'
  Inv := RegionInterleaving.Inv (BitmapInterleaving.layout a)
  start := ⟨inv_start _, rfl⟩
  step s e s' hs hexec :=
    have hL := BitmapInterleaving.layout_ok ha
    ⟨hs.step hL hexec, region_told hL hs hexec⟩
  asks s t hs ht := by
    have hidle : s.pc t = .idle := regionPhase_outside ht
    have hregion : 0 < (BitmapInterleaving.layout a).regionCount := Nat.one_pos
    refine ⟨.callAlloc t 0, s.goto t (.loadHint 0), ?_, rfl⟩
    rw [exec, if_pos ⟨hidle, hregion⟩]
  takes s t block hs ht hmem := by
    obtain ⟨s', hs'⟩ := region_takes (BitmapInterleaving.layout_ok ha) hs ht hmem
    exact ⟨.callDealloc t block, s', hs', rfl⟩

end Regions

/-- `ThreadLocalBitmapAllocator`. -/
def tlBitmapService {blockSize blocksPerThread maxThreads : Nat}
    {a : TlBitmapAllocator.Allocator}
    (ha : TlBitmapAllocator.Constructed blockSize blocksPerThread maxThreads a) : Service where
  State := TlBitmapInterleaving.State
  Event := RegionInterleaving.Event
  init := ⟨RegionInterleaving.start (TlBitmapInterleaving.layout a),
    fun _ => sizeMax, a.threadCounter⟩
  exec := TlBitmapInterleaving.exec a
  view s := regionView s.core
  notice _ e s' := regionNotice e s'.core
  Inv := TlBitmapInterleaving.Inv a
  start :=
    ⟨TlBitmapInterleaving.inv_of_reachable (TlBitmapInterleaving.layout_ok ha).1 (.init rfl),
      rfl⟩
  step s e s' hs hexec :=
    have hL := (TlBitmapInterleaving.layout_ok ha).1
    ⟨hs.step hL hexec, region_told hL hs.core (TlBitmapInterleaving.exec_core hexec)⟩
  asks s t hs ht := by
    have hidle : s.core.pc t = .idle := regionPhase_outside ht
    obtain ⟨hL, hlen, hthreads⟩ := TlBitmapInterleaving.layout_ok ha
    have hregion : (TlBitmapInterleaving.selected a s t).1 < a.regions.length :=
      TlBitmapInterleaving.selected_lt (hs.index t) (hthreads.trans hlen.symm)
        (hthreads ▸ ha.threads)
    have hcore : RegionInterleaving.exec (TlBitmapInterleaving.layout a) s.core
        (.callAlloc t (TlBitmapInterleaving.selected a s t).1) =
          some (s.core.goto t (.loadHint (TlBitmapInterleaving.selected a s t).1)) := by
      rw [RegionInterleaving.exec]
      exact if_pos ⟨hidle, hregion⟩
    have hexec : ∃ s', TlBitmapInterleaving.exec a s
        (.callAlloc t (TlBitmapInterleaving.selected a s t).1) = some s' := by
      simp only [TlBitmapInterleaving.exec, if_true, hcore, Option.map_some]
      exact ⟨_, rfl⟩
    obtain ⟨s', hs'⟩ := hexec
    exact ⟨.callAlloc t (TlBitmapInterleaving.selected a s t).1, s', hs', rfl⟩
  takes s t block hs ht hmem := by
    obtain ⟨core, hcore⟩ := region_takes (TlBitmapInterleaving.layout_ok ha).1 hs.core ht hmem
    refine ⟨.callDealloc t block, { s with core := core }, ?_, rfl⟩
    simp only [TlBitmapInterleaving.exec, hcore, Option.map_some]

/-! ## `ThreadLocalFreelistAllocator` -/

section Freelists

open PoolMemalloc.Ports.TlFreelistInterleaving

def freelistPhase : Pc → Phase
  | .idle => .outside
  | .deallocLink _ => .freeing
  | .deallocSet _ => .freeing
  | .flushTest _ => .freeing
  | .flushWalk _ _ _ _ => .freeing
  | .flushAdvance _ _ _ _ => .freeing
  | .flushCut _ _ _ => .freeing
  | .flushNull _ _ _ => .freeing
  | .flushShrink _ _ _ => .freeing
  | .pushLock _ _ => .freeing
  | .pushNull _ _ => .freeing
  | .pushRead _ => .freeing
  | .pushNode _ _ => .freeing
  | .pushUnlock => .freeing
  | _ => .allocating

def freelistView (s : TlFreelistInterleaving.State) : View where
  phase t := freelistPhase (s.threads t).pc
  live := s.live

/-- `dealloc` of null is over at once. -/
def freelistNotice (s : TlFreelistInterleaving.State) (e : TlFreelistInterleaving.Event)
    (s' : TlFreelistInterleaving.State) : Option Notice :=
  match e with
  | .callAlloc t => some (.callAlloc t)
  | .callDealloc t ptr => if ptr = 0 then none else some (.callDealloc t ptr)
  | .step t =>
      if (s'.threads t).pc = .idle then
        if freelistPhase (s.threads t).pc = .allocating then
          some (.gotBlock t ((s.threads t).pc.grants.headD 0))
        else some (.freed t)
      else none
  | .scribble _ _ => none

variable {pool : Nat → Prop} {s s' : TlFreelistInterleaving.State} {batchSize t : Nat}
variable {g g' : List Nat} {h h' : Hand} {pc : Pc}

/-- A call goes on until it returns; only then may it have handed out a block. -/
theorem phase_of_moves (hmoves : Moves batchSize g h g' h') :
    (h'.pc = .idle ∧ freelistPhase h.pc ≠ .outside) ∨
      (h'.pc ≠ .idle ∧ h.pc.grants = [] ∧ freelistPhase h'.pc = freelistPhase h.pc) := by
  cases hmoves
  all_goals first
    | exact .inl ⟨rfl, by simp [freelistPhase]⟩
    | exact .inr ⟨by simp, rfl, rfl⟩

theorem freelistView_moved (s s' : TlFreelistInterleaving.State)
    (hthreads : ∀ u, u ≠ t → s'.threads u = s.threads u) :
    freelistView s' =
      { (freelistView s).enter t (freelistPhase (s'.threads t).pc) with live := s'.live } := by
  simp only [freelistView, View.enter, View.mk.injEq, and_true]
  funext u
  by_cases hu : u = t
  · subst hu
    simp
  · simp [hu, hthreads u hu]

theorem freelistView_goto (s : TlFreelistInterleaving.State) (t : Nat) (pc : Pc)
    (live : List Nat) : freelistView { s.goto t pc with live := live } =
      { (freelistView s).enter t (freelistPhase pc) with live := live } := by
  have hpc : (({ s.goto t pc with live := live } : TlFreelistInterleaving.State).threads t).pc =
      pc := by
    simp [State.goto, State.setThread]
  have hmoved := freelistView_moved s { s.goto t pc with live := live } fun u hu =>
    Function.update_of_ne hu _ _
  rw [hmoved, hpc]

theorem freelist_told_step (hpart : Partitioned pool s)
    (hexec : exec batchSize s (.step t) = some s') :
    Told (freelistView s) (freelistNotice s (.step t) s') (freelistView s') := by
  obtain ⟨g, l, x, hinv⟩ := hpart
  obtain ⟨g', l', x', hmoves, -, -⟩ := hinv.moves hexec
  have hfoot := footprint hexec
  have hview := freelistView_moved s s' hfoot.others
  rcases phase_of_moves hmoves with ⟨hidle, hbusy⟩ | ⟨hbusy, hgrants, hphase⟩
  · have hidle : (s'.threads t).pc = .idle := hidle
    rw [freelistNotice, if_pos hidle, hview, hidle, hfoot.live]
    cases hpc : freelistPhase (s.threads t).pc with
    | outside => exact (hbusy hpc).elim
    | freeing =>
        have hgrants : (s.threads t).pc.grants = [] := by
          cases hat : (s.threads t).pc with
          | allocated block =>
              rw [hat] at hpc
              cases hpc
          | _ => rfl
        rw [if_neg (by simp), hgrants]
        exact .freed (v := freelistView s) hpc
    | allocating =>
        rw [if_pos rfl]
        cases hat : (s.threads t).pc with
        | allocated block =>
            obtain ⟨-, htransit⟩ := hinv.holds_at hat
            have hmem : block ∈ cell g l x s.live (.transit t) := by
              rw [cell, htransit]
              exact List.mem_singleton_self block
            have hnew : block ∉ cell g l x s.live .user :=
              hinv.ledger.notMem hmem (by simp)
            exact .granted (v := freelistView s) hpc (hinv.ne_null hmem) hnew
        | _ => exact .refused (v := freelistView s) hpc
  · have hbusy : (s'.threads t).pc ≠ .idle := hbusy
    have hgrants : (s.threads t).pc.grants = [] := hgrants
    have hphase : freelistPhase (s'.threads t).pc = (freelistView s).phase t := hphase
    rw [freelistNotice, if_neg hbusy, hview, hfoot.live, hgrants, hphase, View.enter,
      Function.update_eq_self]
    rfl

theorem freelist_told (hpart : Partitioned pool s) {e : TlFreelistInterleaving.Event}
    (hexec : exec batchSize s e = some s') :
    Told (freelistView s) (freelistNotice s e s') (freelistView s') := by
  cases e with
  | step t => exact freelist_told_step hpart hexec
  | scribble block value =>
      simp only [exec, Option.ite_none_right_eq_some, Option.some.injEq] at hexec
      obtain ⟨-, rfl⟩ := hexec
      rfl
  | callAlloc t =>
      simp only [exec, Option.ite_none_right_eq_some, Option.some.injEq] at hexec
      obtain ⟨hidle, rfl⟩ := hexec
      have hview : freelistView (s.goto t .allocTest) = (freelistView s).enter t .allocating :=
        freelistView_goto s t .allocTest s.live
      rw [freelistNotice, hview]
      exact .callAlloc (v := freelistView s) (congrArg freelistPhase hidle)
  | callDealloc t ptr =>
      simp only [exec, Option.ite_none_right_eq_some] at hexec
      obtain ⟨hidle, hexec⟩ := hexec
      split at hexec
      · next hnull =>
          cases hexec
          rw [freelistNotice, if_pos hnull]
          rfl
      · next hne =>
          simp only [Option.ite_none_right_eq_some, Option.some.injEq] at hexec
          obtain ⟨hmem, rfl⟩ := hexec
          rw [freelistNotice, if_neg hne, freelistView_goto]
          exact .callDealloc (congrArg freelistPhase hidle) hmem

theorem freelistPhase_outside (h : freelistPhase pc = .outside) : pc = .idle := by
  cases pc with
  | idle => rfl
  | _ => cases h

end Freelists

/-- `ThreadLocalFreelistAllocator`. -/
def tlFreelistService {blockSz numBlocks batch : Nat} {a : TlFreelistAllocator.Allocator}
    {next : FreelistAllocator.Heap}
    (ha : TlFreelistAllocator.Constructed blockSz numBlocks batch a next) : Service where
  State := TlFreelistInterleaving.State
  Event := TlFreelistInterleaving.Event
  init := TlFreelistInterleaving.start a next
  exec := TlFreelistInterleaving.exec a.batchSize
  view := freelistView
  notice := freelistNotice
  Inv := TlFreelistInterleaving.Partitioned (TlFreelistInterleaving.IsBlock a)
  start := ⟨TlFreelistInterleaving.partitioned_of_reachable ha (.init rfl), rfl⟩
  step s e s' hs hexec :=
    have hstep : TlFreelistInterleaving.Partitioned (TlFreelistInterleaving.IsBlock a) s' := by
      obtain ⟨g, l, x, hinv⟩ := hs
      exact hinv.step hexec
    ⟨hstep, freelist_told hs hexec⟩
  asks s t _ ht := by
    have hidle : (s.threads t).pc = .idle := freelistPhase_outside ht
    refine ⟨.callAlloc t, s.goto t .allocTest, ?_, rfl⟩
    rw [TlFreelistInterleaving.exec, if_pos hidle]
  takes s t block hs ht hmem := by
    have hidle : (s.threads t).pc = .idle := freelistPhase_outside ht
    have hlive : block ∈ s.live := hmem
    obtain ⟨g, l, x, hinv⟩ := hs
    have hne : block ≠ 0 := hinv.ne_null (k := .user) hlive
    refine ⟨.callDealloc t block,
      { s.goto t (.deallocLink block) with live := s.live.erase block }, ?_, if_neg hne⟩
    rw [TlFreelistInterleaving.exec, if_pos hidle, if_neg hne, if_pos hlive]

/-! ## The allocators the benchmarks run on -/

/-- Each right after its constructor. -/
inductive Backend
  | bitmap (blockSize blockCount : Nat) (a : BitmapAllocator.Allocator)
      (ha : BitmapAllocator.Constructed blockSize blockCount a)
  | tlBitmap (blockSize blocksPerThread maxThreads : Nat) (a : TlBitmapAllocator.Allocator)
      (ha : TlBitmapAllocator.Constructed blockSize blocksPerThread maxThreads a)
  | tlFreelist (blockSz numBlocks batch : Nat) (a : TlFreelistAllocator.Allocator)
      (next : FreelistAllocator.Heap)
      (ha : TlFreelistAllocator.Constructed blockSz numBlocks batch a next)

/-- The `block_size` given to the constructor. -/
def Backend.requested : Backend → Nat
  | .bitmap blockSize _ _ _ => blockSize
  | .tlBitmap blockSize _ _ _ _ => blockSize
  | .tlFreelist blockSz _ _ _ _ _ => blockSz

/-- The bytes from one block to the next. -/
def Backend.blockSize : Backend → Nat
  | .bitmap _ _ a _ => a.blockSize
  | .tlBitmap _ _ _ a _ => a.blockSize
  | .tlFreelist _ _ _ a _ _ => a.blockSize

def Backend.service : Backend → Service
  | .bitmap _ _ _ ha => bitmapService ha
  | .tlBitmap _ _ _ _ ha => tlBitmapService ha
  | .tlFreelist _ _ _ _ _ ha => tlFreelistService ha

/-- The constructors raise a small size to at most 64, and round up. -/
theorem Backend.blockSize_eq (b : Backend) :
    ∃ least, least ≤ 64 ∧ max b.requested least + 63 < 2 ^ 64 ∧
      b.blockSize = roundUp64 (max b.requested least) := by
  cases b with
  | bitmap blockSize blockCount a ha =>
      obtain ⟨heq, -, -⟩ := ha.placed
      have hsize : a.blockSize = BitmapAllocator.storedBlockSize blockSize := by rw [heq]
      have hmax : (if blockSize < 16 then 16 else blockSize) = max blockSize 16 := by
        split <;> omega
      have hfits := ha.sizes.1
      rw [hmax] at hfits
      refine ⟨16, by decide, hfits, ?_⟩
      rw [Backend.blockSize, hsize, BitmapAllocator.storedBlockSize, hmax]
      rfl
  | tlBitmap blockSize blocksPerThread maxThreads a ha =>
      obtain ⟨base, -, -, heq⟩ := ha.arena
      have hsize : a.blockSize = roundUp64 blockSize := by rw [heq]
      have hfits := ha.sizes.1
      refine ⟨0, Nat.zero_le _, ?_, ?_⟩
      · rw [Backend.requested, Nat.max_zero]
        exact hfits
      · rw [Backend.blockSize, hsize, Backend.requested, Nat.max_zero]
  | tlFreelist blockSz numBlocks batch a next ha =>
      have hmax : TlFreelistAllocator.atLeastFreeBlock blockSz =
          max blockSz TlFreelistAllocator.sizeofFreeBlock := by
        unfold TlFreelistAllocator.atLeastFreeBlock
        split <;> omega
      have hfits := ha.sizes.1
      rw [hmax] at hfits
      refine ⟨TlFreelistAllocator.sizeofFreeBlock, by decide, hfits, ?_⟩
      rw [Backend.blockSize, ha.fields.1, hmax]
      rfl

/-- A block has the bytes asked for. -/
theorem Backend.requested_le (b : Backend) : b.requested ≤ b.blockSize := by
  obtain ⟨least, -, hfits, heq⟩ := b.blockSize_eq
  rw [heq]
  exact Nat.le_trans (Nat.le_max_left _ _) (le_roundUp64 hfits)

theorem Backend.blockSize_pos (b : Backend) : 0 < b.blockSize := by
  cases b with
  | bitmap blockSize blockCount a ha =>
      obtain ⟨heq, hplaced, -⟩ := ha.placed
      rw [Backend.blockSize, heq]
      exact hplaced.blockPos
  | tlBitmap blockSize blocksPerThread maxThreads a ha =>
      obtain ⟨base, -, -, heq⟩ := ha.arena
      rw [Backend.blockSize, heq]
      exact Nat.lt_of_lt_of_le ha.blockPos (le_roundUp64 ha.sizes.1)
  | tlFreelist blockSz numBlocks batch a next ha =>
      exact ha.fields.2.2.2.1.blockPos

theorem Backend.le_blockSize_iff (b : Backend) : 1024 ≤ b.blockSize ↔ 960 < b.requested := by
  obtain ⟨least, hleast, hfits, heq⟩ := b.blockSize_eq
  rw [heq, roundUp64, wrap_of_lt hfits]
  omega

/-- A `ThreadLocalFreelistAllocator` with three blocks, for 48 bytes each. -/
def smallPool : Backend := .tlFreelist 48 3 2 _ _ TlFreelistAllocator.tlPool3_constructed

end PoolMemalloc.Ports.AllocatorServices
