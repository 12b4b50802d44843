import PoolMemalloc.Ports.CacheWorld
import PoolMemalloc.Ports.Instrumentation

/-!
# `ThreadCache` with its hooks

The functions of `ThreadCache` as a build with counters and debug checks has them.  The
hooks change nothing that a call does to the heap, the global list and the cache:
`alloc_plain` and `dealloc_plain` take them away again.  What they leave in the thread's
variables depends on the nodes that the call moves (`alloc_notes`, `dealloc_notes`).
-/

namespace PoolMemalloc.Ports.InstrumentedCache

open PoolMemalloc.Verified.SizeT
open PoolMemalloc.Verified.LinkedChain
open PoolMemalloc.Ports.FreelistAllocator
open PoolMemalloc.Ports.ThreadCache (Cache Cached refillWalk flushWalk refilled flushed
  refill_batch flush_batch)
open PoolMemalloc.Ports.CacheWorld (World addresses getCache)
open PoolMemalloc.Ports.Instrumentation

/-- What a call reads and writes; `vars` belongs to the calling thread. -/
structure Frame (π : Type) where
  next : Heap
  head : TaggedPtr
  cache : Cache π
  vars : ThreadVars

section Calls

variable {π : Type}

/-- Without the thread's variables. -/
def Frame.plain (f : Frame π) : Heap × TaggedPtr × Cache π := (f.next, f.head, f.cache)

def refill (b : Build) (fuel : Nat) (f : Frame π) : Option (Frame π) :=
  let popped := popBulk f.cache.batchSize f.next f.head
  if popped.1 = 0 then some { f with next := popped.2.1, head := popped.2.2 }
  else
    (refillWalk fuel popped.2.1 popped.1 1).map fun walked =>
      { next := Function.update popped.2.1 walked.1 f.cache.localHead
        head := popped.2.2
        cache :=
          { f.cache with
            localHead := popped.1
            localSize := wrap (f.cache.localSize + walked.2) }
        vars := allocStatAdd b .refillBlocks walked.2 (allocStatInc b .refills f.vars) }

def flush (b : Build) (fuel : Nat) (f : Frame π) (excess : Nat) : Option (Frame π) :=
  if f.cache.localHead = 0 ∨ excess = 0 then some f
  else
    (flushWalk fuel f.next excess f.cache.localHead 1).bind fun walked =>
      (pushBulk fuel (Function.update f.next walked.1 0) f.head f.cache.localHead
        walked.1).map fun pushed =>
          { next := pushed.1
            head := pushed.2
            cache :=
              { f.cache with
                localHead := f.next walked.1
                localSize := wrapSub f.cache.localSize walked.2 }
            vars := allocStatAdd b .flushBlocks walked.2 (allocStatInc b .flushes f.vars) }

/-- The result comes first; 0 is null. -/
def alloc (b : Build) (fuel : Nat) (f : Frame π) : Option (Nat × Frame π) :=
  (if f.cache.localSize ≤ f.cache.lowWatermark then refill b fuel f
    else some f).map fun r =>
      if r.cache.localHead = 0 then (0, r)
      else
        (r.cache.localHead,
          { r with
            cache :=
              { r.cache with
                localHead := r.next r.cache.localHead
                localSize := wrapSub r.cache.localSize 1 }
            vars := debugOnAlloc b r.cache.localHead (allocStatInc b .allocs r.vars) })

/-- The message comes first: the check runs before anything else. -/
def dealloc (b : Build) (fuel : Nat) (f : Frame π) (ptr : Nat) :
    Option Message × Option (Frame π) :=
  if ptr = 0 then (none, some f)
  else
    let checked := debugOnDealloc b ptr (allocStatInc b .deallocs f.vars)
    let f' : Frame π :=
      { next := Function.update f.next ptr f.cache.localHead
        head := f.head
        cache := { f.cache with localHead := ptr, localSize := wrap (f.cache.localSize + 1) }
        vars := checked.2 }
    (checked.1,
      if f'.cache.localSize > f'.cache.highWatermark then
        flush b fuel f' (wrapSub f'.cache.localSize f'.cache.batchSize)
      else some f')

/-! ## Without the hooks -/

variable {b : Build} {fuel : Nat} {f : Frame π}

theorem refill_plain : (refill b fuel f).map Frame.plain =
    ThreadCache.refill fuel f.next f.head f.cache := by
  unfold refill ThreadCache.refill
  simp only
  split
  · rfl
  · rw [Option.map_map]
    rfl

theorem flush_plain (excess : Nat) : (flush b fuel f excess).map Frame.plain =
    ThreadCache.flush fuel f.next f.head f.cache excess := by
  unfold flush ThreadCache.flush
  split
  · rfl
  · simp only [Option.map_bind, Function.comp_def, Option.map_map]
    rfl

/-- A call of `alloc` does the same with and without hooks. -/
theorem alloc_plain : (alloc b fuel f).map (fun r => (r.1, r.2.plain)) =
    ThreadCache.alloc fuel f.next f.head f.cache := by
  have hrefill : (if f.cache.localSize ≤ f.cache.lowWatermark then
        ThreadCache.refill fuel f.next f.head f.cache
      else some (f.next, f.head, f.cache)) =
      (if f.cache.localSize ≤ f.cache.lowWatermark then refill b fuel f
        else some f).map Frame.plain := by
    split
    · exact refill_plain.symm
    · rfl
  rw [alloc, ThreadCache.alloc, hrefill, Option.map_map, Option.map_map]
  congr 1
  funext r
  simp only [Function.comp_def, Frame.plain]
  by_cases hnull : r.cache.localHead = 0
  · rw [if_pos hnull]
    exact (if_pos hnull).symm
  · rw [if_neg hnull]
    exact (if_neg hnull).symm

/-- So does a call of `dealloc`. -/
theorem dealloc_plain (ptr : Nat) : (dealloc b fuel f ptr).2.map Frame.plain =
    ThreadCache.dealloc fuel f.next f.head f.cache ptr := by
  unfold dealloc ThreadCache.dealloc
  split
  · rfl
  · simp only
    split
    · exact flush_plain _
    · rfl

end Calls

/-! ## What the hooks note -/

/-- After the refill that precedes an allocation; the nodes are those before it. -/
def refillNotes (b : Build) (batch : Nat) (g l : List Nat) (v : ThreadVars) : ThreadVars :=
  if l.length ≤ batch / 2 ∧ g ≠ [] then
    allocStatAdd b .refillBlocks (g.take (max batch 1)).length (allocStatInc b .refills v)
  else v

/-- After an allocation that returns `r`. -/
def allocNotes (b : Build) (r : Nat) (v : ThreadVars) : ThreadVars :=
  if r = 0 then v else debugOnAlloc b r (allocStatInc b .allocs v)

/-- After the flush that follows a deallocation; the chain is the one before it. -/
def flushNotes (b : Build) (batch : Nat) (l : List Nat) (v : ThreadVars) : ThreadVars :=
  if wrap (batch * 2) < l.length ∧ wrapSub l.length batch ≠ 0 then
    allocStatAdd b .flushBlocks (l.take (wrapSub l.length batch)).length
      (allocStatInc b .flushes v)
  else v

section Notes

variable {π : Type} {b : Build} {batch fuel : Nat} {f : Frame π} {g l : List Nat}
variable {v : ThreadVars}

@[simp] theorem refillNotes_live : (refillNotes b batch g l v).live = v.live := by
  unfold refillNotes
  split <;> simp

theorem allocNotes_live (hb : b.debug = true) {r : Nat} :
    (allocNotes b r v).live = if r = 0 then v.live else insert r v.live := by
  unfold allocNotes
  split
  · rfl
  · next hne => rw [debugOnAlloc_live hb hne, allocStatInc_live]

@[simp] theorem flushNotes_live : (flushNotes b batch l v).live = v.live := by
  unfold flushNotes
  split <;> simp

theorem refill_notes (h : Cached batch f.next f.head f.cache g l) (hfuel : g.length < fuel)
    (hbound : g.length + l.length < 2 ^ 64) (hlow : l.length ≤ batch / 2) :
    ∃ f', refill b fuel f = some f' ∧ f'.vars = refillNotes b batch g l f.vars := by
  obtain ⟨start, next', head', hrun, htaken, -, -⟩ :=
    popBulk_spec (n := batch) h.global (List.nodup_append.mp h.nodup).1
  have hempty : g = [] ↔ start = 0 := by
    rw [← htaken.eq_nil_iff, List.take_eq_nil_iff]
    constructor
    · exact Or.inr
    · rintro (hzero | hg)
      · omega
      · exact hg
  by_cases hnull : start = 0
  · refine ⟨{ f with next := next', head := head' }, ?_,
      (if_neg fun hmore => hmore.2 (hempty.mpr hnull)).symm⟩
    simp only [refill, h.batchSize, hrun, if_pos hnull]
  · have hlen : (g.take (max batch 1)).length ≤ g.length := List.length_take_le' _ _
    obtain ⟨last, hwalk, -⟩ :=
      refill_batch htaken hnull (Nat.lt_of_le_of_lt hlen hfuel) (by omega)
    have hmore : l.length ≤ batch / 2 ∧ g ≠ [] := ⟨hlow, fun hg => hnull (hempty.mp hg)⟩
    simp only [refill, h.batchSize, hrun, if_neg hnull, hwalk, Option.map_some]
    exact ⟨_, rfl, (if_pos hmore).symm⟩

theorem flush_notes (h : Cached batch f.next f.head f.cache g l) (hne : l ≠ [])
    (excess : Nat) (hfuel : l.length < fuel) (hbound : l.length < 2 ^ 64) :
    ∃ f', flush b fuel f excess = some f' ∧ f'.vars =
      if excess ≠ 0 then
        allocStatAdd b .flushBlocks (l.take excess).length (allocStatInc b .flushes f.vars)
      else f.vars := by
  have hhead : f.cache.localHead ≠ 0 := fun hnull => hne (h.chain.eq_nil_iff.mpr hnull)
  by_cases hzero : excess = 0
  · exact ⟨f, if_pos (Or.inr hzero), (if_neg (not_not_intro hzero)).symm⟩
  · obtain ⟨next', head', c', hrun, -⟩ := ThreadCache.flush_spec h excess hfuel hbound
    obtain ⟨last, hwalk, -, -⟩ := flush_batch h.chain hhead hzero hfuel hbound
    rw [← flush_plain (b := b)] at hrun
    obtain ⟨f', hflush, -⟩ := Option.map_eq_some_iff.mp hrun
    refine ⟨f', hflush, ?_⟩
    rw [flush, if_neg (not_or.mpr ⟨hhead, hzero⟩), hwalk, Option.bind_some] at hflush
    obtain ⟨pushed, -, rfl⟩ := Option.map_eq_some_iff.mp hflush
    exact (if_pos hzero).symm

/-- A whole `alloc`: the result is that of the plain call. -/
theorem alloc_notes (h : Cached batch f.next f.head f.cache g l) (hfuel : g.length < fuel)
    (hbound : g.length + l.length < 2 ^ 64) :
    ∃ f', alloc b fuel f = some ((refilled batch g l).2.headD 0, f') ∧
      f'.vars = allocNotes b ((refilled batch g l).2.headD 0)
        (refillNotes b batch g l f.vars) := by
  obtain ⟨next', head', c', hrun, -⟩ := ThreadCache.alloc_spec h hfuel hbound
  rw [← alloc_plain (b := b)] at hrun
  obtain ⟨⟨r, f'⟩, halloc, heq⟩ := Option.map_eq_some_iff.mp hrun
  obtain rfl : r = (refilled batch g l).2.headD 0 := congrArg Prod.fst heq
  refine ⟨f', halloc, ?_⟩
  have hrefill : ∃ f₁, (if f.cache.localSize ≤ f.cache.lowWatermark then refill b fuel f
      else some f) = some f₁ ∧ f₁.vars = refillNotes b batch g l f.vars := by
    rw [h.size, h.low]
    split
    · next hlow => exact refill_notes h hfuel hbound hlow
    · next hhigh => exact ⟨f, rfl, (if_neg fun hmore => hhigh hmore.1).symm⟩
  obtain ⟨f₁, hfirst, hvars⟩ := hrefill
  rw [alloc, hfirst, Option.map_some, Option.some.injEq] at halloc
  split at halloc
  · obtain ⟨hr, rfl⟩ := Prod.mk.inj halloc
    rw [← hr, allocNotes, if_pos rfl, hvars]
  · next hne =>
      obtain ⟨hr, rfl⟩ := Prod.mk.inj halloc
      rw [← hr, allocNotes, if_neg hne, ← hvars]

/-- A whole `dealloc`. -/
theorem dealloc_notes (h : Cached batch f.next f.head f.cache g l) {ptr : Nat}
    (hne : ptr ≠ 0) (hnew : ptr ∉ g ++ l) (hfuel : l.length + 1 < fuel)
    (hbound : l.length + 1 < 2 ^ 64) :
    ∃ f', (dealloc b fuel f ptr).2 = some f' ∧
      f'.vars = flushNotes b batch (ptr :: l)
        (debugOnDealloc b ptr (allocStatInc b .deallocs f.vars)).2 := by
  have hlinked := h.link hne hnew hbound
  have hsize : wrap (f.cache.localSize + 1) = (ptr :: l).length := hlinked.size
  simp only [hsize, h.high, h.batchSize] at hlinked
  simp only [dealloc, if_neg hne, hsize, h.high, h.batchSize, flushNotes, gt_iff_lt]
  by_cases hlarge : wrap (batch * 2) < (ptr :: l).length
  · simp only [hlarge, true_and]
    exact flush_notes (f := ⟨_, _, _, _⟩) hlinked (List.cons_ne_nil _ _) _ hfuel hbound
  · simp only [hlarge, false_and, if_false]
    exact ⟨_, rfl, rfl⟩

/-- The message is that of the check. -/
theorem dealloc_message {ptr : Nat} (hne : ptr ≠ 0) :
    (dealloc b fuel f ptr).1 =
      (debugOnDealloc b ptr (allocStatInc b .deallocs f.vars)).1 := by
  rw [dealloc, if_neg hne]

end Notes

/-! ## Threads -/

/-- The memory, and the variables of every thread. -/
structure Process (τ κ π : Type) where
  world : World κ π
  vars : τ → ThreadVars

section Threads

variable {τ κ π : Type} [DecidableEq τ] [DecidableEq κ] [DecidableEq π]

/-- What a call of thread `t` on the cache of key `k` finds. -/
def Process.load (p : Process τ κ π) (t : τ) (k : κ) (pool : π) (batch : Nat) :
    Frame π :=
  let c := getCache p.world k pool batch
  { next := p.world.next
    head := p.world.globals c.global
    cache := c
    vars := p.vars t }

/-- What it leaves. -/
def Process.store (p : Process τ κ π) (t : τ) (k : κ) (global : π) (f : Frame π) :
    Process τ κ π where
  world :=
    { p.world with
      next := f.next
      globals := Function.update p.world.globals global f.head
      caches := Function.update p.world.caches k (some f.cache) }
  vars := Function.update p.vars t f.vars

/-- `get_cache().alloc()`. -/
def allocFrom (b : Build) (p : Process τ κ π) (t : τ) (k : κ) (pool : π) (batch : Nat) :
    Option (Nat × Process τ κ π) :=
  let f := p.load t k pool batch
  (alloc b addresses f).map fun r => (r.1, p.store t k f.cache.global r.2)

/-- `get_cache().dealloc(ptr)`. -/
def deallocTo (b : Build) (p : Process τ κ π) (t : τ) (k : κ) (pool : π)
    (batch ptr : Nat) : Option Message × Option (Process τ κ π) :=
  let f := p.load t k pool batch
  let r := dealloc b addresses f ptr
  (r.1, r.2.map (p.store t k f.cache.global))

variable {b : Build} {p : Process τ κ π} {t : τ} {k : κ} {pool : π} {batch r : Nat}
variable {w' : World κ π} {g l : List Nat}

/-- A call that returns without the hooks returns with them, and they write only into
the variables of the calling thread. -/
theorem allocFrom_notes (hglobal : (getCache p.world k pool batch).global = pool)
    (h : Cached batch p.world.next (p.world.globals pool) (getCache p.world k pool batch)
      g l)
    (hfuel : g.length < addresses) (hbound : g.length + l.length < 2 ^ 64)
    (hrun : CacheWorld.allocFrom p.world k pool batch = some (r, w')) :
    allocFrom b p t k pool batch =
      some (r,
        { world := w'
          vars := Function.update p.vars t
            (allocNotes b r (refillNotes b batch g l (p.vars t))) }) := by
  have hcached : Cached batch (p.load t k pool batch).next (p.load t k pool batch).head
      (p.load t k pool batch).cache g l := by
    simp only [Process.load, hglobal]
    exact h
  obtain ⟨f', halloc, hvars⟩ := alloc_notes (b := b) hcached hfuel hbound
  have hplain : ThreadCache.alloc addresses p.world.next (p.world.globals pool)
      (getCache p.world k pool batch) =
        some ((refilled batch g l).2.headD 0, f'.plain) := by
    have herased : ThreadCache.alloc addresses (p.load t k pool batch).next
        (p.load t k pool batch).head (p.load t k pool batch).cache =
          some ((refilled batch g l).2.headD 0, f'.plain) := by
      rw [← alloc_plain (b := b), halloc, Option.map_some]
    simp only [Process.load, hglobal] at herased
    exact herased
  simp only [CacheWorld.allocFrom, hglobal, hplain, Option.map_some, Option.some.injEq,
    Prod.mk.injEq] at hrun
  obtain ⟨rfl, rfl⟩ := hrun
  simp only [allocFrom, halloc, Option.map_some, Process.store, hvars, Frame.plain]
  simp only [Process.load, hglobal]

/-- The message depends on nothing but the pointer and the thread's own set. -/
theorem deallocTo_message {ptr : Nat} (hne : ptr ≠ 0) :
    (deallocTo b p t k pool batch ptr).1 =
      (debugOnDealloc b ptr (allocStatInc b .deallocs (p.vars t))).1 :=
  dealloc_message hne

theorem deallocTo_notes (hglobal : (getCache p.world k pool batch).global = pool)
    (h : Cached batch p.world.next (p.world.globals pool) (getCache p.world k pool batch)
      g l) {ptr : Nat} (hne : ptr ≠ 0) (hnew : ptr ∉ g ++ l)
    (hbound : l.length + 1 < 2 ^ 64)
    (hrun : CacheWorld.deallocTo p.world k pool batch ptr = some w') :
    deallocTo b p t k pool batch ptr =
      ((debugOnDealloc b ptr (allocStatInc b .deallocs (p.vars t))).1,
        some
          { world := w'
            vars := Function.update p.vars t (flushNotes b batch (ptr :: l)
              (debugOnDealloc b ptr (allocStatInc b .deallocs (p.vars t))).2) }) := by
  have hcached : Cached batch (p.load t k pool batch).next (p.load t k pool batch).head
      (p.load t k pool batch).cache g l := by
    simp only [Process.load, hglobal]
    exact h
  obtain ⟨f', hdealloc, hvars⟩ := dealloc_notes (b := b) hcached hne hnew
    (show l.length + 1 < addresses from hbound) hbound
  have hplain : ThreadCache.dealloc addresses p.world.next (p.world.globals pool)
      (getCache p.world k pool batch) ptr = some f'.plain := by
    have herased : ThreadCache.dealloc addresses (p.load t k pool batch).next
        (p.load t k pool batch).head (p.load t k pool batch).cache ptr =
          some f'.plain := by
      rw [← dealloc_plain (b := b), hdealloc, Option.map_some]
    simp only [Process.load, hglobal] at herased
    exact herased
  simp only [CacheWorld.deallocTo, hglobal, hplain, Option.map_some,
    Option.some.injEq] at hrun
  subst hrun
  refine Prod.ext (deallocTo_message hne) ?_
  simp only [deallocTo, hdealloc, Option.map_some, Process.store, hvars, Frame.plain]
  simp only [Process.load, hglobal]

/-- `dealloc(nullptr)` runs no hook. -/
theorem deallocTo_null (hrun : CacheWorld.deallocTo p.world k pool batch 0 = some w') :
    deallocTo b p t k pool batch 0 = (none, some { world := w', vars := p.vars }) := by
  simp only [CacheWorld.deallocTo, ThreadCache.dealloc, if_true, Option.map_some,
    Option.some.injEq] at hrun
  subst hrun
  simp only [deallocTo, dealloc, if_true, Option.map_some, Process.store, Process.load,
    Function.update_eq_self]

end Threads

end PoolMemalloc.Ports.InstrumentedCache
