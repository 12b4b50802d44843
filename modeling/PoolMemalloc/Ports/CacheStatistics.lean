import Mathlib.Algebra.BigOperators.Ring.Finset
import PoolMemalloc.Ports.InstrumentedCache
import PoolMemalloc.Ports.TlFreelistCalls

/-!
# What the counters say about the blocks

With `ALLOC_INSTRUMENTATION` the counters of a thread tell how many nodes its cache has,
and those of all threads together how many blocks are live and how many are on the
global list: `stats_account`.

A call is a few moves of nodes between the users, the calling thread's cache and the
global list.  `Moves` is the equations between what a move adds to the counters and what
it does to the three; they compose, so each is proved for the single moves only.
-/

namespace PoolMemalloc.Ports.CacheStatistics

open PoolMemalloc.Verified.SizeT
open PoolMemalloc.Verified.Transition
open PoolMemalloc.Ports.BlockArray (alignedAlloc_fixed)
open PoolMemalloc.Ports.FreelistAllocator (Heap)
open PoolMemalloc.Ports.ThreadCache (refilled flushed)
open PoolMemalloc.Ports.TlFreelistAllocator
open PoolMemalloc.Ports.CacheWorld (World getCache granted onList userWrite lt_addresses)
open PoolMemalloc.Ports.TlFreelistCalls (Event available)
open PoolMemalloc.Ports.Instrumentation
open PoolMemalloc.Ports.InstrumentedCache

/-! ## What is added to the counters -/

/-- `d` is what has been added to the counters, if none of them has wrapped. -/
def Adds (d : AllocStats) (v v' : ThreadVars) : Prop :=
  v'.overflowed = false → v.overflowed = false ∧ v'.stats = v.stats + d

section Adds

variable {b : Build} {d d' : AllocStats} {v v' v'' : ThreadVars}

theorem Adds.none (h : v'.stats = v.stats) (hoverflowed : v'.overflowed = v.overflowed) :
    Adds 0 v v' := fun hcount => ⟨hoverflowed ▸ hcount, h.trans (add_zero _).symm⟩

theorem Adds.trans (h : Adds d v v') (h' : Adds d' v' v'') : Adds (d + d') v v'' := by
  intro hcount
  obtain ⟨hcount, hlater⟩ := h' hcount
  obtain ⟨hcount, hfirst⟩ := h hcount
  exact ⟨hcount, by rw [hlater, hfirst, add_assoc]⟩

/-- Through a hook that leaves the counters alone. -/
theorem Adds.through (h : Adds d v v') (hstats : v''.stats = v'.stats)
    (hoverflowed : v''.overflowed = v'.overflowed) : Adds d v v'' := by
  intro hcount
  rw [hoverflowed] at hcount
  rw [hstats]
  exact h hcount

theorem allocStatAdd_adds (hb : b.instrumentation = true) (field : Counter) (n : Nat) :
    Adds (Pi.single field n) v (allocStatAdd b field n v) := by
  intro hcount
  obtain ⟨hbefore, hstats⟩ := allocStatAdd_exact hb hcount
  refine ⟨hbefore, hstats.trans (funext fun c => ?_)⟩
  by_cases hc : c = field
  · subst hc
    rw [Function.update_self, Pi.add_apply, Pi.single_eq_same]
  · rw [Function.update_of_ne hc, Pi.add_apply, Pi.single_eq_of_ne hc, add_zero]

end Adds

/-! ## Moves of nodes -/

/-- How many nodes the caller's cache, the global list and the users have. -/
structure Holdings where
  cache : Nat
  list : Nat
  users : Nat

/-- The counters and the holdings change together. -/
structure Moves (batch : Nat) (d : AllocStats) (h h' : Holdings) : Prop where
  cache : h'.cache + d .allocs + d .flushBlocks = h.cache + d .deallocs + d .refillBlocks
  list : h'.list + d .refillBlocks = h.list + d .flushBlocks
  users : h'.users + d .deallocs = h.users + d .allocs
  refills : d .refills ≤ d .refillBlocks ∧
    d .refillBlocks ≤ d .refills * max batch 1
  flushes : d .flushBlocks = d .flushes * (batch + 1)

section Moves

variable {batch users : Nat} {d d' : AllocStats} {h h' h'' : Holdings} {g l : List Nat}

theorem Moves.none : Moves batch 0 h h where
  cache := rfl
  list := rfl
  users := rfl
  refills := ⟨Nat.le_refl _, Nat.zero_le _⟩
  flushes := (Nat.zero_mul _).symm

theorem Moves.trans (hm : Moves batch d h h') (hm' : Moves batch d' h' h'') :
    Moves batch (d + d') h h'' where
  cache := by
    have hfirst := hm.cache
    have hsecond := hm'.cache
    simp only [Pi.add_apply]
    omega
  list := by
    have hfirst := hm.list
    have hsecond := hm'.list
    simp only [Pi.add_apply]
    omega
  users := by
    have hfirst := hm.users
    have hsecond := hm'.users
    simp only [Pi.add_apply]
    omega
  refills := by
    simp only [Pi.add_apply, Nat.add_mul]
    exact ⟨Nat.add_le_add hm.refills.1 hm'.refills.1,
      Nat.add_le_add hm.refills.2 hm'.refills.2⟩
  flushes := by
    simp only [Pi.add_apply, Nat.add_mul, hm.flushes, hm'.flushes]

/-- A move of `n` nodes from the global list to the cache. -/
theorem moves_refill {cache list n : Nat} (hpos : 0 < n) (hmax : n ≤ max batch 1)
    (hlist : n ≤ list) :
    Moves batch (Pi.single .refills 1 + Pi.single .refillBlocks n) ⟨cache, list, users⟩
      ⟨cache + n, list - n, users⟩ where
  cache := by simp
  list := by
    simp only [Pi.add_apply, Pi.single_apply, reduceCtorEq, if_true, if_false]
    omega
  users := by simp
  refills := by
    simp only [Pi.add_apply, Pi.single_apply, reduceCtorEq, if_true, if_false]
    omega
  flushes := by simp

/-- A move of `batch + 1` nodes from the cache to the global list. -/
theorem moves_flush {cache list : Nat} (hcache : batch + 1 ≤ cache) :
    Moves batch (Pi.single .flushes 1 + Pi.single .flushBlocks (batch + 1))
      ⟨cache, list, users⟩ ⟨cache - (batch + 1), list + (batch + 1), users⟩ where
  cache := by
    simp only [Pi.add_apply, Pi.single_apply, reduceCtorEq, if_true, if_false]
    omega
  list := by simp
  users := by simp
  refills := by simp
  flushes := by simp

/-- A node goes to a user. -/
theorem moves_take {cache list : Nat} (hcache : 0 < cache) :
    Moves batch (Pi.single .allocs 1) ⟨cache, list, users⟩
      ⟨cache - 1, list, users + 1⟩ where
  cache := by
    simp only [Pi.single_apply, reduceCtorEq, if_true, if_false]
    omega
  list := by simp
  users := by simp
  refills := by simp
  flushes := by simp

/-- A user gives a node back. -/
theorem moves_put {cache list : Nat} (husers : 0 < users) :
    Moves batch (Pi.single .deallocs 1) ⟨cache, list, users⟩
      ⟨cache + 1, list, users - 1⟩ where
  cache := by simp
  list := by simp
  users := by
    simp only [Pi.single_apply, reduceCtorEq, if_true, if_false]
    omega
  refills := by simp
  flushes := by simp

end Moves

/-! ## Calls -/

/-- The thread's variables go from `v` to `v'` as the holdings go from `h` to `h'`. -/
def Tallies (batch : Nat) (v v' : ThreadVars) (h h' : Holdings) : Prop :=
  ∃ d, Adds d v v' ∧ Moves batch d h h'

section Calls

variable {b : Build} {batch list users ptr : Nat} {g l live : List Nat}
variable {v v' v'' : ThreadVars} {h h' h'' : Holdings}

theorem Tallies.trans (ht : Tallies batch v v' h h') (ht' : Tallies batch v' v'' h' h'') :
    Tallies batch v v'' h h'' := by
  obtain ⟨d, hadds, hmoves⟩ := ht
  obtain ⟨d', hadds', hmoves'⟩ := ht'
  exact ⟨d + d', hadds.trans hadds', hmoves.trans hmoves'⟩

theorem Tallies.refl : Tallies batch v v h h :=
  ⟨0, .none rfl rfl, .none⟩

theorem tallies_refill (hb : b.instrumentation = true) :
    Tallies batch v (refillNotes b batch g l v) ⟨l.length, g.length, users⟩
      ⟨(refilled batch g l).2.length, (refilled batch g l).1.length, users⟩ := by
  unfold refillNotes refilled
  by_cases hlow : l.length ≤ batch / 2
  · by_cases hg : g = []
    · -- `pop_bulk` returns null
      subst hg
      rw [if_neg fun hmore => hmore.2 rfl, if_pos hlow, List.take_nil, List.drop_nil]
      exact Tallies.refl
    · have hpos := List.length_pos_iff.mpr hg
      have hlen := List.length_take (i := max batch 1) (l := g)
      have hdrop : (g.drop (max batch 1)).length =
          g.length - (g.take (max batch 1)).length := by
        rw [List.length_drop, hlen]
        omega
      rw [if_pos ⟨hlow, hg⟩, if_pos hlow, List.length_append, hdrop,
        Nat.add_comm _ l.length]
      exact ⟨_, (allocStatAdd_adds hb .refills 1).trans (allocStatAdd_adds hb _ _),
        moves_refill (by omega) (by omega) (by omega)⟩
  · rw [if_neg fun hmore => hlow hmore.1, if_neg hlow]
    exact Tallies.refl

/-- The early return for an empty chain has no counter. -/
theorem tallies_take (hb : b.instrumentation = true) (hnull : l.headD 0 = 0 ↔ l = []) :
    Tallies batch v (allocNotes b (l.headD 0) v) ⟨l.length, list, live.length⟩
      ⟨l.tail.length, list, (granted (l.headD 0) live).length⟩ := by
  unfold allocNotes granted
  by_cases hl : l = []
  · rw [if_pos (hnull.mpr hl), if_pos (hnull.mpr hl), hl]
    exact Tallies.refl
  · rw [if_neg (mt hnull.mp hl), if_neg (mt hnull.mp hl), List.length_tail,
      List.length_cons]
    exact ⟨_, (allocStatAdd_adds hb .allocs 1).through debugOnAlloc_stats
      debugOnAlloc_overflowed, moves_take (List.length_pos_iff.mpr hl)⟩

theorem tallies_put (hb : b.instrumentation = true) (hlive : ptr ∈ live) :
    Tallies batch v (debugOnDealloc b ptr (allocStatInc b .deallocs v)).2
      ⟨l.length, list, live.length⟩ ⟨(ptr :: l).length, list, (live.erase ptr).length⟩ := by
  rw [List.length_cons, List.length_erase_of_mem hlive]
  exact ⟨_, (allocStatAdd_adds hb .deallocs 1).through debugOnDealloc_stats
    debugOnDealloc_overflowed, moves_put (List.length_pos_of_mem hlive)⟩

/-- A chain is at most one longer than the high watermark when it is flushed. -/
theorem tallies_flush (hb : b.instrumentation = true) (hbatch : batch * 2 < 2 ^ 64)
    (hshort : l.length ≤ 2 * batch + 1) (hbound : l.length < 2 ^ 64) :
    Tallies batch v (flushNotes b batch l v) ⟨l.length, g.length, users⟩
      ⟨(flushed batch g l).2.length, (flushed batch g l).1.length, users⟩ := by
  unfold flushNotes flushed
  rw [wrap_of_lt hbatch]
  by_cases hlarge : batch * 2 < l.length
  · have hexcess : wrapSub l.length batch = batch + 1 := by
      rw [wrapSub_of_le hbound (by omega)]
      omega
    have htake : (l.take (batch + 1)).length = batch + 1 := by
      rw [List.length_take]
      omega
    rw [if_pos ⟨hlarge, by omega⟩, if_pos hlarge, hexcess, htake, List.length_append,
      List.length_reverse, List.length_drop, htake, Nat.add_comm _ g.length]
    exact ⟨_, (allocStatAdd_adds hb .flushes 1).trans (allocStatAdd_adds hb _ _),
      moves_flush (by omega)⟩
  · rw [if_neg fun hmore => hlarge hmore.1, if_neg hlarge]
    exact Tallies.refl

end Calls

/-! ## All threads -/

section Threads

variable {κ : Type} [DecidableEq κ] {users : Finset κ} {k : κ}

/-- What one of the threads adds, the sum has more. -/
private theorem sum_insert_update (f : κ → Nat) (n : Nat) (hidle : k ∉ users → f k = 0) :
    ∑ j ∈ insert k users, Function.update f k (f k + n) j = ∑ j ∈ users, f j + n := by
  by_cases hk : k ∈ users
  · rw [Finset.insert_eq_of_mem hk, Finset.sum_update_of_mem hk, ← Finset.erase_eq,
      ← Finset.add_sum_erase users f hk]
    omega
  · rw [Finset.sum_insert hk, Function.update_self, hidle hk,
      Finset.sum_update_of_notMem hk]
    omega

/-- The counters of the threads when their caches have `held` nodes, the global list
has `list` of all `blocks`, and `live` are with the users. -/
structure Counted (batch blocks : Nat) (users : Finset κ) (stats : κ → AllocStats)
    (held : κ → Nat) (list live : Nat) : Prop where
  caches : ∀ k, held k + stats k .allocs + stats k .flushBlocks =
    stats k .deallocs + stats k .refillBlocks
  refills : ∀ k, stats k .refills ≤ stats k .refillBlocks ∧
    stats k .refillBlocks ≤ stats k .refills * max batch 1
  flushes : ∀ k, stats k .flushBlocks = stats k .flushes * (batch + 1)
  idle : ∀ k, k ∉ users → stats k = 0
  live : live + ∑ k ∈ users, stats k .deallocs = ∑ k ∈ users, stats k .allocs
  list : list + ∑ k ∈ users, stats k .refillBlocks =
    blocks + ∑ k ∈ users, stats k .flushBlocks

variable {batch blocks list list' live live' n : Nat} {stats : κ → AllocStats}
variable {held : κ → Nat} {d : AllocStats}

/-- One thread's move keeps the account of all. -/
theorem Counted.moves (h : Counted batch blocks users stats held list live)
    (hm : Moves batch d ⟨held k, list, live⟩ ⟨n, list', live'⟩) :
    Counted batch blocks (insert k users) (Function.update stats k (stats k + d))
      (Function.update held k n) list' live' := by
  have hidle : ∀ c, k ∉ users → stats k c = 0 := fun c hk => congrFun (h.idle k hk) c
  have hsum : ∀ c, ∑ j ∈ insert k users, Function.update stats k (stats k + d) j c =
      ∑ j ∈ users, stats j c + d c := by
    intro c
    rw [← sum_insert_update (fun j => stats j c) (d c) (hidle c)]
    refine Finset.sum_congr rfl fun j _ => ?_
    exact Function.apply_update (fun _ s => s c) stats k (stats k + d) j
  refine ⟨fun j => ?_, fun j => ?_, fun j => ?_, fun j hj => ?_, ?_, ?_⟩
  · by_cases hj : j = k
    · subst hj
      have hbefore := h.caches j
      have hmove : n + d .allocs + d .flushBlocks =
          held j + d .deallocs + d .refillBlocks := hm.cache
      simp only [Function.update_self, Pi.add_apply]
      omega
    · rw [Function.update_of_ne hj, Function.update_of_ne hj]
      exact h.caches j
  · by_cases hj : j = k
    · subst hj
      simp only [Function.update_self, Pi.add_apply, Nat.add_mul]
      exact ⟨Nat.add_le_add (h.refills j).1 hm.refills.1,
        Nat.add_le_add (h.refills j).2 hm.refills.2⟩
    · rw [Function.update_of_ne hj]
      exact h.refills j
  · by_cases hj : j = k
    · subst hj
      simp only [Function.update_self, Pi.add_apply, Nat.add_mul, h.flushes j, hm.flushes]
    · rw [Function.update_of_ne hj]
      exact h.flushes j
  · rw [Finset.mem_insert, not_or] at hj
    rw [Function.update_of_ne hj.1]
    exact h.idle j hj.2
  · have hbefore := h.live
    have hmove : live' + d .deallocs = live + d .allocs := hm.users
    rw [hsum, hsum]
    omega
  · have hbefore := h.list
    have hmove : list' + d .refillBlocks = list + d .flushBlocks := hm.list
    rw [hsum, hsum]
    omega

end Threads

/-! ## Runs -/

/-- `live` is what `alloc` has returned and nobody has freed, `users` the threads that
have called the allocator so far.  The counters of a thread that has exited keep their
last values. -/
structure State (κ : Type) where
  process : Process κ κ Unit
  live : List Nat
  users : List κ

/-- Without the counters. -/
def State.plain {κ : Type} (s : State κ) : TlFreelistCalls.State κ where
  world := s.process.world
  live := s.live
  users := s.users

def start {κ : Type} (a : Allocator) (next : Heap) : State κ where
  process :=
    { world := (TlFreelistCalls.start a next).world
      vars := fun _ => .initial }
  live := []
  users := []

section Runs

variable {κ : Type} [DecidableEq κ]

/-- The steps are those of `TlFreelistCalls.exec`. -/
def exec (b : Build) (batch : Nat) : State κ → Event κ → Option (State κ)
  | s, .alloc k =>
      if s.process.world.exited k = none then
        (allocFrom b s.process k k () batch).map fun r =>
          { process := r.2, live := granted r.1 s.live, users := s.users.insert k }
      else none
  | s, .dealloc k ptr =>
      if s.process.world.exited k = none ∧ (ptr = 0 ∨ ptr ∈ s.live) then
        (deallocTo b s.process k k () batch ptr).2.map fun p =>
          { process := p, live := s.live.erase ptr, users := s.users.insert k }
      else none
  | s, .write ptr v =>
      if ptr ∈ s.live then
        some { s with process := { s.process with world := userWrite s.process.world ptr v } }
      else none
  | s, .exit k =>
      if s.process.world.exited k = none then
        some { s with process :=
          { s.process with world := CacheWorld.exit s.process.world (fun j => j = k) } }
      else none

def runs (b : Build) (a : Allocator) (next : Heap) : System (State κ) (Event κ) :=
  ofExec (fun s => s = start a next) (exec b a.batchSize)

/-- What the counters say between calls. -/
structure Accounted (a : Allocator) (s : State κ) : Prop where
  caches : ∀ k, s.process.world.exited k = none →
    (getCache s.process.world k () a.batchSize).localSize +
        (s.process.vars k).stats .allocs + (s.process.vars k).stats .flushBlocks =
      (s.process.vars k).stats .deallocs + (s.process.vars k).stats .refillBlocks
  refills : ∀ k,
    (s.process.vars k).stats .refills ≤ (s.process.vars k).stats .refillBlocks ∧
      (s.process.vars k).stats .refillBlocks ≤
        (s.process.vars k).stats .refills * max a.batchSize 1
  flushes : ∀ k, (s.process.vars k).stats .flushBlocks =
    (s.process.vars k).stats .flushes * (a.batchSize + 1)
  /-- A thread that has not called adds nothing to the sums. -/
  idle : ∀ k, k ∉ s.users → (s.process.vars k).stats = 0
  live : ∑ k ∈ s.users.toFinset, (((s.process.vars k).stats .allocs : Int) -
    (s.process.vars k).stats .deallocs) = s.live.length
  list : (a.blockCount : Int) - ∑ k ∈ s.users.toFinset,
      (((s.process.vars k).stats .refillBlocks : Int) -
        (s.process.vars k).stats .flushBlocks) =
    (onList s.process.world ()).length

/-- The account in terms of the nodes, as long as no counter has wrapped. -/
structure Inv (a : Allocator) (s : State κ) (g : Unit → List Nat) (l : κ → List Nat) :
    Prop where
  memory : TlFreelistCalls.Inv a s.plain g l
  counted : (∀ k, (s.process.vars k).overflowed = false) →
    Counted a.batchSize a.blockCount s.users.toFinset (fun k => (s.process.vars k).stats)
      (fun k => (l k).length) (g ()).length s.live.length

variable {b : Build} {a : Allocator} {next : Heap} {s s' : State κ}
variable {g : Unit → List Nat} {l : κ → List Nat} {k : κ} {ptr : Nat}
variable {blockSz numBlocks batch : Nat}

theorem start_inv (ha : Constructed blockSz numBlocks batch a next) :
    ∃ g l, Inv a (start a next : State κ) g l := by
  have howned := TlFreelistCalls.constructed_inv (p := ())
    (w := (start a next : State κ).process.world) ha rfl rfl (fun _ _ hc => nomatch hc)
    (fun _ _ hk => nomatch hk)
  refine ⟨_, _, ⟨howned, fun _ _ => Nat.zero_le _, fun _ _ => rfl, List.nodup_nil⟩,
    fun _ => ?_⟩
  exact
    { caches := fun _ => rfl
      refills := fun _ => ⟨Nat.le_refl _, Nat.zero_le _⟩
      flushes := fun _ => (Nat.zero_mul _).symm
      idle := fun _ _ => rfl
      live := by rfl
      list := by
        rw [if_pos rfl, List.length_reverse, length_blocksOf]
        rfl }

theorem Inv.notMem_zero (h : Inv a s g l) : 0 ∉ s.live :=
  h.memory.notMem_zero

/-- A call that changes the variables of thread `k` in step with the lists. -/
private theorem Inv.called (h : Inv a s g l) {w : World κ Unit} {v : ThreadVars}
    {live gs ls : List Nat}
    (hmemory : TlFreelistCalls.Inv a
      { world := w, live := live, users := s.users.insert k }
      (Function.update g () gs) (Function.update l k ls))
    (htallies : Tallies a.batchSize (s.process.vars k) v
      ⟨(l k).length, (g ()).length, s.live.length⟩ ⟨ls.length, gs.length, live.length⟩) :
    Inv a
      { process := { world := w, vars := Function.update s.process.vars k v }
        live := live
        users := s.users.insert k }
      (Function.update g () gs) (Function.update l k ls) := by
  refine ⟨hmemory, fun hcount => ?_⟩
  replace hcount : ∀ j, (Function.update s.process.vars k v j).overflowed = false := hcount
  obtain ⟨d, hadds, hmoves⟩ := htallies
  have hcaller := hcount k
  rw [Function.update_self] at hcaller
  obtain ⟨hbefore, hstats⟩ := hadds hcaller
  have hcounts : ∀ j, (s.process.vars j).overflowed = false := by
    intro j
    by_cases hj : j = k
    · exact hj ▸ hbefore
    · have hother := hcount j
      rwa [Function.update_of_ne hj] at hother
  have hafter := (h.counted hcounts).moves hmoves
  have husers : (s.users.insert k).toFinset = insert k s.users.toFinset := by
    ext j
    simp
  have hvars : (fun j => (Function.update s.process.vars k v j).stats) =
      Function.update (fun j => (s.process.vars j).stats) k
        ((s.process.vars k).stats + d) := by
    funext j
    rw [← hstats]
    exact Function.apply_update (fun _ v => v.stats) s.process.vars k v j
  have hheld : (fun j => (Function.update l k ls j).length) =
      Function.update (fun j => (l j).length) k ls.length :=
    funext fun j => Function.apply_update (fun _ m => m.length) l k ls j
  rw [husers, hvars, hheld, Function.update_self]
  exact hafter

/-- `alloc` returns, and keeps the account. -/
theorem Inv.alloc (hb : b.instrumentation = true) (h : Inv a s g l)
    (hk : s.process.world.exited k = none) :
    ∃ r p', allocFrom b s.process k k () a.batchSize = some (r, p') ∧
      ∃ g' l', Inv a
        { process := p', live := granted r s.live, users := s.users.insert k } g' l' := by
  obtain ⟨w', hrun, hafter, -⟩ := h.memory.alloc hk
  obtain ⟨hglobal, hcached⟩ := h.memory.owned.cached (p := ()) rfl (available hk)
  have hbound : (g ()).length + (l k).length < 2 ^ 64 :=
    h.memory.owned.length_lt (i := .global ()) (j := .cache k) (by simp)
  have hnull := (h.memory.owned.headD_eq_zero_iff (p := ()) (k := k)).trans
    (ThreadCache.refilled_eq_nil a.batchSize).symm
  refine ⟨_, _, allocFrom_notes hglobal hcached (lt_addresses hbound) hbound
    hrun, _, _,
    h.called hafter ((tallies_refill hb).trans (tallies_take hb hnull))⟩

/-- So does `dealloc` of a live block. -/
theorem Inv.dealloc (hb : b.instrumentation = true) (hbatch : a.batchSize * 2 < 2 ^ 64)
    (h : Inv a s g l) (hk : s.process.world.exited k = none) (hlive : ptr ∈ s.live) :
    ∃ p', (deallocTo b s.process k k () a.batchSize ptr).2 = some p' ∧
      ∃ g' l', Inv a
        { process := p', live := s.live.erase ptr, users := s.users.insert k } g' l' := by
  obtain ⟨w', hrun, hafter⟩ := h.memory.dealloc hk hlive
  obtain ⟨hglobal, hcached⟩ := h.memory.owned.cached (p := ()) rfl (available hk)
  have hne : ptr ≠ 0 := fun hnull => h.notMem_zero (hnull ▸ hlive)
  have hnew := CacheWorld.notMem_of_live h.memory.owned.ledger hlive () k
  have hbound := CacheWorld.length_succ_lt_of_live h.memory.owned.ledger
    h.memory.owned.address hlive k
  have hshort : (ptr :: l k).length ≤ 2 * a.batchSize + 1 :=
    Nat.succ_le_succ (h.memory.short hbatch k)
  have hnotes := deallocTo_notes (b := b) (t := k) hglobal hcached hne hnew hbound hrun
  exact ⟨_, congrArg Prod.snd hnotes, _, _,
    h.called hafter ((tallies_put hb hlive).trans
      (tallies_flush hb hbatch hshort hbound))⟩

/-- And `dealloc(nullptr)`. -/
theorem Inv.dealloc_null (h : Inv a s g l) (hk : s.process.world.exited k = none) :
    ∃ p', (deallocTo b s.process k k () a.batchSize 0).2 = some p' ∧
      Inv a { process := p', live := s.live, users := s.users.insert k } g l := by
  obtain ⟨w', hrun, hafter⟩ := h.memory.dealloc_null hk
  have hsame : TlFreelistCalls.Inv a
      { world := w', live := s.live, users := s.users.insert k }
      (Function.update g () (g ())) (Function.update l k (l k)) := by
    rwa [Function.update_eq_self, Function.update_eq_self]
  have hcalled := h.called hsame (Tallies.refl)
  rw [Function.update_eq_self, Function.update_eq_self, Function.update_eq_self] at hcalled
  exact ⟨_, congrArg Prod.snd (deallocTo_null hrun), hcalled⟩

theorem Inv.step (hb : b.instrumentation = true) (hbatch : a.batchSize * 2 < 2 ^ 64)
    (h : Inv a s g l) {e : Event κ} (hstep : exec b a.batchSize s e = some s') :
    ∃ g' l', Inv a s' g' l' := by
  cases e with
  | alloc k =>
      simp only [exec] at hstep
      split at hstep
      · next hk =>
          obtain ⟨r, p', hrun, hafter⟩ := h.alloc hb hk
          rw [hrun, Option.map_some, Option.some.injEq] at hstep
          exact hstep ▸ hafter
      · cases hstep
  | dealloc k ptr =>
      simp only [exec] at hstep
      split at hstep
      · next hk =>
          obtain ⟨hk, hptr⟩ := hk
          rcases hptr with rfl | hlive
          · obtain ⟨p', hrun, hafter⟩ := h.dealloc_null (b := b) hk
            rw [hrun, Option.map_some, Option.some.injEq,
              List.erase_of_not_mem h.notMem_zero] at hstep
            exact hstep ▸ ⟨_, _, hafter⟩
          · obtain ⟨p', hrun, hafter⟩ := h.dealloc hb hbatch hk hlive
            rw [hrun, Option.map_some, Option.some.injEq] at hstep
            exact hstep ▸ hafter
      · cases hstep
  | write ptr v =>
      simp only [exec] at hstep
      split at hstep
      · next hlive =>
          cases hstep
          exact ⟨g, l, ⟨h.memory.owned.userWrite v fun _ => hlive, h.memory.short,
            h.memory.idle, h.memory.nodup⟩, h.counted⟩
      · cases hstep
  | exit k =>
      simp only [exec] at hstep
      split at hstep
      · cases hstep
        exact ⟨g, l, ⟨h.memory.owned.exit _, h.memory.short, h.memory.idle,
          h.memory.nodup⟩, h.counted⟩
      · cases hstep

theorem inv_of_reachable (ha : Constructed blockSz numBlocks batch a next)
    (hbatch : batch * 2 < 2 ^ 64) (hb : b.instrumentation = true)
    (h : Reachable (runs b a next) s) : ∃ g l, Inv a s g l := by
  obtain ⟨-, -, hsize, -⟩ := ha.fields
  rw [← hsize] at hbatch
  refine h.invariant (P := fun s => ∃ g l, Inv a s g l) ?_ ?_
  · rintro _ rfl
    exact start_inv ha
  · rintro s e s' - ⟨g, l, hinv⟩ hstep
    exact hinv.step hb hbatch hstep

/-- Every call that is made returns. -/
theorem returns (ha : Constructed blockSz numBlocks batch a next)
    (hbatch : batch * 2 < 2 ^ 64) (hb : b.instrumentation = true)
    (h : Reachable (runs b a next) s) (hk : s.process.world.exited k = none) :
    (exec b a.batchSize s (.alloc k)).isSome ∧
      ∀ ptr, ptr = 0 ∨ ptr ∈ s.live →
        (exec b a.batchSize s (.dealloc k ptr)).isSome := by
  obtain ⟨g, l, hinv⟩ := inv_of_reachable ha hbatch hb h
  obtain ⟨-, -, hsize, -⟩ := ha.fields
  rw [← hsize] at hbatch
  constructor
  · obtain ⟨r, p', hrun, -⟩ := hinv.alloc hb hk
    rw [exec, if_pos hk, hrun, Option.map_some, Option.isSome_some]
  · intro ptr hptr
    rw [exec, if_pos ⟨hk, hptr⟩]
    rcases hptr with rfl | hlive
    · obtain ⟨p', hrun, -⟩ := hinv.dealloc_null (b := b) hk
      rw [hrun, Option.map_some, Option.isSome_some]
    · obtain ⟨p', hrun, -⟩ := hinv.dealloc hb hbatch hk hlive
      rw [hrun, Option.map_some, Option.isSome_some]

end Runs

/-- The counters account for every block, whatever the threads have done, as long as no
counter has wrapped. -/
theorem stats_account {κ : Type} [DecidableEq κ] (blockSz numBlocks batch : Nat)
    (a : Allocator) (next : Heap) (ha : Constructed blockSz numBlocks batch a next)
    (hbatch : batch * 2 < 2 ^ 64) (b : Build) (hb : b.instrumentation = true)
    (s : State κ) (h : Reachable (runs b a next) s)
    (hcount : ∀ k, (s.process.vars k).overflowed = false) : Accounted a s := by
  obtain ⟨g, l, hinv⟩ := inv_of_reachable ha hbatch hb h
  have hcounted := hinv.counted hcount
  exact
    { caches := fun k hk => by
        obtain ⟨-, hcached⟩ := hinv.memory.owned.cached (p := ()) rfl (available hk)
        have hsize : (getCache s.process.world k () a.batchSize).localSize =
            (l k).length := hcached.size
        rw [hsize]
        exact hcounted.caches k
      refills := hcounted.refills
      flushes := hcounted.flushes
      idle := fun k hk => hcounted.idle k (mt List.mem_toFinset.mp hk)
      live := by
        have hsum := hcounted.live
        rw [Finset.sum_sub_distrib, ← Nat.cast_sum, ← Nat.cast_sum]
        omega
      list := by
        have hsum := hcounted.list
        have honlist : onList s.process.world () = g () :=
          hinv.memory.owned.onList_eq rfl
        rw [honlist, Finset.sum_sub_distrib, ← Nat.cast_sum, ← Nat.cast_sum]
        omega }

/-- Three blocks in batches of 1. -/
def tlSingles3 : Allocator := { tlPool3 with batchSize := 1 }

theorem tlSingles3_constructed : Constructed 48 3 1 tlSingles3 tlHeap3 where
  sizes := tlPool3_constructed.sizes
  made := ⟨_, fun _ => 0, @alignedAlloc_fixed 4096 192 (by decide) (by decide), rfl⟩

/-- One thread allocates all blocks and fails once, another one frees them and flushes. -/
theorem stats_account_tlSingles3 : ∃ s,
    replay (exec ⟨true, false⟩ 1) (start tlSingles3 tlHeap3 : State Bool)
      [.alloc true, .alloc true, .alloc true, .alloc true, .dealloc false 4224,
        .dealloc false 0, .dealloc false 4160, .dealloc false 4096] = some s ∧
    Accounted tlSingles3 s := by
  have hrun : (replay (exec ⟨true, false⟩ 1) (start tlSingles3 tlHeap3 : State Bool)
      [.alloc true, .alloc true, .alloc true, .alloc true, .dealloc false 4224,
        .dealloc false 0, .dealloc false 4160, .dealloc false 4096]).any (fun s =>
        !(s.process.vars true).overflowed && !(s.process.vars false).overflowed) := by
    decide +kernel
  obtain ⟨s, hs, hcheck⟩ := (Option.any_eq_true _ _).mp hrun
  rw [Bool.and_eq_true, Bool.not_eq_true', Bool.not_eq_true'] at hcheck
  refine ⟨s, hs, stats_account 48 3 1 tlSingles3 tlHeap3 tlSingles3_constructed
    (by decide) ⟨true, false⟩ rfl s (Reachable.replay _ (.init rfl) hs) fun k => ?_⟩
  cases k with
  | false => exact hcheck.2
  | true => exact hcheck.1

end PoolMemalloc.Ports.CacheStatistics
