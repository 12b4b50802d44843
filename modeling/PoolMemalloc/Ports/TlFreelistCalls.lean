import PoolMemalloc.Ports.CacheWorld
import PoolMemalloc.Ports.TlFreelistAllocator
import PoolMemalloc.Verified.Transition

/-!
# Whole calls on one `ThreadLocalFreelistAllocator`

Threads call `alloc` and `dealloc` one whole call at a time, write into live blocks
and exit.  `Inv` is kept by every step; `refilled_length` and `flushed_length` are why a
cache never holds more than twice the batch between calls.
-/

namespace PoolMemalloc.Ports.TlFreelistCalls

open PoolMemalloc.Verified.SizeT
open PoolMemalloc.Verified.Transition
open PoolMemalloc.Verified.LinkedChain
open PoolMemalloc.Verified.Conservation
open PoolMemalloc.Ports.BlockArray
open PoolMemalloc.Ports.FreelistAllocator
open PoolMemalloc.Ports.ThreadCache (refilled flushed)
open PoolMemalloc.Ports.TlFreelistAllocator
open PoolMemalloc.Ports.CacheWorld

/-! ## The pool of an allocator -/

/-- The one pool of `a`, known as `p`. -/
def poolOf {π : Type} (p : π) (a : Allocator) : Instance π where
  pool q := q = p
  block b := b ∈ blocksOf a.blockSize a.region a.blockCount
  batch := a.batchSize

section Pool

variable {κ π : Type} {p : π} {w : World κ π} {blockSz numBlocks batch : Nat}
variable {a : Allocator} {next : Heap}

theorem poolOf_block (ha : Placed a.blockSize a.region a.blockCount) {b : Nat} :
    (poolOf p a).block b ↔ ∃ i, i < a.blockCount ∧ b = a.region + i * a.blockSize := by
  refine mem_blocksOf.trans ⟨?_, ?_⟩
  · rintro ⟨i, hi, rfl⟩
    exact ⟨i, hi, ha.indexToPtr_eq hi⟩
  · rintro ⟨i, hi, rfl⟩
    exact ⟨i, hi, (ha.indexToPtr_eq hi).symm⟩

/-- Right after the constructor, in a world where no cache is bound to the new
pool. -/
theorem constructed_inv [DecidableEq κ] [DecidableEq π]
    (h : Constructed blockSz numBlocks batch a next) (hnext : w.next = next)
    (hglobal : w.globals p = a.global)
    (hcaches : ∀ k c, w.caches k = some c → c.global ≠ p)
    (hexited : ∀ k held, w.exited k = some held → w.caches k = none) :
    (poolOf p a).Inv w []
      (fun q => if q = p then (blocksOf a.blockSize a.region a.blockCount).reverse else [])
      fun _ => [] where
  address b hb := by
    obtain ⟨i, hi, rfl⟩ := mem_blocksOf.mp hb
    exact ⟨h.placed.indexToPtr_ne_zero hi, wrap_lt _⟩
  global q hq := by
    obtain rfl : q = p := hq
    rw [if_pos rfl, hnext, hglobal]
    exact h.seeded
  foreign q hq := if_neg hq
  bound k c hc hq := (hcaches k c hc hq).elim
  other _ _ _ _ := rfl
  unused _ _ _ := rfl
  gone k held hk := ⟨hexited k held hk, fun _ hb => nomatch hb⟩
  ledger := by
    have hnodup := List.nodup_reverse.mpr (nodup_blocksOf h.placed)
    have hsingle := ledger_single (Place.global p : Place κ π) hnodup
    have hcells : (fun j : Place κ π => if j = Place.global p then
          (blocksOf a.blockSize a.region a.blockCount).reverse else []) =
        cell (fun q => if q = p then
          (blocksOf a.blockSize a.region a.blockCount).reverse else []) (fun _ => []) [] := by
      funext j
      cases j <;> simp [cell]
    rw [hcells] at hsingle
    have hblock : (fun b => b ∈ (blocksOf a.blockSize a.region a.blockCount).reverse) =
        (poolOf p a).block := by
      funext b
      simp [poolOf]
    rwa [hblock] at hsingle

end Pool

/-! ## Runs -/

/-- `live` is what `alloc` has returned and nobody has freed, `users` the threads that
have called the allocator so far. -/
structure State (κ : Type) where
  world : World κ Unit
  live : List Nat
  users : List κ

inductive Event (κ : Type)
  | alloc (k : κ)
  | dealloc (k : κ) (ptr : Nat)
  | write (b v : Nat)
  | exit (k : κ)

def start {κ : Type} (a : Allocator) (next : Heap) : State κ where
  world :=
    { next := next
      globals := fun _ => a.global
      caches := fun _ => none
      exited := fun _ => none }
  live := []
  users := []

section Runs

variable {κ : Type} [DecidableEq κ]

/-- `none` is a step the callers do not take: a call after the thread's exit, a
`dealloc` of a pointer that is neither null nor live. -/
def exec (batch : Nat) : State κ → Event κ → Option (State κ)
  | s, .alloc k =>
      if s.world.exited k = none then
        (allocFrom s.world k () batch).map fun r =>
          { world := r.2, live := granted r.1 s.live, users := s.users.insert k }
      else none
  | s, .dealloc k ptr =>
      if s.world.exited k = none ∧ (ptr = 0 ∨ ptr ∈ s.live) then
        (deallocTo s.world k () batch ptr).map fun w =>
          { world := w, live := s.live.erase ptr, users := s.users.insert k }
      else none
  | s, .write b v =>
      if b ∈ s.live then some { s with world := userWrite s.world b v } else none
  | s, .exit k =>
      if s.world.exited k = none then
        some { s with world := exit s.world (fun j => j = k) }
      else none

def calls (a : Allocator) (next : Heap) : System (State κ) (Event κ) :=
  ofExec (fun s => s = start a next) (exec a.batchSize)

/-- Between calls: the lists hold the nodes `g ()` and `l k`, the caches of threads
that never called hold none, and, if `high_watermark` does not wrap, no cache holds
more than twice the batch. -/
structure Inv (a : Allocator) (s : State κ) (g : Unit → List Nat) (l : κ → List Nat) :
    Prop where
  owned : (poolOf () a).Inv s.world s.live g l
  short : a.batchSize * 2 < 2 ^ 64 → ∀ k, (l k).length ≤ 2 * a.batchSize
  idle : ∀ k, k ∉ s.users → l k = []
  nodup : s.users.Nodup

variable {a : Allocator} {next : Heap} {s s' : State κ} {g : Unit → List Nat}
variable {l : κ → List Nat} {k : κ} {blockSz numBlocks batch : Nat}

omit [DecidableEq κ] in
/-- A running thread's cache is on the only pool there is. -/
theorem available (hk : s.world.exited k = none) : Available s.world k () :=
  ⟨hk, fun _ _ => rfl⟩

/-- A refilled chain, less the node that `alloc` takes, is short if the chain was. -/
theorem refilled_length {g l : List Nat} (h : l.length ≤ 2 * batch) :
    (refilled batch g l).2.tail.length ≤ 2 * batch := by
  unfold refilled
  split
  · have htake := List.length_take_le (max batch 1) g
    rw [List.length_tail, List.length_append]
    omega
  · show l.tail.length ≤ 2 * batch
    rw [List.length_tail]
    omega

/-- A flush leaves a chain no longer than the high watermark. -/
theorem flushed_length {g l : List Nat} (hbatch : batch * 2 < 2 ^ 64)
    (hl : l.length < 2 ^ 64) : (flushed batch g l).2.length ≤ 2 * batch := by
  unfold flushed
  rw [wrap_of_lt hbatch]
  split
  · rw [wrapSub_of_le hl (by omega), List.length_drop]
    omega
  · show l.length ≤ 2 * batch
    omega

/-- What a call of thread `k` must leave to keep the invariant. -/
private theorem Inv.called (h : Inv a s g l) {w : World κ Unit} {live gs ls : List Nat}
    (howned : (poolOf () a).Inv w live (Function.update g () gs)
      (Function.update l k ls))
    (hshort : a.batchSize * 2 < 2 ^ 64 → ls.length ≤ 2 * a.batchSize) :
    Inv a { world := w, live := live, users := s.users.insert k }
      (Function.update g () gs) (Function.update l k ls) where
  owned := howned
  short hbatch j := by
    by_cases hj : j = k
    · subst hj
      rw [Function.update_self]
      exact hshort hbatch
    · rw [Function.update_of_ne hj]
      exact h.short hbatch j
  idle j hj := by
    rw [List.mem_insert_iff, not_or] at hj
    rw [Function.update_of_ne hj.1]
    exact h.idle j hj.2
  nodup := h.nodup.insert

/-- Every `alloc` returns. -/
theorem Inv.alloc (h : Inv a s g l) (hk : s.world.exited k = none) :
    ∃ w', allocFrom s.world k () a.batchSize =
        some ((refilled a.batchSize (g ()) (l k)).2.headD 0, w') ∧
      Inv a
        { world := w'
          live := granted ((refilled a.batchSize (g ()) (l k)).2.headD 0) s.live
          users := s.users.insert k }
        (Function.update g () (refilled a.batchSize (g ()) (l k)).1)
        (Function.update l k (refilled a.batchSize (g ()) (l k)).2.tail) ∧
      (poolOf () a).Called k () s.world w' := by
  obtain ⟨w', hrun, howned, hcalled⟩ := h.owned.allocFrom (p := ()) rfl (available hk)
  exact ⟨w', hrun, h.called howned fun hbatch => refilled_length (h.short hbatch k),
    hcalled⟩

/-- So does every `dealloc` of a live block. -/
theorem Inv.dealloc (h : Inv a s g l) (hk : s.world.exited k = none) {ptr : Nat}
    (hlive : ptr ∈ s.live) :
    ∃ w', deallocTo s.world k () a.batchSize ptr = some w' ∧
      Inv a { world := w', live := s.live.erase ptr, users := s.users.insert k }
        (Function.update g () (flushed a.batchSize (g ()) (ptr :: l k)).1)
        (Function.update l k (flushed a.batchSize (g ()) (ptr :: l k)).2) := by
  obtain ⟨w', hrun, howned, -⟩ :=
    h.owned.deallocTo (p := ()) rfl (available hk) hlive
  exact ⟨w', hrun, h.called howned fun hbatch => flushed_length hbatch
    (length_succ_lt_of_live h.owned.ledger h.owned.address hlive k)⟩

theorem Inv.dealloc_null (h : Inv a s g l) (hk : s.world.exited k = none) :
    ∃ w', deallocTo s.world k () a.batchSize 0 = some w' ∧
      Inv a { world := w', live := s.live, users := s.users.insert k } g l := by
  obtain ⟨w', hrun, howned, -⟩ := h.owned.deallocTo_null (p := ()) rfl (available hk)
  have hsame : (poolOf () a).Inv w' s.live (Function.update g () (g ()))
      (Function.update l k (l k)) := by
    rwa [Function.update_eq_self, Function.update_eq_self]
  have hcalled := h.called hsame fun hbatch => h.short hbatch k
  rw [Function.update_eq_self, Function.update_eq_self] at hcalled
  exact ⟨w', hrun, hcalled⟩

omit [DecidableEq κ] in
theorem Inv.notMem_zero (h : Inv a s g l) : 0 ∉ s.live := fun hmem =>
  (h.owned.address 0 (h.owned.block_of_live hmem)).1 rfl

theorem Inv.step (h : Inv a s g l) {e : Event κ} (hstep : exec a.batchSize s e = some s') :
    ∃ g' l', Inv a s' g' l' := by
  cases e with
  | alloc k =>
      simp only [exec] at hstep
      split at hstep
      · next hk =>
          obtain ⟨w', hrun, hinv, -⟩ := h.alloc hk
          rw [hrun, Option.map_some, Option.some.injEq] at hstep
          exact hstep ▸ ⟨_, _, hinv⟩
      · cases hstep
  | dealloc k ptr =>
      simp only [exec] at hstep
      split at hstep
      · next hk =>
          obtain ⟨hk, hptr⟩ := hk
          rcases hptr with rfl | hlive
          · obtain ⟨w', hrun, hinv⟩ := h.dealloc_null hk
            rw [hrun, Option.map_some, Option.some.injEq,
              List.erase_of_not_mem h.notMem_zero] at hstep
            exact hstep ▸ ⟨_, _, hinv⟩
          · obtain ⟨w', hrun, hinv⟩ := h.dealloc hk hlive
            rw [hrun, Option.map_some, Option.some.injEq] at hstep
            exact hstep ▸ ⟨_, _, hinv⟩
      · cases hstep
  | write b v =>
      simp only [exec] at hstep
      split at hstep
      · next hb =>
          cases hstep
          exact ⟨g, l, h.owned.userWrite v fun _ => hb, h.short, h.idle, h.nodup⟩
      · cases hstep
  | exit k =>
      simp only [exec] at hstep
      split at hstep
      · cases hstep
        exact ⟨g, l, h.owned.exit _, h.short, h.idle, h.nodup⟩
      · cases hstep

theorem start_inv (ha : Constructed blockSz numBlocks batch a next) :
    ∃ g l, Inv a (start a next : State κ) g l :=
  ⟨_, _, constructed_inv ha rfl rfl (fun _ _ hc => nomatch hc) (fun _ _ hk => nomatch hk),
    fun _ _ => Nat.zero_le _, fun _ _ => rfl, List.nodup_nil⟩

/-- Every run of whole calls keeps the invariant. -/
theorem inv_of_reachable (ha : Constructed blockSz numBlocks batch a next)
    (hs : Reachable (calls a next) s) : ∃ g l, Inv a s g l := by
  refine hs.invariant (P := fun s => ∃ g l, Inv a s g l) ?_ ?_
  · rintro _ rfl
    exact start_inv ha
  · rintro s e s' - ⟨g, l, hinv⟩ hstep
    exact hinv.step hstep

end Runs

end PoolMemalloc.Ports.TlFreelistCalls
