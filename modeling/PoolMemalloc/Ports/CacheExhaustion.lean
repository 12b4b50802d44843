import Mathlib.Algebra.Order.BigOperators.Group.List
import Mathlib.Algebra.Order.Ring.Nat
import PoolMemalloc.Ports.TlFreelistCalls

/-!
# When `ThreadLocalFreelistAllocator::alloc` returns null

`alloc` tests `local_size` and refills from the global list; it never looks into the
cache of another thread.  So it fails when the caller's chain and the global list are
empty, and every block that is not live then is in the cache of another thread that
has called the allocator (`unseen_le`).
-/

namespace PoolMemalloc.Ports.CacheExhaustion

open PoolMemalloc.Verified.Transition
open PoolMemalloc.Ports.FreelistAllocator (Heap)
open PoolMemalloc.Ports.ThreadCache (refilled)
open PoolMemalloc.Ports.TlFreelistAllocator
open PoolMemalloc.Ports.CacheWorld
open PoolMemalloc.Ports.TlFreelistCalls

/-- What the result `r` of `alloc` by thread `k` says about the state before. -/
structure Exhausts {κ : Type} [DecidableEq κ] (a : Allocator) (s : State κ) (k : κ)
    (r : Nat) : Prop where
  /-- Null exactly if the thread's chain and the global list are empty. -/
  null_iff : r = 0 ↔
    (getCache s.world k () a.batchSize).localHead = 0 ∧ (s.world.globals ()).ptr = 0
  /-- Each other thread that ever called keeps at most twice the batch. -/
  stranded : r = 0 → a.blockCount ≤
    s.live.length + ((s.users.insert k).length - 1) * (2 * a.batchSize)
  /-- With a single thread nothing is kept. -/
  single : (∀ j ∈ s.users, j = k) →
    (r = 0 ↔ ∀ i, i < a.blockCount → a.region + i * a.blockSize ∈ s.live)
  /-- `live` counts blocks, each once. -/
  nodup : s.live.Nodup
  blocks : ∀ b ∈ s.live, ∃ i, i < a.blockCount ∧ b = a.region + i * a.blockSize

section Exhaustion

variable {κ : Type} [DecidableEq κ] {a : Allocator} {next : Heap} {s : State κ}
variable {g : Unit → List Nat} {l : κ → List Nat} {k : κ}
variable {blockSz numBlocks batch : Nat}

/-- The threads that ever called, apart from the caller. -/
private theorem length_insert_sub (s : State κ) (k : κ) :
    (s.users.insert k).length - 1 = (s.users.erase k).length := by
  by_cases hk : k ∈ s.users
  · rw [List.insert_of_mem hk, List.length_erase_of_mem hk]
  · rw [List.insert_of_not_mem hk, List.erase_of_not_mem hk]
    rfl

/-- A block that the caller does not see is live or in another user's cache. -/
theorem unseen (h : Inv a s g l) (hl : l k = []) (hg : g () = []) {b : Nat}
    (hb : (poolOf () a).block b) : b ∈ s.live ∨ ∃ j ∈ s.users.erase k, b ∈ l j := by
  obtain ⟨i, hi⟩ := (h.owned.ledger.mem b).mp hb
  cases i with
  | global p =>
      have hmem : b ∈ g () := hi
      rw [hg] at hmem
      cases hmem
  | cache j =>
      have hmem : b ∈ l j := hi
      have hne : j ≠ k := by
        rintro rfl
        rw [hl] at hmem
        cases hmem
      have huser : j ∈ s.users := by
        by_contra hidle
        rw [h.idle j hidle] at hmem
        cases hmem
      exact Or.inr ⟨j, (List.mem_erase_of_ne hne).mpr huser, hmem⟩
  | user => exact Or.inl hi

/-- The counting argument: the blocks that the caller does not see are at most the
live ones and what the other users' caches can hold. -/
theorem unseen_le (ha : Constructed blockSz numBlocks batch a next) (h : Inv a s g l)
    (hbatch : a.batchSize * 2 < 2 ^ 64) (hl : l k = []) (hg : g () = []) :
    a.blockCount ≤ s.live.length + (s.users.erase k).length * (2 * a.batchSize) := by
  have hsub : blocksOf a.blockSize a.region a.blockCount ⊆
      s.live ++ (s.users.erase k).flatMap l := by
    intro b hb
    rw [List.mem_append, List.mem_flatMap]
    exact unseen h hl hg hb
  have hall := (List.subperm_of_subset (nodup_blocksOf ha.placed) hsub).length_le
  have hheld : ((s.users.erase k).flatMap l).length ≤
      (s.users.erase k).length * (2 * a.batchSize) := by
    rw [List.length_flatMap]
    have hsum := List.sum_le_card_nsmul ((s.users.erase k).map fun j => (l j).length)
      (2 * a.batchSize) (by simpa using fun j _ => h.short hbatch j)
    rwa [List.length_map, nsmul_eq_mul, Nat.cast_id] at hsum
  rw [List.length_append, length_blocksOf] at hall
  omega

/-- The exact condition under which `alloc` fails, and how few blocks can be live
then, whatever the threads did before. -/
theorem alloc_exhausts (blockSz numBlocks batch : Nat) (a : Allocator) (next : Heap)
    (ha : Constructed blockSz numBlocks batch a next)
    (hbatch : a.batchSize * 2 < 2 ^ 64) (s : State κ)
    (hs : Reachable (calls a next) s) (k : κ) (hk : s.world.exited k = none) :
    ∃ r w, allocFrom s.world k () a.batchSize = some (r, w) ∧ Exhausts a s k r := by
  obtain ⟨g, l, h⟩ := inv_of_reachable ha hs
  obtain ⟨w, hrun, -, -⟩ := h.alloc hk
  refine ⟨_, w, hrun, ?_⟩
  have hnull : (refilled a.batchSize (g ()) (l k)).2.headD 0 = 0 ↔
      l k = [] ∧ g () = [] := h.owned.headD_eq_zero_iff
  exact
    { null_iff := hnull.trans (h.owned.dry_iff rfl (available hk)).symm
      stranded := fun hr => by
        rw [length_insert_sub s k]
        exact unseen_le ha h hbatch (hnull.mp hr).1 (hnull.mp hr).2
      single := fun honly => by
        rw [hnull]
        constructor
        · rintro ⟨hl, hg⟩ i hi
          have hb := (poolOf_block (p := ()) ha.placed).mpr ⟨i, hi, rfl⟩
          rcases unseen h hl hg hb with hlive | ⟨j, hj, -⟩
          · exact hlive
          · obtain ⟨hne, huser⟩ := h.nodup.mem_erase_iff.mp hj
            exact (hne (honly j huser)).elim
        · intro hall
          have hlive : ∀ b, (poolOf () a).block b → b ∈ s.live := by
            intro b hb
            obtain ⟨i, hi, rfl⟩ := (poolOf_block ha.placed).mp hb
            exact hall i hi
          constructor
          · apply List.eq_nil_iff_forall_not_mem.mpr
            intro b hb
            exact nomatch h.owned.ledger.only (.cache k) .user b hb
              (hlive b (h.owned.block_of_cache hb))
          · apply List.eq_nil_iff_forall_not_mem.mpr
            intro b hb
            exact nomatch h.owned.ledger.only (.global ()) .user b hb
              (hlive b (h.owned.block_of_global hb))
      nodup := h.owned.ledger.nodup .user
      blocks := fun b hb => (poolOf_block ha.placed).mp (h.owned.block_of_live hb) }

/-- Thread 1 of a pool of three, after thread 0 has allocated and exited. -/
theorem alloc_exhausts_tlPool3 : ∃ s,
    replay (exec 2) (start tlPool3 tlHeap3 : State Nat) [.alloc 0, .exit 0] = some s ∧
    ∃ r w, allocFrom s.world 1 () 2 = some (r, w) ∧ Exhausts tlPool3 s 1 r :=
  ⟨_, rfl, alloc_exhausts 48 3 2 tlPool3 tlHeap3 tlPool3_constructed (by decide) _
    (Reachable.replay [.alloc 0, .exit 0] (.init rfl) rfl) 1 rfl⟩

end Exhaustion

end PoolMemalloc.Ports.CacheExhaustion
