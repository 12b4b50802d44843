import PoolMemalloc.Ports.NumaInstances
import PoolMemalloc.Ports.TlFreelistInstances

/-!
# When allocator objects keep apart

The caches of a thread are shared by all objects of a class, so a call may run on the
pool of another object.  `instances_isolated` says that nothing else goes wrong: in
every run whose calls all come to their own object's caches, each such call returns a
block of its own object and changes nothing that belongs to another.
`allocFrom_other` is what the other calls do: exactly what a call on the cache's own
object does.
-/

namespace PoolMemalloc.Ports.InstanceIsolation

open PoolMemalloc.Verified.Transition
open PoolMemalloc.Ports.FreelistAllocator (Heap)
open PoolMemalloc.Ports.CacheWorld
open PoolMemalloc.Ports.TlFreelistCalls (poolOf poolOf_block)
open PoolMemalloc.Ports.NumaAllocator (instanceOf)

/-- Calls that come to their own object's cache stay inside the object. -/
structure Isolated {κ : Type} [DecidableEq κ] (s : TlFreelistInstances.State κ) :
    Prop where
  alloc : ∀ i a k, s.alive i = some a → s.world.exited k = none →
    TlFreelistInstances.OwnCache s.world i k →
      ∃ r w', allocFrom s.world k i a.batchSize = some (r, w') ∧
        (r ≠ 0 → ∃ j, j < a.blockCount ∧ r = a.region + j * a.blockSize) ∧
        (poolOf i a).OnlyTouches s.world w'
  dealloc : ∀ i a k ptr, s.alive i = some a → s.world.exited k = none →
    TlFreelistInstances.OwnCache s.world i k → (ptr = 0 ∨ ptr ∈ s.live i) →
      ∃ w', deallocTo s.world k i a.batchSize ptr = some w' ∧
        (poolOf i a).OnlyTouches s.world w'

/-- The same for `NumaAllocator`, with a region for each node. -/
structure IsolatedOnNodes {τ : Type} [DecidableEq τ] (s : NumaInstances.State τ) :
    Prop where
  alloc : ∀ i a t currentNode, s.alive i = some a →
    NumaAllocator.Usable a i t s.world (NumaAllocator.nodeOrder a currentNode) →
      ∃ r w', NumaAllocator.alloc a s.world i t currentNode = some (r, w') ∧
        (r ≠ 0 → ∃ n, n < a.numNodes ∧ (a.pools n).region ≠ 0 ∧
          (a.pools n).region ≤ r ∧
          r + (a.pools n).blockSize ≤ (a.pools n).region + (a.pools n).regionSize) ∧
        (instanceOf i a).OnlyTouches s.world w'
  dealloc : ∀ i a t ptr, s.alive i = some a →
    NumaInstances.OwnCache s.world i t (NumaAllocator.ownerNode a ptr) →
    (ptr = 0 ∨ ptr ∈ s.live i) →
      ∃ w', NumaAllocator.dealloc a s.world i t ptr = some w' ∧
        (instanceOf i a).OnlyTouches s.world w'

/-- A call of a thread whose cache exists goes there, whatever pool is meant. -/
theorem allocFrom_other {κ π : Type} [DecidableEq κ] [DecidableEq π] {w : World κ π}
    {k : κ} {c : ThreadCache.Cache π} (hc : w.caches k = some c) (p q : π)
    (batch batch' : Nat) : allocFrom w k p batch = allocFrom w k q batch' := by
  have hcache : getCache w k p batch = getCache w k q batch' := by
    rw [getCache, getCache, hc, Option.getD_some, Option.getD_some]
  rw [allocFrom, allocFrom, hcache]

section Isolation

variable {κ τ : Type} [DecidableEq κ] [DecidableEq τ]

omit [DecidableEq κ] in
/-- What a call has returned is a block. -/
theorem block_of_granted {π : Type} {A : Instance π} {w : World κ π} {r : Nat}
    {live : List Nat} {g : π → List Nat} {l : κ → List Nat}
    (h : A.Inv w (granted r live) g l) (hr : r ≠ 0) : A.block r := by
  refine h.block_of_live ?_
  rw [granted, if_neg hr]
  exact List.mem_cons_self

theorem isolated {next : Heap} {s : TlFreelistInstances.State κ}
    (hs : Reachable
      (restrict (TlFreelistInstances.calls next) TlFreelistInstances.OwnCaches) s) :
    Isolated s := by
  have h := TlFreelistInstances.inv_of_reachable hs
  constructor
  · intro i a k hi hk hown
    obtain ⟨r, w', hrun, htouch, g, l, hinv⟩ :=
      TlFreelistInstances.alloc_isolated h hi hk hown
    refine ⟨r, w', hrun, fun hr => ?_, htouch⟩
    exact (poolOf_block (h.good i a hi)).mp (block_of_granted hinv hr)
  · intro i a k ptr hi hk hown hptr
    obtain ⟨w', hrun, htouch, -⟩ :=
      TlFreelistInstances.dealloc_isolated h hi hk hown hptr
    exact ⟨w', hrun, htouch⟩

theorem isolatedOnNodes {next : Heap} {s : NumaInstances.State τ}
    (hs : Reachable (restrict (NumaInstances.calls next) NumaInstances.OwnCaches) s) :
    IsolatedOnNodes s := by
  have h := NumaInstances.inv_of_reachable hs
  constructor
  · intro i a t currentNode hi hown
    obtain ⟨r, w', hrun, htouch, g, l, hinv⟩ := NumaInstances.alloc_isolated h hi hown
    refine ⟨r, w', hrun, fun hr => ?_, htouch⟩
    obtain ⟨n, hn, hb⟩ := block_of_granted hinv hr
    have hgood : a.Placed := h.good i a hi
    exact ⟨n, hn, hgood.bounds hn hb⟩
  · intro i a t ptr hi hown hptr
    obtain ⟨w', hrun, htouch, -⟩ := NumaInstances.dealloc_isolated h hi hown hptr
    exact ⟨w', hrun, htouch⟩

/-- Both classes, in every state of a run whose calls come to their own caches. -/
theorem instances_isolated (next next' : Heap) (s : TlFreelistInstances.State κ)
    (s' : NumaInstances.State τ)
    (hs : Reachable
      (restrict (TlFreelistInstances.calls next) TlFreelistInstances.OwnCaches) s)
    (hs' : Reachable
      (restrict (NumaInstances.calls next') NumaInstances.OwnCaches) s') :
    Isolated s ∧ IsolatedOnNodes s' :=
  ⟨isolated hs, isolatedOnNodes hs'⟩

/-- A call of a thread whose cache is on another object that is alive returns a block
of that object. -/
theorem alloc_misdirected {s : TlFreelistInstances.State κ}
    (h : InstanceWorld.Inv TlFreelistInstances.tlFreelist s) {i j : Nat}
    {a b : TlFreelistAllocator.Allocator} {k : κ} {c : ThreadCache.Cache Nat}
    (hi : s.alive i = some a) (hj : s.alive j = some b) (hne : i ≠ j)
    (hc : s.world.caches k = some c) (hglobal : c.global = j) :
    ∃ r w', allocFrom s.world k i a.batchSize = some (r, w') ∧
      (r ≠ 0 → (poolOf j b).block r ∧ ¬ (poolOf i a).block r) := by
  have hown : TlFreelistInstances.OwnCache s.world j k := by
    intro d hd
    rw [hc, Option.some.injEq] at hd
    exact hd ▸ hglobal
  have hk : s.world.exited k = none := by
    cases hexited : s.world.exited k with
    | none => rfl
    | some held =>
        rw [h.gone k held hexited] at hc
        cases hc
  obtain ⟨r, w', hrun, -, g, l, hinv⟩ :=
    TlFreelistInstances.alloc_isolated h hj hk hown
  rw [allocFrom_other hc j i b.batchSize a.batchSize] at hrun
  refine ⟨r, w', hrun, fun hr => ?_⟩
  have hblock := block_of_granted hinv hr
  exact ⟨hblock, h.apart j i b a (Ne.symm hne) hj hi r hblock⟩

end Isolation

/-! ## Two objects and one thread -/

/-- Object 0 has two blocks of 64 bytes, object 1 two of 128; thread 0 allocates from
the one and then from the other. -/
def bothFrom0 : List (TlFreelistInstances.Event Nat) :=
  [.create 0 64 2 2 4096, .create 1 128 2 2 8192, .alloc 0 0, .alloc 1 0]

/-- The same for `NumaAllocator` objects with one node. -/
def bothFromNode0 : List (NumaInstances.Event Nat) :=
  [.create 0 64 2 2 (fun _ => 4096) (fun n => n < 1),
    .create 1 128 2 2 (fun _ => 8192) (fun n => n < 1), .alloc 0 0 0, .alloc 1 0 0]

/-- The second call returns a block of object 0. -/
theorem alloc_from_other_instance :
    (¬ ∀ s : TlFreelistInstances.State Nat,
      Reachable (TlFreelistInstances.calls fun _ => 0) s →
        ∀ i a, s.alive i = some a → ∀ b ∈ s.live i, a.region ≤ b) ∧
    ¬ ∀ s : NumaInstances.State Nat, Reachable (NumaInstances.calls fun _ => 0) s →
      ∀ i a, s.alive i = some a → ∀ b ∈ s.live i,
        ∃ n, n < a.numNodes ∧ (a.pools n).region ≤ b := by
  constructor
  · intro hclaim
    have hrun : (replay TlFreelistInstances.exec
        (TlFreelistInstances.nothing fun _ => 0) bothFrom0).any (fun s =>
          (s.alive 1).any (fun a => a.region == 8192) && s.live 1 == [4096]) = true := by
      decide
    obtain ⟨s, hs, hcheck⟩ := (Option.any_eq_true _ _).mp hrun
    rw [Bool.and_eq_true, beq_iff_eq] at hcheck
    obtain ⟨a, ha, hregion⟩ := (Option.any_eq_true _ _).mp hcheck.1
    have hle := hclaim s (Reachable.replay bothFrom0 (.init rfl) hs) 1 a ha 4096
      (by rw [hcheck.2]; exact List.mem_singleton_self _)
    rw [beq_iff_eq.mp hregion] at hle
    exact absurd hle (by decide)
  · intro hclaim
    have hrun : (replay NumaInstances.exec
        (NumaInstances.nothing fun _ => 0) bothFromNode0).any (fun s =>
          (s.alive 1).any (fun a => a.numNodes == 1 && (a.pools 0).region == 8192) &&
            s.live 1 == [4096]) = true := by
      decide
    obtain ⟨s, hs, hcheck⟩ := (Option.any_eq_true _ _).mp hrun
    rw [Bool.and_eq_true, beq_iff_eq] at hcheck
    obtain ⟨a, ha, hnode⟩ := (Option.any_eq_true _ _).mp hcheck.1
    rw [Bool.and_eq_true, beq_iff_eq, beq_iff_eq] at hnode
    obtain ⟨n, hn, hle⟩ := hclaim s (Reachable.replay bothFromNode0 (.init rfl) hs) 1 a
      ha 4096 (by rw [hcheck.2]; exact List.mem_singleton_self _)
    obtain rfl : n = 0 := by omega
    rw [hnode.2] at hle
    exact absurd hle (by decide)

/-- The same objects, with a thread for each; thread 0 also frees its block. -/
def eachItsThread : List (TlFreelistInstances.Event Nat) :=
  [.create 0 64 2 2 4096, .create 1 128 2 2 8192, .alloc 0 0, .alloc 1 1,
    .dealloc 0 0 4160]

/-- Thread 0 has a block of object 0, and thread 1 empties object 1 and frees a block. -/
def eachItsThreadOnNode0 : List (NumaInstances.Event Nat) :=
  [.create 0 64 2 2 (fun _ => 4096) (fun n => n < 1),
    .create 1 128 2 2 (fun _ => 8192) (fun n => n < 1), .alloc 0 0 0, .alloc 1 1 0,
    .alloc 1 1 0, .alloc 1 1 0, .dealloc 1 1 8320]

/-- Those runs stay apart. -/
theorem instances_isolated_eachItsThread : ∃ s s',
    replay TlFreelistInstances.exec (TlFreelistInstances.nothing fun _ => 0)
      eachItsThread = some s ∧
    replay NumaInstances.exec (NumaInstances.nothing fun _ => 0)
      eachItsThreadOnNode0 = some s' ∧
    (s.live 1 = [8320] ∧ s'.live 0 = [4160] ∧ s'.live 1 = [8192]) ∧
    Isolated s ∧ IsolatedOnNodes s' := by
  have hrun : (replay TlFreelistInstances.exec (TlFreelistInstances.nothing fun _ => 0)
      eachItsThread).any (fun s => s.live 1 == [8320]) = true := by
    decide
  have hrun' : (replay NumaInstances.exec (NumaInstances.nothing fun _ => 0)
      eachItsThreadOnNode0).any (fun s => s.live 0 == [4160] && s.live 1 == [8192]) =
        true := by
    decide
  obtain ⟨s, hs, hlive⟩ := (Option.any_eq_true _ _).mp hrun
  obtain ⟨s', hs', hlive'⟩ := (Option.any_eq_true _ _).mp hrun'
  rw [beq_iff_eq] at hlive
  rw [Bool.and_eq_true, beq_iff_eq, beq_iff_eq] at hlive'
  exact ⟨s, s', hs, hs', ⟨hlive, hlive'⟩,
    instances_isolated (fun _ => 0) (fun _ => 0) s s'
      (Reachable.replay_restrict eachItsThread (.init rfl) (by decide) hs)
      (Reachable.replay_restrict eachItsThreadOnNode0 (.init rfl) (by decide) hs')⟩

end PoolMemalloc.Ports.InstanceIsolation
