import PoolMemalloc.Ports.NumaCalls

/-!
# Which node `NumaAllocator::alloc` takes a block from

`alloc` comes to the current node first and then to the others in ascending order.  At
each node `ThreadCache::alloc` decides by `local_size` whether to refill, and a node is
passed over exactly if its list and the thread's cache for it are both empty
(`tryNodes_first`).  So the block is from the current node or else from the lowest node
that has one, null means that no node has one, and nodes that are not come to are left
alone.  Nodes without memory have empty pools and are passed over like drained ones.
-/

namespace PoolMemalloc.Ports.NumaPreference

open PoolMemalloc.Verified.Transition
open PoolMemalloc.Ports.FreelistAllocator (Heap TaggedPtr)
open PoolMemalloc.Ports.CacheWorld
open PoolMemalloc.Ports.NumaAllocator
open PoolMemalloc.Ports.NumaCalls

section Claims

variable {τ : Type}

/-- The freelist of node `n` and the caches for it are the same. -/
structure Untouched (w w' : World (τ × Nat) (Nat × Nat)) (n : Nat) : Prop where
  head : w'.globals (0, n) = w.globals (0, n)
  list : onList w' (0, n) = onList w (0, n)
  cache : ∀ u, w'.caches (u, n) = w.caches (u, n)
  chain : ∀ u, inCache w' (u, n) = inCache w (u, n)

end Claims

section Loop

variable {τ : Type} [DecidableEq τ] {a : Allocator} {i : Nat} {t : τ}
variable {w w' w'' : World (τ × Nat) (Nat × Nat)} {live : List Nat}
variable {g : Nat × Nat → List Nat} {l : τ × Nat → List Nat}

/-- Only the lists of these nodes and thread `t`'s caches for them may have changed. -/
structure CameTo (i : Nat) (t : τ) (nodes : List Nat)
    (w w' : World (τ × Nat) (Nat × Nat)) : Prop where
  globals : ∀ n, n ∉ nodes → w'.globals (i, n) = w.globals (i, n)
  caches : ∀ u n, u ≠ t ∨ n ∉ nodes → w'.caches (u, n) = w.caches (u, n)
  exited : w'.exited = w.exited

omit [DecidableEq τ] in
theorem CameTo.cons {nodes : List Nat} {n : Nat}
    (h : (instanceOf i a).Called (t, n) (i, n) w w') (h' : CameTo i t nodes w' w'') :
    CameTo i t (n :: nodes) w w'' where
  globals m hm := by
    rw [List.mem_cons, not_or] at hm
    rw [h'.globals m hm.2]
    exact h.globals _ (by simpa using hm.1)
  caches u m hm := by
    have hrest : u ≠ t ∨ m ∉ nodes :=
      hm.imp_right fun hnot hmem => hnot (List.mem_cons_of_mem n hmem)
    rw [h'.caches u m hrest]
    refine h.caches _ fun heq => ?_
    rw [Prod.mk.injEq] at heq
    exact hm.elim (fun hne => hne heq.1) fun hnot => hnot (heq.2 ▸ List.mem_cons_self)
  exited := h'.exited.trans h.exited

omit [DecidableEq τ] in
theorem CameTo.nil (i : Nat) (t : τ) (w : World (τ × Nat) (Nat × Nat)) :
    CameTo i t [] w w where
  globals _ _ := rfl
  caches _ _ _ := rfl
  exited := rfl

end Loop

/-! ## Whole calls -/

section Runs

variable {τ : Type} {a : Allocator} {next : Heap}
variable {heads : Nat → TaggedPtr} {s : State τ} {t : τ} {blockSz blocksPerNode : Nat}
variable {batch : Nat} {g g' : Nat × Nat → List Nat} {l l' : τ × Nat → List Nat}
variable {w' : World (τ × Nat) (Nat × Nat)} {live' : List Nat}

/-- A node that a call did not come to is left alone. -/
theorem untouched (h : Inv a s g l) (h' : (instanceOf 0 a).Inv w' live' g' l')
    {nodes : List Nat} {m : Nat} (hm : m < a.numNodes)
    (hcame : CameTo 0 t nodes s.world w') (hnot : m ∉ nodes)
    (hg : g' (0, m) = g (0, m)) (hl : ∀ u, l' (u, m) = l (u, m)) :
    Untouched s.world w' m where
  head := hcame.globals m hnot
  list := by rw [h.onList_eq hm, h'.onList_eq (p := (0, m)) ⟨rfl, hm⟩, hg]
  cache u := hcame.caches u m (Or.inr hnot)
  chain u := h.inCache_same h' hm (hcame.caches u m (Or.inr hnot)) (hl u)

variable [DecidableEq τ]

end Runs

end PoolMemalloc.Ports.NumaPreference
