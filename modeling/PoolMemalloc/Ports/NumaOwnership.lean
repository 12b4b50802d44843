import PoolMemalloc.Ports.NumaCalls

/-!
# Whose blocks the nodes' lists hold

If every node's memory was granted, the freelist of a node and all threads' caches for
it hold only blocks of that node's region, whichever threads allocate and free them on
whichever node they run: `alloc` takes a block out of one node's lists, and `dealloc`
asks `owner_node` for the node whose lists it goes to.  Threads do not end here, so every
block is in exactly one of these lists or with the user (`Unmixed.once`).
-/

namespace PoolMemalloc.Ports.NumaOwnership

open PoolMemalloc.Verified.SizeT
open PoolMemalloc.Verified.Transition
open PoolMemalloc.Verified.Conservation
open PoolMemalloc.Ports.FreelistAllocator (Heap TaggedPtr)
open PoolMemalloc.Ports.TlFreelistAllocator (mem_blocksOf)
open PoolMemalloc.Ports.CacheWorld
open PoolMemalloc.Ports.NumaAllocator
open PoolMemalloc.Ports.NumaCalls

/-- `b` is the start of a block of the region of node `n`. -/
structure BlockOf (a : Allocator) (n b : Nat) : Prop where
  index : ∃ i, i < (a.pools n).blockCount ∧
    b = (a.pools n).region + i * (a.pools n).blockSize
  low : (a.pools n).region ≤ b
  high : b + (a.pools n).blockSize ≤ (a.pools n).region + (a.pools n).regionSize

/-- The thread of this event does not end. -/
def GoesOn {τ : Type} : Event τ → Prop
  | .exit _ => False
  | _ => True

/-- From `w` to `w'` thread `t` has given `ptr` to the lists of node `n`, and no other
list has changed. -/
structure FreedTo {τ : Type} (a : Allocator) (t : τ) (n ptr : Nat)
    (w w' : World (τ × Nat) (Nat × Nat)) : Prop where
  added : ptr ∈ onList w' (0, n) ∨ ptr ∈ inCache w' (t, n)
  lists : ∀ m, m < a.numNodes → m ≠ n → onList w' (0, m) = onList w (0, m)
  caches : ∀ u m, m < a.numNodes → (u, m) ≠ (t, n) →
    inCache w' (u, m) = inCache w (u, m)

/-- The blocks of the nodes in a state between calls. -/
structure Unmixed {τ : Type} [DecidableEq τ] (a : Allocator) (s : State τ) : Prop where
  lists : ∀ n, n < a.numNodes → ∀ b ∈ onList s.world (0, n), BlockOf a n b
  caches : ∀ t n, n < a.numNodes → ∀ b ∈ inCache s.world (t, n), BlockOf a n b
  /-- Every block of every node is in one of the freelists and caches or live, once. -/
  once : Ledger (fun b => ∃ n, n < a.numNodes ∧ BlockOf a n b)
    (cell (fun n : Fin a.numNodes => onList s.world (0, n))
      (fun k : τ × Fin a.numNodes => inCache s.world (k.1, k.2)) s.live)
  /-- A live pointer goes back to the node whose region contains it. -/
  dealloc : ∀ t, ∀ ptr ∈ s.live, ∀ n, n < a.numNodes → (a.pools n).region ≤ ptr →
    ptr < (a.pools n).region + (a.pools n).regionSize →
    ∃ w', NumaAllocator.dealloc a s.world 0 t ptr = some w' ∧
      FreedTo a t n ptr s.world w'

section Ownership

variable {τ : Type} {a : Allocator} {next : Heap} {heads : Nat → TaggedPtr} {s : State τ}
variable {blockSz blocksPerNode batch : Nat}
variable {g : Nat × Nat → List Nat} {l : τ × Nat → List Nat}

theorem blockOf_iff (ha : a.Placed) {n b : Nat} (hn : n < a.numNodes)
    (hregion : (a.pools n).region ≠ 0) : BlockOf a n b ↔ b ∈ nodeBlocks a n := by
  have hplaced := ha.placed n hn hregion
  constructor
  · rintro ⟨⟨i, hi, rfl⟩, -, -⟩
    rw [nodeBlocks_of_granted hregion, mem_blocksOf]
    exact ⟨i, hi, (hplaced.indexToPtr_eq hi).symm⟩
  · intro hb
    obtain ⟨-, hlow, hhigh⟩ := ha.bounds hn hb
    obtain ⟨-, i, hi, rfl⟩ := mem_nodeBlocks hb
    exact ⟨⟨i, hi, hplaced.indexToPtr_eq hi⟩, hlow, hhigh⟩

/-- The region that contains a block is its own node's. -/
theorem eq_of_contains (ha : a.Placed) {n m b : Nat} (hn : n < a.numNodes)
    (hm : m < a.numNodes) (hregion : (a.pools n).region ≠ 0) (hb : b ∈ nodeBlocks a m)
    (hlow : (a.pools n).region ≤ b)
    (hhigh : b < (a.pools n).region + (a.pools n).regionSize) : m = n := by
  obtain ⟨hregion', hlow', hhigh'⟩ := ha.bounds hm hb
  have hpos := (ha.placed m hm hregion').blockPos
  by_contra hne
  rcases ha.apart m n hm hn hne hregion' hregion with hsep | hsep <;> omega

theorem tellable_of_granted (hgranted : ∀ n, n < a.numNodes → (a.pools n).region ≠ 0) :
    a.Tellable :=
  fun n _ hn _ hnull => (hgranted n hn hnull).elim

/-- The lists of nodes that do not exist are empty. -/
theorem Inv.node_lt (h : Inv a s g l) {k : τ × Nat} {b : Nat} (hb : b ∈ l k)
    (hrunning : s.world.exited k = none) : k.2 < a.numNodes := by
  cases hc : s.world.caches k with
  | none =>
      rw [h.owned.unused k hc hrunning] at hb
      cases hb
  | some c =>
      by_contra hlt
      have hglobal := h.bound k c hc
      have hforeign : ¬ (instanceOf 0 a).pool c.global := by
        rw [hglobal]
        exact fun hpool => hlt hpool.2
      rw [h.owned.other k c hc hforeign] at hb
      cases hb

/-- Where a block can be, with the nodes of this object for the pools. -/
private def place {N : Nat} : Place (τ × Fin N) (Fin N) → Place (τ × Nat) (Nat × Nat)
  | .global n => .global (0, n)
  | .cache k => .cache (k.1, k.2)
  | .user => .user

private theorem place_injective {N : Nat} :
    Function.Injective (place : Place (τ × Fin N) (Fin N) → Place (τ × Nat) (Nat × Nat)) := by
  intro x y hxy
  cases x with
  | global n =>
      cases y with
      | global m =>
          simp only [place, Place.global.injEq, Prod.mk.injEq, true_and] at hxy
          rw [Fin.ext hxy]
      | cache k => cases hxy
      | user => cases hxy
  | cache k =>
      cases y with
      | global m => cases hxy
      | cache j =>
          simp only [place, Place.cache.injEq, Prod.mk.injEq] at hxy
          rw [Prod.ext hxy.1 (Fin.ext hxy.2)]
      | user => cases hxy
  | user =>
      cases y with
      | global m => cases hxy
      | cache j => cases hxy
      | user => rfl

theorem Inv.once (ha : a.Placed) (h : Inv a s g l)
    (hgranted : ∀ n, n < a.numNodes → (a.pools n).region ≠ 0)
    (hrunning : ∀ k, s.world.exited k = none) :
    Ledger (fun b => ∃ n, n < a.numNodes ∧ BlockOf a n b)
      (cell (fun n : Fin a.numNodes => onList s.world (0, n))
        (fun k : τ × Fin a.numNodes => inCache s.world (k.1, k.2)) s.live) := by
  have hcell : cell (fun n : Fin a.numNodes => onList s.world (0, n))
      (fun k : τ × Fin a.numNodes => inCache s.world (k.1, k.2)) s.live =
        fun j => cell g l s.live (place j) := by
    funext j
    cases j with
    | global n => exact h.onList_eq n.isLt
    | cache k => exact h.inCache_eq k.2.isLt (hrunning _)
    | user => rfl
  have hblock : (fun b => ∃ n, n < a.numNodes ∧ BlockOf a n b) =
      (instanceOf 0 a).block := by
    funext b
    refine propext (exists_congr fun n => and_congr_right fun hn => ?_)
    exact blockOf_iff ha hn (hgranted n hn)
  rw [hcell, hblock]
  refine h.owned.ledger.reindex place place_injective fun k b hb => ?_
  cases k with
  | global p =>
      by_cases hp : (instanceOf 0 a).pool p
      · exact ⟨.global ⟨p.2, hp.2⟩, congrArg Place.global (Prod.ext hp.1.symm rfl)⟩
      · have hnone : b ∈ g p := hb
        rw [h.owned.foreign p hp] at hnone
        cases hnone
  | cache k => exact ⟨.cache (k.1, ⟨k.2, Inv.node_lt h hb (hrunning k)⟩), rfl⟩
  | user => exact ⟨.user, rfl⟩

variable [DecidableEq τ]

/-- A live pointer goes to the lists of the node that contains it and nowhere else. -/
theorem Inv.freedTo (ha : a.Placed) (h : Inv a s g l)
    (hgranted : ∀ n, n < a.numNodes → (a.pools n).region ≠ 0) {t : τ}
    (ht : s.world.exited (t, 0) = none) {ptr n : Nat} (hlive : ptr ∈ s.live)
    (hn : n < a.numNodes) (hlow : (a.pools n).region ≤ ptr)
    (hhigh : ptr < (a.pools n).region + (a.pools n).regionSize) :
    ∃ w', NumaAllocator.dealloc a s.world 0 t ptr = some w' ∧
      FreedTo a t n ptr s.world w' := by
  obtain ⟨m, hm, hb⟩ := h.owned.block_of_live hlive
  obtain rfl : m = n := eq_of_contains ha hn hm (hgranted n hn) hb hlow hhigh
  have howner : ownerNode a ptr = m :=
    ownerNode_eq ha (tellable_of_granted hgranted) hm hb
  have hpool : (instanceOf 0 a).pool (0, m) := ⟨rfl, hm⟩
  obtain ⟨w', hrun, hinv, hcalled⟩ := h.owned.deallocTo hpool (h.available ht m) hlive
  refine ⟨w', ?_, hinv.freed hpool hcalled, fun j hj hne => ?_, fun u j hj hne => ?_⟩
  · rw [NumaAllocator.dealloc, howner, ha.batch m hm]
    exact hrun
  · rw [hinv.onList_eq (p := (0, j)) ⟨rfl, hj⟩, h.onList_eq hj]
    exact Function.update_of_ne (by simpa using hne) _ _
  · refine h.inCache_same hinv hj (hcalled.caches (u, j) hne) ?_
    exact Function.update_of_ne hne _ _

/-- Only the end of a thread changes what is recorded of ended threads. -/
theorem Inv.exited_step (ha : a.Placed) (h : Inv a s g l) {s' : State τ} {e : Event τ}
    (hgoes : GoesOn e) (hstep : exec a s e = some s') :
    s'.world.exited = s.world.exited := by
  cases e with
  | alloc t currentNode =>
      simp only [exec] at hstep
      split at hstep
      · next ht =>
          obtain ⟨r, w', _, _, hrun, -, htouch, -⟩ := h.alloc ha ht currentNode
          rw [hrun, Option.map_some, Option.some.injEq] at hstep
          exact hstep ▸ htouch.exited
      · cases hstep
  | dealloc t ptr =>
      simp only [exec] at hstep
      split at hstep
      · next ht =>
          obtain ⟨w', _, _, hrun, -, htouch, -⟩ := NumaAllocator.dealloc_spec ha h.owned
            ht.2 (h.available ht.1 (ownerNode a ptr))
          rw [hrun, Option.map_some, Option.some.injEq] at hstep
          exact hstep ▸ htouch.exited
      · cases hstep
  | write b v =>
      simp only [exec] at hstep
      split at hstep
      · cases hstep
        rfl
      · cases hstep
  | exit t => exact hgoes.elim

/-- The pools never mix, whatever nodes the threads run on. -/
theorem pools_unmixed (blockSz blocksPerNode batch : Nat) (a : Allocator) (next : Heap)
    (heads : Nat → TaggedPtr) (ha : Constructed blockSz blocksPerNode batch a next heads)
    (hgranted : ∀ n, n < a.numNodes → (a.pools n).region ≠ 0) (s : State τ)
    (hs : Reachable (restrict (calls a next heads) fun _ e => GoesOn e) s) :
    Unmixed a s := by
  obtain ⟨hplaced, -⟩ := ha.placed
  obtain ⟨g, l, h⟩ := inv_of_reachable ha hs.of_restrict
  have hrunning : ∀ k, s.world.exited k = none := by
    have hboth : (∃ g l, Inv a s g l) ∧ ∀ k, s.world.exited k = none := by
      refine hs.invariant (P := fun s => (∃ g l, Inv a s g l) ∧
        ∀ k, s.world.exited k = none) ?_ ?_
      · rintro s hinit
        exact ⟨inv_of_reachable ha (.init hinit), fun k => hinit ▸ rfl⟩
      · rintro s e s' - ⟨⟨g, l, h⟩, hrunning⟩ ⟨hgoes, hstep⟩
        refine ⟨h.step hplaced hstep, fun k => ?_⟩
        rw [Inv.exited_step hplaced h hgoes hstep]
        exact hrunning k
    exact hboth.2
  have hhome := h.home (tellable_of_granted hgranted)
  exact
    { lists := fun n hn b hb => by
        rw [h.onList_eq hn] at hb
        exact (blockOf_iff hplaced hn (hgranted n hn)).mpr (hhome.1 n b hb)
      caches := fun t n hn b hb => by
        rw [h.inCache_eq hn (hrunning (t, 0))] at hb
        exact (blockOf_iff hplaced hn (hgranted n hn)).mpr (hhome.2 (t, n) b hb)
      once := Inv.once hplaced h hgranted hrunning
      dealloc := fun t ptr hlive n hn hlow hhigh =>
        Inv.freedTo hplaced h hgranted (hrunning (t, 0)) hlive hn hlow hhigh }

/-- Two nodes, after a thread on node 1 has allocated and a thread on node 0 has freed. -/
theorem pools_unmixed_numaPool3 : ∃ s : State Nat,
    replay (exec numaPool3.1) (start numaPool3.2.1 numaPool3.2.2)
      [.alloc 7 1, .dealloc 3 8320] = some s ∧ Unmixed numaPool3.1 s := by
  refine ⟨_, rfl, pools_unmixed 48 3 2 numaPool3.1 numaPool3.2.1 numaPool3.2.2
    numaPool3_constructed ?_ _ (Reachable.replay_restrict [.alloc 7 1, .dealloc 3 8320]
      (.init rfl) ?_ rfl)⟩
  · intro n _
    show 4096 * (n + 1) ≠ 0
    omega
  · exact ⟨trivial, trivial, trivial⟩

end Ownership

end PoolMemalloc.Ports.NumaOwnership
