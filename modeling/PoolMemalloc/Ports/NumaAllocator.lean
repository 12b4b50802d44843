import PoolMemalloc.Ports.CacheWorld
import PoolMemalloc.Ports.TlFreelistAllocator

/-!
# `NumaAllocator`

One pool per NUMA node, and per thread one `ThreadCache` for each node, found by the
pair of thread and node.  A pool is known by the pair of instance and node.

A node whose memory was refused keeps an empty pool (`nodeBlocks`).  `alloc_spec` and
`dealloc_spec` are whole calls: they keep `Instance.Inv` as long as every cache they
come to is on this instance, and `alloc` returns null only if neither the caches of
the thread nor the pools have a block.
-/

namespace PoolMemalloc.Ports.NumaAllocator

open PoolMemalloc.Verified.SizeT
open PoolMemalloc.Verified.LinkedChain
open PoolMemalloc.Verified.Conservation
open PoolMemalloc.Ports.BlockArray
open PoolMemalloc.Ports.FreelistAllocator
open PoolMemalloc.Ports.ThreadCache (refilled flushed refilled_perm flushed_perm)
open PoolMemalloc.Ports.TlFreelistAllocator (alignUp cacheLine atLeastFreeBlock seed
  blocksOf mem_blocksOf nodup_blocksOf seed_chain seed_of_notMem alignUp_eq
  atLeastFreeBlock_pos)
open PoolMemalloc.Ports.CacheWorld

/-- `MAX_NODES`. -/
def maxNodes : Nat := 16

/-- `numa::node_count`: the directories `node0`, `node1`, … there are, up to the first
that is missing, and 1 if there is none. -/
def nodeCount (isNode : Nat → Bool) : Nat :=
  let count := ((List.range 256).takeWhile isNode).length
  if count > 0 then count else 1

/-- A `NumaPool`, apart from its `global`. -/
structure NumaPool where
  region : Nat
  regionSize : Nat
  blockSize : Nat
  blockCount : Nat
  batchSize : Nat
  deriving Repr, DecidableEq

/-- Only the pools below `numNodes` are used. -/
structure Allocator where
  pools : Nat → NumaPool
  numNodes : Nat
  blockSize : Nat

/-- The constructor's loop over the nodes below `n`, on the heap and the heads of the
global lists. -/
def seedNodes (pools : Nat → NumaPool) (next : Heap) : Nat → Heap × (Nat → TaggedPtr)
  | 0 => (next, fun _ => ⟨0, 0⟩)
  | n + 1 =>
      let done := seedNodes pools next n
      if (pools n).region = 0 then done
      else
        let seeded :=
          seed (pools n).region (pools n).blockSize done.1 (pools n).blockCount
        (seeded.1, Function.update done.2 n seeded.2)

/-- The constructor; `allocOnNode` is what `numa::alloc_on_node` returns for a size and
a node, 0 on failure. -/
def construct (allocOnNode : Nat → Nat → Nat) (isNode : Nat → Bool) (next : Heap)
    (blockSz blocksPerNode batch : Nat) : Allocator × Heap × (Nat → TaggedPtr) :=
  let nodes := nodeCount isNode
  let numNodes := if nodes > maxNodes then maxNodes else nodes
  let blockSize := alignUp (atLeastFreeBlock blockSz) cacheLine
  let regionSize := wrap (blockSize * blocksPerNode)
  let pools := fun n =>
    { region := allocOnNode regionSize n
      regionSize := regionSize
      blockSize := blockSize
      blockCount := blocksPerNode
      batchSize := batch }
  ({ pools := pools, numNodes := numNodes, blockSize := blockSize },
    seedNodes pools next numNodes)

/-- The first pool whose region has the address, or pool 0. -/
def ownerNode (a : Allocator) (addr : Nat) : Nat :=
  ((List.range a.numNodes).find? fun n =>
    addr ≥ (a.pools n).region ∧
      addr < wrap ((a.pools n).region + (a.pools n).regionSize)).getD 0

section Calls

variable {τ : Type} [DecidableEq τ]

/-- Thread `t` tries its caches for the nodes in order. -/
def tryNodes (a : Allocator) (i : Nat) (t : τ) :
    List Nat → World (τ × Nat) (Nat × Nat) →
      Option (Nat × World (τ × Nat) (Nat × Nat))
  | [], w => some (0, w)
  | n :: rest, w =>
      (allocFrom w (t, n) (i, n) (a.pools n).batchSize).bind fun r =>
        if r.1 ≠ 0 then some r else tryNodes a i t rest r.2

/-- The nodes in the order in which `alloc` tries them. -/
def nodeOrder (a : Allocator) (currentNode : Nat) : List Nat :=
  let node := if currentNode ≥ a.numNodes then 0 else currentNode
  node :: (List.range a.numNodes).filter fun n => n ≠ node

/-- `alloc` of instance `i` on thread `t`, which runs on node `currentNode`. -/
def alloc (a : Allocator) (w : World (τ × Nat) (Nat × Nat)) (i : Nat) (t : τ)
    (currentNode : Nat) : Option (Nat × World (τ × Nat) (Nat × Nat)) :=
  tryNodes a i t (nodeOrder a currentNode) w

def dealloc (a : Allocator) (w : World (τ × Nat) (Nat × Nat)) (i : Nat) (t : τ)
    (ptr : Nat) : Option (World (τ × Nat) (Nat × Nat)) :=
  let node := ownerNode a ptr
  deallocTo w (t, node) (i, node) (a.pools node).batchSize ptr

end Calls

/-! ## The blocks of an allocator -/

def nodeBlocks (a : Allocator) (n : Nat) : List Nat :=
  if (a.pools n).region = 0 then []
  else blocksOf (a.pools n).blockSize (a.pools n).region (a.pools n).blockCount

/-- Instance `i`, which is the allocator `a`. -/
def instanceOf (i : Nat) (a : Allocator) : Instance (Nat × Nat) where
  pool p := p.1 = i ∧ p.2 < a.numNodes
  block b := ∃ n, n < a.numNodes ∧ b ∈ nodeBlocks a n
  batch := (a.pools 0).batchSize

/-- There is a node; each region that was granted has room for its blocks, and no two
of them overlap. -/
structure Allocator.Placed (a : Allocator) : Prop where
  nodes : 0 < a.numNodes
  batch : ∀ n, n < a.numNodes → (a.pools n).batchSize = (a.pools 0).batchSize
  extent : ∀ n, n < a.numNodes →
    (a.pools n).regionSize = (a.pools n).blockCount * (a.pools n).blockSize
  placed : ∀ n, n < a.numNodes → (a.pools n).region ≠ 0 →
    BlockArray.Placed (a.pools n).blockSize (a.pools n).region (a.pools n).blockCount
  apart : ∀ n m, n < a.numNodes → m < a.numNodes → n ≠ m →
    (a.pools n).region ≠ 0 → (a.pools m).region ≠ 0 →
      (a.pools n).region + (a.pools n).regionSize ≤ (a.pools m).region ∨
        (a.pools m).region + (a.pools m).regionSize ≤ (a.pools n).region

section Blocks

variable {a : Allocator} {n m b : Nat}

theorem mem_nodeBlocks (hb : b ∈ nodeBlocks a n) :
    (a.pools n).region ≠ 0 ∧ ∃ i, i < (a.pools n).blockCount ∧
      b = indexToPtr (a.pools n).blockSize (a.pools n).region i := by
  unfold nodeBlocks at hb
  split at hb
  · cases hb
  · next hregion => exact ⟨hregion, mem_blocksOf.mp hb⟩

/-- A block is inside the region of its node. -/
theorem Allocator.Placed.bounds (h : a.Placed) (hn : n < a.numNodes)
    (hb : b ∈ nodeBlocks a n) :
    (a.pools n).region ≠ 0 ∧ (a.pools n).region ≤ b ∧
      b + (a.pools n).blockSize ≤ (a.pools n).region + (a.pools n).regionSize := by
  obtain ⟨hregion, i, hi, rfl⟩ := mem_nodeBlocks hb
  rw [h.extent n hn]
  exact ⟨hregion, (h.placed n hn hregion).indexToPtr_bounds hi⟩

theorem Allocator.Placed.address (h : a.Placed) (hn : n < a.numNodes)
    (hb : b ∈ nodeBlocks a n) : b ≠ 0 ∧ b < 2 ^ 64 := by
  obtain ⟨hregion, i, hi, rfl⟩ := mem_nodeBlocks hb
  exact ⟨(h.placed n hn hregion).indexToPtr_ne_zero hi, wrap_lt _⟩

theorem Allocator.Placed.nodup (h : a.Placed) (hn : n < a.numNodes) :
    (nodeBlocks a n).Nodup := by
  unfold nodeBlocks
  split
  · exact List.nodup_nil
  · next hregion => exact nodup_blocksOf (h.placed n hn hregion)

theorem Allocator.Placed.disjoint (h : a.Placed) (hn : n < a.numNodes)
    (hm : m < a.numNodes) (hne : n ≠ m) (hb : b ∈ nodeBlocks a n) :
    b ∉ nodeBlocks a m := by
  intro hb'
  obtain ⟨hregion, hlow, hhigh⟩ := h.bounds hn hb
  obtain ⟨hregion', hlow', hhigh'⟩ := h.bounds hm hb'
  have hpos := (h.placed n hn hregion).blockPos
  have hpos' := (h.placed m hm hregion').blockPos
  rcases h.apart n m hn hm hne hregion hregion' with hsep | hsep <;> omega

theorem ownerNode_lt (h : a.Placed) (addr : Nat) : ownerNode a addr < a.numNodes := by
  unfold ownerNode
  cases hfind : (List.range a.numNodes).find? fun n =>
      addr ≥ (a.pools n).region ∧
        addr < wrap ((a.pools n).region + (a.pools n).regionSize) with
  | none => exact h.nodes
  | some n => exact List.mem_range.mp (List.mem_of_find?_eq_some hfind)

/-- No block has an address that the range of a refused region, from 0 on, includes. -/
def Allocator.Tellable (a : Allocator) : Prop :=
  ∀ n m, n < a.numNodes → m < a.numNodes → (a.pools n).region = 0 →
    (a.pools m).region ≠ 0 → (a.pools n).regionSize ≤ (a.pools m).region

/-- Then `owner_node` finds the node of a block. -/
theorem ownerNode_eq (h : a.Placed) (htell : a.Tellable) (hn : n < a.numNodes)
    (hb : b ∈ nodeBlocks a n) : ownerNode a b = n := by
  obtain ⟨hregion, hlow, hhigh⟩ := h.bounds hn hb
  have hpos := (h.placed n hn hregion).blockPos
  have hwrap : ∀ m, m < a.numNodes → (a.pools m).region ≠ 0 →
      wrap ((a.pools m).region + (a.pools m).regionSize) =
        (a.pools m).region + (a.pools m).regionSize := by
    intro m hm hm'
    have hfits := (h.placed m hm hm').fits
    rw [h.extent m hm, wrap_of_lt hfits]
  unfold ownerNode
  cases hfind : (List.range a.numNodes).find? fun n =>
      b ≥ (a.pools n).region ∧
        b < wrap ((a.pools n).region + (a.pools n).regionSize) with
  | none =>
      have hmiss := List.find?_eq_none.mp hfind n (List.mem_range.mpr hn)
      rw [hwrap n hn hregion] at hmiss
      simp only [decide_eq_true_eq] at hmiss
      omega
  | some m =>
      have hm := List.mem_range.mp (List.mem_of_find?_eq_some hfind)
      have hrange := List.find?_some hfind
      simp only [decide_eq_true_eq] at hrange
      show m = n
      by_contra hne
      by_cases hnull : (a.pools m).region = 0
      · have htold := htell m n hm hn hnull hregion
        have hle := Nat.mod_le (0 + (a.pools m).regionSize) (2 ^ 64)
        rw [hnull] at hrange
        unfold wrap at hrange
        omega
      · rw [hwrap m hm hnull] at hrange
        rcases h.apart n m hn hm (Ne.symm hne) hregion hnull with hsep | hsep <;> omega

theorem mem_nodeOrder (h : a.Placed) {currentNode : Nat} :
    n ∈ nodeOrder a currentNode ↔ n < a.numNodes := by
  have hpos := h.nodes
  simp only [nodeOrder, List.mem_cons, List.mem_filter, List.mem_range, decide_eq_true_eq]
  split <;> omega

theorem nodup_nodeOrder (a : Allocator) (currentNode : Nat) :
    (nodeOrder a currentNode).Nodup :=
  List.nodup_cons.mpr ⟨by simp, List.nodup_range.filter _⟩

end Blocks

/-! ## The constructor -/

section Seeding

variable {a : Allocator}

theorem nodeBlocks_of_null {n : Nat} (h : (a.pools n).region = 0) : nodeBlocks a n = [] :=
  if_pos h

theorem nodeBlocks_of_granted {n : Nat} (h : (a.pools n).region ≠ 0) :
    nodeBlocks a n =
      blocksOf (a.pools n).blockSize (a.pools n).region (a.pools n).blockCount :=
  if_neg h

/-- Seeding writes only into the blocks. -/
theorem seedNodes_of_notMem (next : Heap) {b : Nat} : ∀ m,
    (∀ n, n < m → b ∉ nodeBlocks a n) → (seedNodes a.pools next m).1 b = next b := by
  intro m
  induction m with
  | zero => exact fun _ => rfl
  | succ m ih =>
      intro hb
      have hearlier := ih fun n hn => hb n (Nat.lt_succ_of_lt hn)
      have hown := hb m (Nat.lt_succ_self m)
      simp only [seedNodes]
      split
      · exact hearlier
      · next hregion =>
          rw [nodeBlocks_of_granted hregion] at hown
          exact (seed_of_notMem _ hown).trans hearlier

/-- Nodes that are not seeded yet have an empty list. -/
theorem seedNodes_later (next : Heap) {n : Nat} : ∀ m, m ≤ n →
    (seedNodes a.pools next m).2 n = ⟨0, 0⟩ := by
  intro m
  induction m with
  | zero => exact fun _ => rfl
  | succ m ih =>
      intro hle
      simp only [seedNodes]
      split
      · exact ih (by omega)
      · exact (Function.update_of_ne (by omega) _ _).trans (ih (by omega))

/-- After the loop every node's list has the blocks of the node. -/
theorem seedNodes_chain (ha : a.Placed) (next : Heap) : ∀ m, m ≤ a.numNodes →
    ∀ n, n < m → Chain 0 (seedNodes a.pools next m).1
      ((seedNodes a.pools next m).2 n).ptr (nodeBlocks a n).reverse := by
  intro m
  induction m with
  | zero => exact fun _ n hn => absurd hn (Nat.not_lt_zero n)
  | succ m ih =>
      intro hm n hn
      simp only [seedNodes]
      by_cases hregion : (a.pools m).region = 0
      · rw [if_pos hregion]
        rcases Nat.lt_succ_iff_lt_or_eq.mp hn with hn | rfl
        · exact ih (by omega) n hn
        · rw [nodeBlocks_of_null hregion, seedNodes_later next n (Nat.le_refl n)]
          rfl
      · simp only [if_neg hregion]
        rcases Nat.lt_succ_iff_lt_or_eq.mp hn with hn | rfl
        · -- the list of an earlier node is not written to
          have hne : n ≠ m := by omega
          rw [Function.update_of_ne hne]
          refine Segment.congr (fun b hb => seed_of_notMem _ ?_) (ih (by omega) n hn)
          rw [← nodeBlocks_of_granted hregion]
          exact ha.disjoint (by omega) (by omega) (by omega) (List.mem_reverse.mp hb)
        · rw [Function.update_self, nodeBlocks_of_granted hregion]
          exact seed_chain _ (ha.placed n hm hregion) _ (Nat.le_refl _)

/-- What `alloc_on_node` promises about the regions of one constructor call: those that
are not null are aligned, end inside the address space and do not overlap. -/
def OnNodes (regions : Nat → Nat) (bytes nodes : Nat) : Prop :=
  ∀ n, n < nodes → regions n ≠ 0 →
    64 ∣ regions n ∧ regions n + bytes < 2 ^ 64 ∧
      ∀ m, m < nodes → m ≠ n → regions m ≠ 0 →
        regions n + bytes ≤ regions m ∨ regions m + bytes ≤ regions n

set_option synthInstance.maxSize 256 in
instance (regions : Nat → Nat) (bytes nodes : Nat) :
    Decidable (OnNodes regions bytes nodes) :=
  inferInstanceAs (Decidable (∀ n, n < nodes → regions n ≠ 0 →
    64 ∣ regions n ∧ regions n + bytes < 2 ^ 64 ∧
      ∀ m, m < nodes → m ≠ n → regions m ≠ 0 →
        regions n + bytes ≤ regions m ∨ regions m + bytes ≤ regions n))

theorem nodeCount_pos (isNode : Nat → Bool) : 0 < nodeCount isNode := by
  unfold nodeCount
  simp only
  split <;> omega

variable {blockSz blocksPerNode batch : Nat} {allocOnNode : Nat → Nat → Nat}
variable {isNode : Nat → Bool} {next next' : Heap} {heads : Nat → TaggedPtr}

/-- The constructor, for sizes that do not wrap. -/
theorem construct_placed (hsizes : SizesFit (atLeastFreeBlock blockSz) blocksPerNode)
    (hmade : construct allocOnNode isNode next blockSz blocksPerNode batch =
      (a, next', heads))
    (hregions : OnNodes (fun n => (a.pools n).region) (a.pools 0).regionSize
      a.numNodes) :
    a.Placed ∧ (next', heads) = seedNodes a.pools next a.numNodes := by
  unfold construct at hmade
  rw [Prod.mk.injEq] at hmade
  obtain ⟨rfl, hseeded⟩ := hmade
  refine ⟨?_, hseeded.symm⟩
  have hpos := nodeCount_pos isNode
  have hsize := atLeastFreeBlock_pos blockSz
  have hround := le_roundUp64 hsizes.1
  have hextent := wrap_of_lt hsizes.2
  simp only [alignUp_eq, hextent] at hregions ⊢
  exact
    { nodes := by
        show 0 < if nodeCount isNode > maxNodes then maxNodes else nodeCount isNode
        unfold maxNodes
        split <;> omega
      batch := fun _ _ => rfl
      extent := fun n _ => Nat.mul_comm _ _
      placed := fun n hn hregion =>
        { blockPos := Nat.lt_of_lt_of_le hsize hround
          memoryPos := Nat.pos_of_ne_zero hregion
          fits := by
            have hend := (hregions n hn hregion).2.1
            rwa [Nat.mul_comm blocksPerNode] }
      apart := fun n m hn hm hne hregion hregion' =>
        (hregions n hn hregion).2.2 m hm (Ne.symm hne) hregion' }

/-- Right after the constructor, in a world where no cache is on the instance. -/
theorem constructed_inv {τ : Type} [DecidableEq τ] {i : Nat}
    {w : World (τ × Nat) (Nat × Nat)} (ha : a.Placed)
    (hseeded : (next', heads) = seedNodes a.pools next a.numNodes)
    (hnext : w.next = next') (hheads : ∀ n, w.globals (i, n) = heads n)
    (hcaches : ∀ k c, w.caches k = some c → c.global.1 ≠ i)
    (hexited : ∀ k held, w.exited k = some held → w.caches k = none) :
    (instanceOf i a).Inv w []
      (fun p => if p.1 = i ∧ p.2 < a.numNodes then (nodeBlocks a p.2).reverse else [])
      fun _ => [] where
  address b hb := by
    obtain ⟨n, hn, hb⟩ := hb
    exact ha.address hn hb
  global p hp := by
    obtain ⟨j, n⟩ := p
    obtain ⟨rfl, hn⟩ := hp
    rw [if_pos ⟨rfl, hn⟩, hnext, hheads n]
    have hchain := seedNodes_chain ha next a.numNodes (Nat.le_refl _) n hn
    rwa [← hseeded] at hchain
  foreign p hp := if_neg hp
  bound k c hc hp := (hcaches k c hc hp.1).elim
  other _ _ _ _ := rfl
  unused _ _ _ := rfl
  gone k held hk := ⟨hexited k held hk, fun _ hb => nomatch hb⟩
  ledger :=
    { nodup := fun j => by
        cases j with
        | global p =>
            simp only [cell]
            split
            · next hp => exact List.nodup_reverse.mpr (ha.nodup hp.2)
            · exact List.nodup_nil
        | cache k => exact List.nodup_nil
        | user => exact List.nodup_nil
      only := fun x y b hx hy => by
        cases x with
        | cache k => cases hx
        | user => cases hx
        | global p =>
            cases y with
            | cache k => cases hy
            | user => cases hy
            | global q =>
                simp only [cell] at hx hy
                split at hx
                · split at hy
                  · next hp hq =>
                      by_contra hne
                      have hnodes : p.2 ≠ q.2 := fun heq =>
                        hne (congrArg Place.global (Prod.ext (hp.1.trans hq.1.symm) heq))
                      exact ha.disjoint hp.2 hq.2 hnodes (List.mem_reverse.mp hx)
                        (List.mem_reverse.mp hy)
                  · cases hy
                · cases hx
      mem := fun b => by
        constructor
        · rintro ⟨n, hn, hb⟩
          refine ⟨.global (i, n), ?_⟩
          simpa only [cell, hn, and_self, if_true, List.mem_reverse] using hb
        · rintro ⟨x, hx⟩
          cases x with
          | cache k => cases hx
          | user => cases hx
          | global p =>
              simp only [cell] at hx
              split at hx
              · next hp => exact ⟨p.2, hp.2, List.mem_reverse.mp hx⟩
              · cases hx }

end Seeding

/-! ## Calls -/

section Specifications

variable {τ : Type} [DecidableEq τ] {a : Allocator} {i : Nat} {t : τ}
variable {w : World (τ × Nat) (Nat × Nat)} {live : List Nat}
variable {g : Nat × Nat → List Nat} {l : τ × Nat → List Nat}

/-- The caches that `alloc` comes to, up to the first that yields a block, are on this
instance or on none. -/
def Usable (a : Allocator) (i : Nat) (t : τ) (w : World (τ × Nat) (Nat × Nat)) :
    List Nat → Prop
  | [] => True
  | n :: rest =>
      Available w (t, n) (i, n) ∧
        (Dry w (t, n) (i, n) (a.pools n).batchSize → Usable a i t w rest)

instance decidableUsable (a : Allocator) (i : Nat) (t : τ)
    (w : World (τ × Nat) (Nat × Nat)) : ∀ order, Decidable (Usable a i t w order)
  | [] => isTrue trivial
  | n :: rest =>
      have := decidableUsable a i t w rest
      inferInstanceAs (Decidable (Available w (t, n) (i, n) ∧
        (Dry w (t, n) (i, n) (a.pools n).batchSize → Usable a i t w rest)))

omit [DecidableEq τ] in
theorem Usable.congr {w' : World (τ × Nat) (Nat × Nat)} {order : List Nat}
    (hsame : ∀ n ∈ order, w'.caches (t, n) = w.caches (t, n) ∧
      w'.globals (i, n) = w.globals (i, n))
    (hexited : w'.exited = w.exited) (h : Usable a i t w order) :
    Usable a i t w' order := by
  induction order with
  | nil => trivial
  | cons n rest ih =>
      obtain ⟨⟨hrunning, hbound⟩, hrest⟩ := h
      obtain ⟨hcache, hglobal⟩ := hsame n List.mem_cons_self
      refine ⟨⟨hexited ▸ hrunning, hcache ▸ hbound⟩, fun hdry => ?_⟩
      refine ih (fun m hm => hsame m (List.mem_cons_of_mem n hm)) (hrest ?_)
      unfold Dry getCache at hdry ⊢
      rwa [hcache, hglobal] at hdry

/-- What a call of thread `t` on instance `i` does to the caches: each is unchanged, or
it is the thread's own and on its node's pool of this instance. -/
def Binds (i : Nat) (t : τ) (w w' : World (τ × Nat) (Nat × Nat)) : Prop :=
  ∀ k, w'.caches k = w.caches k ∨
    (k.1 = t ∧ ∃ c, w'.caches k = some c ∧ c.global = (i, k.2))

theorem Binds.of_called {A : Instance (Nat × Nat)} {w' : World (τ × Nat) (Nat × Nat)}
    {n : Nat} (h : A.Called (t, n) (i, n) w w') : Binds i t w w' := by
  intro k
  by_cases hk : k = (t, n)
  · subst hk
    exact .inr ⟨rfl, h.bound⟩
  · exact .inl (h.caches k hk)

omit [DecidableEq τ] in
theorem Binds.trans {w' w'' : World (τ × Nat) (Nat × Nat)} (h : Binds i t w w')
    (h' : Binds i t w' w'') : Binds i t w w'' := by
  intro k
  rcases h' k with hsame | hbound
  · exact hsame ▸ h k
  · exact .inr hbound

/-- Every list and every cache holds only blocks of its own node. -/
def Home (a : Allocator) (i : Nat) (g : Nat × Nat → List Nat)
    (l : τ × Nat → List Nat) : Prop :=
  (∀ n, ∀ b ∈ g (i, n), b ∈ nodeBlocks a n) ∧ ∀ k, ∀ b ∈ l k, b ∈ nodeBlocks a k.2

omit [DecidableEq τ] in
/-- The constructor puts the blocks where they belong. -/
theorem constructed_home (a : Allocator) (i : Nat) :
    Home a i
      (fun p => if p.1 = i ∧ p.2 < a.numNodes then (nodeBlocks a p.2).reverse else [])
      (fun _ : τ × Nat => []) := by
  constructor
  · intro n b hb
    simp only at hb
    split at hb
    · exact List.mem_reverse.mp hb
    · cases hb
  · exact fun _ _ hb => nomatch hb

/-- A call on node `n` that leaves the lists `gs` and `ls`. -/
theorem Home.update (h : Home a i g l) {n : Nat} {gs ls : List Nat}
    (hmem : ∀ b ∈ gs ++ ls, b ∈ nodeBlocks a n) :
    Home a i (Function.update g (i, n) gs) (Function.update l (t, n) ls) := by
  constructor
  · intro m b hb
    by_cases hm : m = n
    · subst hm
      rw [Function.update_self] at hb
      exact hmem b (List.mem_append_left ls hb)
    · rw [Function.update_of_ne (by simpa using hm)] at hb
      exact h.1 m b hb
  · intro k b hb
    by_cases hk : k = (t, n)
    · subst hk
      rw [Function.update_self] at hb
      exact hmem b (List.mem_append_right gs hb)
    · rw [Function.update_of_ne hk] at hb
      exact h.2 k b hb

omit [DecidableEq τ] in
/-- The lists of one node. -/
theorem Home.append (h : Home a i g l) {n b : Nat} (hb : b ∈ g (i, n) ++ l (t, n)) :
    b ∈ nodeBlocks a n := by
  rcases List.mem_append.mp hb with hb | hb
  · exact h.1 n b hb
  · exact h.2 (t, n) b hb

/-- A run of the loop over the nodes that remain. -/
theorem tryNodes_spec (ha : a.Placed) (order : List Nat) (hnodup : order.Nodup)
    (horder : ∀ n ∈ order, n < a.numNodes) (h : (instanceOf i a).Inv w live g l)
    (husable : Usable a i t w order) :
    ∃ r w' g' l', tryNodes a i t order w = some (r, w') ∧
      (instanceOf i a).Inv w' (granted r live) g' l' ∧
      (instanceOf i a).OnlyTouches w w' ∧ Binds i t w w' ∧
      (Home a i g l → Home a i g' l') ∧
      (r = 0 → ∀ n ∈ order, l (t, n) = [] ∧ g (i, n) = []) := by
  induction order generalizing w with
  | nil =>
      exact ⟨0, w, g, l, rfl, h, .refl _ w, fun _ => .inl rfl, id,
        fun _ n hn => nomatch hn⟩
  | cons n rest ih =>
      obtain ⟨havailable, hrest⟩ := husable
      have hn := horder n List.mem_cons_self
      have hpool : (instanceOf i a).pool (i, n) := ⟨rfl, hn⟩
      have hbatch : (a.pools n).batchSize = (instanceOf i a).batch := ha.batch n hn
      by_cases hblock : l (t, n) = [] ∧ g (i, n) = []
      · -- nothing moves, and the loop goes on
        obtain ⟨w₁, hrun, hsame, hcalled⟩ :=
          h.allocFrom_dry hpool havailable hblock.1 hblock.2
        have hdry : Dry w (t, n) (i, n) (a.pools n).batchSize := by
          rw [hbatch]
          exact (h.dry_iff hpool havailable).mpr hblock
        obtain ⟨hnotMem, hnodup⟩ := List.nodup_cons.mp hnodup
        have hkeep : Usable a i t w₁ rest := by
          refine (hrest hdry).congr (fun m hm => ?_) hcalled.exited
          have hne : m ≠ n := fun heq => hnotMem (heq ▸ hm)
          exact ⟨hcalled.caches _ (by simpa using hne),
            hcalled.globals _ (by simpa using hne)⟩
        obtain ⟨r, w', g', l', hloop, hfinal, htouch, hbinds, hhome, hempty⟩ :=
          ih hnodup (fun m hm => horder m (List.mem_cons_of_mem n hm)) hsame hkeep
        refine ⟨r, w', g', l', ?_, hfinal,
          (hcalled.onlyTouches hpool havailable).trans htouch,
          (Binds.of_called hcalled).trans hbinds, hhome, fun hr m hm => ?_⟩
        · rw [tryNodes, hbatch, hrun, Option.bind_some, if_neg (not_not_intro rfl), hloop]
        · rcases List.mem_cons.mp hm with rfl | hm
          · exact hblock
          · exact hempty hr m hm
      · obtain ⟨r, w₁, gs, ls, hrun, hne, hperm, hinv, hcalled⟩ :=
          h.allocFrom_block hpool havailable hblock
        have hgranted : granted r live = r :: live := if_neg hne
        refine ⟨r, w₁, _, _, ?_, hgranted ▸ hinv, hcalled.onlyTouches hpool havailable,
          Binds.of_called hcalled, fun hhome => hhome.update fun b hb => ?_,
          fun hr => (hne hr).elim⟩
        · rw [tryNodes, hbatch, hrun, Option.bind_some, if_pos hne]
        · refine hhome.append (t := t) (hperm.mem_iff.mp ?_)
          exact (List.Sublist.append_left (List.sublist_cons_self r ls) gs).subset hb

/-- A whole `alloc`. -/
theorem alloc_spec (ha : a.Placed) (h : (instanceOf i a).Inv w live g l)
    {currentNode : Nat} (husable : Usable a i t w (nodeOrder a currentNode)) :
    ∃ r w' g' l', alloc a w i t currentNode = some (r, w') ∧
      (instanceOf i a).Inv w' (granted r live) g' l' ∧
      (instanceOf i a).OnlyTouches w w' ∧ Binds i t w w' ∧
      (Home a i g l → Home a i g' l') ∧
      (r = 0 → ∀ n, n < a.numNodes → l (t, n) = [] ∧ g (i, n) = []) := by
  obtain ⟨r, w', g', l', hrun, hinv, htouch, hbinds, hhome, hempty⟩ :=
    tryNodes_spec ha (nodeOrder a currentNode) (nodup_nodeOrder a currentNode)
      (fun n hn => (mem_nodeOrder ha).mp hn) h husable
  exact ⟨r, w', g', l', hrun, hinv, htouch, hbinds, hhome, fun hr n hn =>
    hempty hr n ((mem_nodeOrder ha).mpr hn)⟩

/-- A whole `dealloc`, of a live block or of null. -/
theorem dealloc_spec (ha : a.Placed) (h : (instanceOf i a).Inv w live g l) {ptr : Nat}
    (hptr : ptr = 0 ∨ ptr ∈ live)
    (havailable : Available w (t, ownerNode a ptr) (i, ownerNode a ptr)) :
    ∃ w' g' l', dealloc a w i t ptr = some w' ∧
      (instanceOf i a).Inv w' (live.erase ptr) g' l' ∧
      (instanceOf i a).OnlyTouches w w' ∧ Binds i t w w' ∧
      (a.Tellable → Home a i g l → Home a i g' l') := by
  have hn := ownerNode_lt ha ptr
  have hpool : (instanceOf i a).pool (i, ownerNode a ptr) := ⟨rfl, hn⟩
  rw [dealloc, ha.batch _ hn]
  rcases hptr with rfl | hlive
  · obtain ⟨w', hrun, hinv, hcalled⟩ := h.deallocTo_null hpool havailable
    have hzero : 0 ∉ live := fun hmem => (h.address 0 (h.block_of_live hmem)).1 rfl
    rw [List.erase_of_not_mem hzero]
    exact ⟨w', g, l, hrun, hinv, hcalled.onlyTouches hpool havailable,
      Binds.of_called hcalled, fun _ => id⟩
  · obtain ⟨w', hrun, hinv, hcalled⟩ := h.deallocTo hpool havailable hlive
    refine ⟨w', _, _, hrun, hinv, hcalled.onlyTouches hpool havailable,
      Binds.of_called hcalled, fun htell hhome => hhome.update fun b hb => ?_⟩
    have hperm := flushed_perm (instanceOf i a).batch (g (i, ownerNode a ptr))
      (ptr :: l (t, ownerNode a ptr))
    have hmem := List.perm_middle.mem_iff.mp (hperm.mem_iff.mp hb)
    rcases List.mem_cons.mp hmem with rfl | hmem
    · obtain ⟨n, hn, hown⟩ := h.block_of_live hlive
      rwa [ownerNode_eq ha htell hn hown]
    · exact hhome.append (t := t) hmem

end Specifications

end PoolMemalloc.Ports.NumaAllocator
