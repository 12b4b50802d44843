import PoolMemalloc.Ports.NumaCalls
import PoolMemalloc.Ports.TlFreelistCalls

/-!
# What an exiting thread takes with it

`~ThreadCache` is defaulted and `~PerThread` only deletes the caches, so the nodes that
a cache holds when its thread exits are in no list that anybody reads again.
`blocks_accounted` says that nothing else is ever lost, and that a thread left alone
can still allocate everything that was not left behind; `blocks_lost_at_exit` is a run
that loses two blocks of three.
-/

namespace PoolMemalloc.Ports.ThreadExit

open PoolMemalloc.Verified.Transition
open PoolMemalloc.Ports.BlockArray
open PoolMemalloc.Ports.FreelistAllocator (Heap TaggedPtr)
open PoolMemalloc.Ports.TlFreelistAllocator (blocksOf length_blocksOf tlPool3 tlHeap3
  tlPool3_constructed)
open PoolMemalloc.Ports.CacheWorld
open PoolMemalloc.Ports.TlFreelistCalls (poolOf poolOf_block)
open PoolMemalloc.Ports.NumaAllocator (nodeBlocks instanceOf)

section Places

variable {κ π : Type}

/-- The block is with the user, on the global list of pool `p`, or in the cache of a
thread that has not exited. -/
def Kept (w : World κ π) (live : List Nat) (p : π) (b : Nat) : Prop :=
  b ∈ live ∨ b ∈ onList w p ∨ ∃ k, w.exited k = none ∧ b ∈ inCache w k

/-- The block was in a cache when the cache's thread exited. -/
def LeftBehind (w : World κ π) (b : Nat) : Prop :=
  ∃ k held, w.exited k = some held ∧ b ∈ held

variable {A : Instance π} {w : World κ π} {live : List Nat} {g : π → List Nat}
variable {l : κ → List Nat} {b : Nat}

theorem kept_or_left (h : A.Inv w live g l) (hb : A.block b) :
    (∃ p, A.pool p ∧ b ∈ g p) ∨ (∀ p, Kept w live p b) ∨ LeftBehind w b := by
  obtain ⟨i, hi⟩ := (h.ledger.mem b).mp hb
  cases i with
  | global p =>
      have hp : A.pool p := by
        by_contra hp
        have hmem : b ∈ g p := hi
        rw [h.foreign p hp] at hmem
        cases hmem
      exact .inl ⟨p, hp, hi⟩
  | cache k =>
      rcases h.inCache_or_left hi with hrunning | ⟨held, hexited, hmem⟩
      · exact .inr (.inl fun _ => .inr (.inr ⟨k, hrunning⟩))
      · exact .inr (.inr ⟨k, held, hexited, hmem⟩)
  | user => exact .inr (.inl fun _ => .inl hi)

theorem kept_of_global (h : A.Inv w live g l) {p : π} (hp : A.pool p) (hb : b ∈ g p) :
    Kept w live p b :=
  .inr (.inl (h.onList_eq hp ▸ hb))

/-- If the lists are empty and all running threads' caches too, only live blocks and
those left behind remain. -/
theorem live_or_left (h : A.Inv w live g l) (hg : ∀ p, A.pool p → g p = [])
    (hl : ∀ k, w.exited k = none → l k = []) (hb : A.block b) :
    b ∈ live ∨ LeftBehind w b := by
  obtain ⟨i, hi⟩ := (h.ledger.mem b).mp hb
  cases i with
  | global p =>
      have hmem : b ∈ g p := hi
      by_cases hp : A.pool p
      · rw [hg p hp] at hmem
        cases hmem
      · rw [h.foreign p hp] at hmem
        cases hmem
  | cache k =>
      have hmem : b ∈ l k := hi
      cases hexited : w.exited k with
      | none =>
          rw [hl k hexited] at hmem
          cases hmem
      | some held => exact .inr ⟨k, held, hexited, (h.gone k held hexited).2 b hmem⟩
  | user => exact .inl hi

/-- There are no more live blocks than blocks. -/
theorem live_length_le (h : A.Inv w live g l) {blocks : List Nat}
    (hall : ∀ b, A.block b → b ∈ blocks) : live.length ≤ blocks.length :=
  (List.subperm_of_subset (h.ledger.nodup .user) fun _ hb =>
    hall _ (h.block_of_live hb)).length_le

end Places

/-! ## One thread left -/

section Alone

variable {κ : Type} [DecidableEq κ] {k : κ} {a : TlFreelistAllocator.Allocator}
variable {s : TlFreelistCalls.State κ} {g : Unit → List Nat} {l : κ → List Nat}

/-- No other running thread has a cache. -/
def Alone {π : Type} (w : World κ π) (mine : κ → Prop) : Prop :=
  ∀ j, ¬ mine j → w.exited j = none → w.caches j = none

/-- Allocating until null is returned drains the lists of a thread left alone. -/
theorem drained {next : Heap} {blockSz numBlocks batch : Nat}
    (ha : TlFreelistAllocator.Constructed blockSz numBlocks batch a next)
    (h : TlFreelistCalls.Inv a s g l) (hk : s.world.exited k = none)
    (halone : Alone s.world (fun j => j = k)) :
    ∃ n s', replay (TlFreelistCalls.exec a.batchSize) s
        (List.replicate n (.alloc k)) = some s' ∧
      ∀ i, i < a.blockCount → a.region + i * a.blockSize ∈ s'.live ∨
        LeftBehind s.world (a.region + i * a.blockSize) := by
  have hstep : ∀ s' : TlFreelistCalls.State κ,
      ((∃ g l, TlFreelistCalls.Inv a s' g l) ∧ s'.world.exited = s.world.exited ∧
        Alone s'.world (fun j => j = k)) →
      (∀ b, (poolOf () a).block b → b ∈ s'.live ∨ LeftBehind s.world b) ∨
      ∃ s'', TlFreelistCalls.exec a.batchSize s' (.alloc k) = some s'' ∧
        ((∃ g l, TlFreelistCalls.Inv a s'' g l) ∧ s''.world.exited = s.world.exited ∧
          Alone s''.world (fun j => j = k)) ∧
        a.blockCount - s''.live.length < a.blockCount - s'.live.length := by
    rintro s' ⟨⟨g, l, h⟩, hexited, halone⟩
    have hk' : s'.world.exited k = none := hexited ▸ hk
    obtain ⟨w', hrun, hafter, hcalled⟩ := h.alloc hk'
    by_cases hnull : (ThreadCache.refilled a.batchSize (g ()) (l k)).2.headD 0 = 0
    · left
      intro b hb
      obtain ⟨hl, hg⟩ := h.owned.headD_eq_zero_iff.mp hnull
      have hothers : ∀ j, s'.world.exited j = none → l j = [] := by
        intro j hj
        by_cases hjk : j = k
        · exact hjk ▸ hl
        · exact h.owned.unused j (halone j hjk hj) hj
      have hseen := live_or_left h.owned (fun _ _ => hg) hothers hb
      rwa [LeftBehind, hexited] at hseen
    · right
      refine ⟨_, ?_, ⟨⟨_, _, hafter⟩, hcalled.exited.trans hexited, ?_⟩, ?_⟩
      · rw [TlFreelistCalls.exec, if_pos hk', hrun, Option.map_some]
      · intro j hj hrunning
        rw [hcalled.exited] at hrunning
        exact (hcalled.caches j hj).trans (halone j hj hrunning)
      · have hle := live_length_le hafter.owned fun b hb => hb
        rw [granted, if_neg hnull, List.length_cons] at hle ⊢
        rw [length_blocksOf] at hle
        omega
  obtain ⟨n, s', hrun, -, hdone⟩ :=
    exists_replay_until (TlFreelistCalls.Event.alloc k)
      (fun s' : TlFreelistCalls.State κ => a.blockCount - s'.live.length) hstep
      ⟨⟨g, l, h⟩, rfl, halone⟩
  exact ⟨n, s', hrun, fun i hi => hdone _ ((poolOf_block ha.placed).mpr ⟨i, hi, rfl⟩)⟩

end Alone

section AloneOnNodes

variable {τ : Type} [DecidableEq τ] {t : τ} {a : NumaAllocator.Allocator}
variable {s : NumaCalls.State τ} {g : Nat × Nat → List Nat} {l : τ × Nat → List Nat}

/-- The blocks of all nodes. -/
private def allBlocks (a : NumaAllocator.Allocator) : List Nat :=
  (List.range a.numNodes).flatMap (nodeBlocks a)

/-- The same for `NumaAllocator`, from whatever node the thread runs on. -/
theorem drained_nodes (ha : a.Placed) (h : NumaCalls.Inv a s g l)
    (ht : s.world.exited (t, 0) = none)
    (halone : Alone s.world (fun k => k.1 = t)) (currentNode : Nat) :
    ∃ n s', replay (NumaCalls.exec a) s
        (List.replicate n (.alloc t currentNode)) = some s' ∧
      ∀ b, (instanceOf 0 a).block b → b ∈ s'.live ∨ LeftBehind s.world b := by
  have hstep : ∀ s' : NumaCalls.State τ,
      ((∃ g l, NumaCalls.Inv a s' g l) ∧ s'.world.exited = s.world.exited ∧
        Alone s'.world (fun k => k.1 = t)) →
      (∀ b, (instanceOf 0 a).block b → b ∈ s'.live ∨ LeftBehind s.world b) ∨
      ∃ s'', NumaCalls.exec a s' (.alloc t currentNode) = some s'' ∧
        ((∃ g l, NumaCalls.Inv a s'' g l) ∧ s''.world.exited = s.world.exited ∧
          Alone s''.world (fun k => k.1 = t)) ∧
        (allBlocks a).length - s''.live.length <
          (allBlocks a).length - s'.live.length := by
    rintro s' ⟨⟨g, l, h⟩, hexited, halone⟩
    have ht' : s'.world.exited (t, 0) = none := hexited ▸ ht
    obtain ⟨r, w', g', l', hrun, hafter, htouch, hbinds, hempty⟩ :=
      h.alloc ha ht' currentNode
    by_cases hnull : r = 0
    · left
      intro b hb
      have hglobal : ∀ p, (instanceOf 0 a).pool p → g p = [] := by
        rintro ⟨i, n⟩ ⟨rfl, hn⟩
        exact (hempty hnull n hn).2
      have hcaches : ∀ k, s'.world.exited k = none → l k = [] := by
        rintro ⟨u, n⟩ hrunning
        by_cases hu : u = t
        · subst hu
          -- a node that the allocator does not have has no cache
          cases hc : s'.world.caches (u, n) with
          | none => exact h.owned.unused (u, n) hc hrunning
          | some c =>
              by_cases hn : n < a.numNodes
              · exact (hempty hnull n hn).1
              · refine h.owned.other (u, n) c hc fun hp => hn ?_
                have hnode := hp.2
                rwa [h.bound (u, n) c hc] at hnode
        · exact h.owned.unused (u, n) (halone (u, n) hu hrunning) hrunning
      have hseen := live_or_left h.owned hglobal hcaches hb
      rwa [LeftBehind, hexited] at hseen
    · right
      refine ⟨_, ?_, ⟨⟨g', l', hafter⟩, htouch.exited.trans hexited, ?_⟩, ?_⟩
      · rw [NumaCalls.exec, if_pos ht', hrun, Option.map_some]
      · intro k hk hrunning
        rw [htouch.exited] at hrunning
        rcases hbinds k with hsame | ⟨hmine, -⟩
        · exact hsame.trans (halone k hk hrunning)
        · exact (hk hmine).elim
      · have hall : ∀ b, (instanceOf 0 a).block b → b ∈ allBlocks a := by
          rintro b ⟨n, hn, hb⟩
          exact List.mem_flatMap.mpr ⟨n, List.mem_range.mpr hn, hb⟩
        have hle := live_length_le hafter.owned hall
        rw [granted, if_neg hnull, List.length_cons] at hle ⊢
        omega
  obtain ⟨n, s', hrun, -, hdone⟩ :=
    exists_replay_until (NumaCalls.Event.alloc t currentNode)
      (fun s' : NumaCalls.State τ => (allBlocks a).length - s'.live.length) hstep
      ⟨⟨g, l, h⟩, rfl, halone⟩
  exact ⟨n, s', hrun, hdone⟩

end AloneOnNodes

/-! ## The account -/

/-- Nothing is lost except at exits, and a thread left alone can allocate the rest. -/
structure Accounted {κ : Type} [DecidableEq κ] (a : TlFreelistAllocator.Allocator)
    (s : TlFreelistCalls.State κ) : Prop where
  kept : ∀ i, i < a.blockCount → Kept s.world s.live () (a.region + i * a.blockSize) ∨
    LeftBehind s.world (a.region + i * a.blockSize)
  alone : ∀ k, s.world.exited k = none → Alone s.world (fun j => j = k) →
    ∃ n s', replay (TlFreelistCalls.exec a.batchSize) s
        (List.replicate n (.alloc k)) = some s' ∧
      ∀ i, i < a.blockCount → a.region + i * a.blockSize ∈ s'.live ∨
        LeftBehind s.world (a.region + i * a.blockSize)

/-- The same for the blocks of all nodes.  A block is on its own node's list if
`owner_node` can tell the nodes apart. -/
structure AccountedOnNodes {τ : Type} [DecidableEq τ] (a : NumaAllocator.Allocator)
    (s : NumaCalls.State τ) : Prop where
  kept : ∀ n, n < a.numNodes → ∀ b ∈ nodeBlocks a n,
    (∃ m, m < a.numNodes ∧ Kept s.world s.live (0, m) b) ∨ LeftBehind s.world b
  home : a.Tellable → ∀ n, n < a.numNodes → ∀ b ∈ nodeBlocks a n,
    Kept s.world s.live (0, n) b ∨ LeftBehind s.world b
  alone : ∀ t, s.world.exited (t, 0) = none → Alone s.world (fun k => k.1 = t) →
    ∀ currentNode, ∃ n s', replay (NumaCalls.exec a) s
        (List.replicate n (.alloc t currentNode)) = some s' ∧
      ∀ m, m < a.numNodes → ∀ b ∈ nodeBlocks a m,
        b ∈ s'.live ∨ LeftBehind s.world b

theorem accounted {κ : Type} [DecidableEq κ] {a : TlFreelistAllocator.Allocator}
    {next : Heap} {s : TlFreelistCalls.State κ} {blockSz numBlocks batch : Nat}
    (ha : TlFreelistAllocator.Constructed blockSz numBlocks batch a next)
    (hs : Reachable (TlFreelistCalls.calls a next) s) : Accounted a s := by
  obtain ⟨g, l, h⟩ := TlFreelistCalls.inv_of_reachable ha hs
  refine ⟨fun i hi => ?_, fun k hk halone => drained ha h hk halone⟩
  have hb := (poolOf_block (p := ()) ha.placed).mpr ⟨i, hi, rfl⟩
  rcases kept_or_left h.owned hb with ⟨p, hp, hmem⟩ | hkept | hleft
  · exact .inl (kept_of_global h.owned hp hmem)
  · exact .inl (hkept ())
  · exact .inr hleft

theorem accountedOnNodes {τ : Type} [DecidableEq τ] {a : NumaAllocator.Allocator}
    {next : Heap} {heads : Nat → TaggedPtr} {s : NumaCalls.State τ}
    {blockSz blocksPerNode batch : Nat}
    (ha : NumaCalls.Constructed blockSz blocksPerNode batch a next heads)
    (hs : Reachable (NumaCalls.calls a next heads) s) : AccountedOnNodes a s := by
  obtain ⟨hplaced, -⟩ := ha.placed
  obtain ⟨g, l, h⟩ := NumaCalls.inv_of_reachable ha hs
  refine ⟨fun n hn b hb => ?_, fun htell n hn b hb => ?_, fun t ht halone node => ?_⟩
  · rcases kept_or_left h.owned ⟨n, hn, hb⟩ with ⟨⟨i, m⟩, hp, hmem⟩ | hkept | hleft
    · obtain ⟨rfl, hm⟩ := hp
      exact .inl ⟨m, hm, kept_of_global h.owned ⟨rfl, hm⟩ hmem⟩
    · exact .inl ⟨n, hn, hkept (0, n)⟩
    · exact .inr hleft
  · rcases kept_or_left h.owned ⟨n, hn, hb⟩ with ⟨⟨i, m⟩, hp, hmem⟩ | hkept | hleft
    · obtain ⟨rfl, hm⟩ := hp
      obtain rfl : m = n := by
        by_contra hne
        exact hplaced.disjoint hm hn hne ((h.home htell).1 m b hmem) hb
      exact .inl (kept_of_global h.owned ⟨rfl, hm⟩ hmem)
    · exact .inl (hkept (0, n))
    · exact .inr hleft
  · obtain ⟨n, s', hrun, hdone⟩ := drained_nodes hplaced h ht halone node
    exact ⟨n, s', hrun, fun m hm b hb => hdone b ⟨m, hm, hb⟩⟩

/-- Both kinds of allocator account for their blocks after every run. -/
theorem blocks_accounted {κ τ : Type} [DecidableEq κ] [DecidableEq τ]
    (blockSz numBlocks batch : Nat) (a : TlFreelistAllocator.Allocator) (next : Heap)
    (s : TlFreelistCalls.State κ)
    (ha : TlFreelistAllocator.Constructed blockSz numBlocks batch a next)
    (hs : Reachable (TlFreelistCalls.calls a next) s)
    (numa : NumaAllocator.Allocator) (next' : Heap) (heads : Nat → TaggedPtr)
    (s' : NumaCalls.State τ)
    (hnuma : NumaCalls.Constructed blockSz numBlocks batch numa next' heads)
    (hs' : Reachable (NumaCalls.calls numa next' heads) s') :
    Accounted a s ∧ AccountedOnNodes numa s' :=
  ⟨accounted ha hs, accountedOnNodes hnuma hs'⟩

/-- The account of a pool of three after thread 0 has used it and exited, and of two
nodes of three after thread 0 has used node 1, kept a block of it and exited. -/
theorem blocks_accounted_tlPool3 : ∃ s s',
    replay (TlFreelistCalls.exec 2)
      (TlFreelistCalls.start tlPool3 tlHeap3 : TlFreelistCalls.State Nat)
      [.alloc 0, .dealloc 0 4224, .exit 0] = some s ∧
    replay (NumaCalls.exec NumaCalls.numaPool3.1)
      (NumaCalls.start NumaCalls.numaPool3.2.1 NumaCalls.numaPool3.2.2 :
        NumaCalls.State Nat) [.alloc 0 1, .alloc 0 1, .dealloc 0 8320, .exit 0] = some s' ∧
    s'.live = [8192] ∧ Accounted tlPool3 s ∧ AccountedOnNodes NumaCalls.numaPool3.1 s' := by
  have hrun : (replay (NumaCalls.exec NumaCalls.numaPool3.1)
      (NumaCalls.start NumaCalls.numaPool3.2.1 NumaCalls.numaPool3.2.2 : NumaCalls.State Nat)
      [.alloc 0 1, .alloc 0 1, .dealloc 0 8320, .exit 0]).any
        (fun s' => decide (s'.live = [8192])) = true := by
    decide
  obtain ⟨s', hs', hlive⟩ := (Option.any_eq_true _ _).mp hrun
  refine ⟨_, s', rfl, hs', of_decide_eq_true hlive, ?_⟩
  exact blocks_accounted 48 3 2 tlPool3 tlHeap3 _ tlPool3_constructed
    (Reachable.replay [.alloc 0, .dealloc 0 4224, .exit 0] (.init rfl) rfl)
    NumaCalls.numaPool3.1 NumaCalls.numaPool3.2.1 NumaCalls.numaPool3.2.2 s'
    NumaCalls.numaPool3_constructed
    (Reachable.replay [.alloc 0 1, .alloc 0 1, .dealloc 0 8320, .exit 0] (.init rfl) hs')

/-- Thread 0 allocates, frees and exits: two blocks of three are in no place that is
left, and thread 1 gets one block before its `alloc` returns null. -/
theorem blocks_lost_at_exit :
    (¬ ∀ s : TlFreelistCalls.State Nat,
      Reachable (TlFreelistCalls.calls tlPool3 tlHeap3) s →
      ∀ i, i < 3 → Kept s.world s.live () (4096 + i * 64)) ∧
    (replay (TlFreelistCalls.exec 2)
        (TlFreelistCalls.start tlPool3 tlHeap3 : TlFreelistCalls.State Nat)
        [.alloc 0, .dealloc 0 4224, .exit 0, .alloc 1, .alloc 1]).map
      (fun s => s.live) = some [4096] := by
  refine ⟨fun hclaim => ?_, by decide⟩
  have hrun : (replay (TlFreelistCalls.exec 2)
      (TlFreelistCalls.start tlPool3 tlHeap3 : TlFreelistCalls.State Nat)
      [.alloc 0, .dealloc 0 4224, .exit 0]).any (fun s =>
        s.live == [] && s.users == [0] && s.world.exited 0 != none &&
          onList s.world () == [4096]) = true := by
    decide
  obtain ⟨s, hs, hcheck⟩ := (Option.any_eq_true _ _).mp hrun
  simp only [Bool.and_eq_true, beq_iff_eq, bne_iff_ne] at hcheck
  obtain ⟨⟨⟨hlive, husers⟩, hexited⟩, hlist⟩ := hcheck
  have hreach : Reachable (TlFreelistCalls.calls tlPool3 tlHeap3) s :=
    Reachable.replay _ (.init rfl) hs
  obtain ⟨g, l, h⟩ := TlFreelistCalls.inv_of_reachable tlPool3_constructed hreach
  rcases hclaim s hreach 2 (by decide) with hmem | hmem | ⟨k, hk, hmem⟩
  · rw [hlive] at hmem
    cases hmem
  · rw [hlist] at hmem
    exact absurd hmem (by decide)
  · -- only thread 0 ever had a cache
    have hidle : k ∉ s.users := by
      rw [husers]
      intro hzero
      obtain rfl := List.mem_singleton.mp hzero
      exact hexited hk
    cases hc : s.world.caches k with
    | none =>
        rw [inCache, hc] at hmem
        cases hmem
    | some c =>
        rw [h.owned.inCache_eq hc rfl, h.idle k hidle] at hmem
        cases hmem

end PoolMemalloc.Ports.ThreadExit
