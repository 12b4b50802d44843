import PoolMemalloc.Ports.FreelistAllocator

/-!
# `ThreadCache`

Whole calls of `ThreadCache`, run while nobody else touches the heap or the
global list.  The walks over a chain end where they read null, so they take
fuel; `none` means that it was used up.

`refilled` and `flushed` say what a call does to the nodes of the global list and
of the local chain, without the heap.  `Cached` connects the two levels, and
`alloc_spec` and `dealloc_spec` are the whole calls: they return, they move nodes
as `refilled` and `flushed` say, and they write no link of any other node.  Both
are meant for every `batch`, 0 and those whose double wraps included.
-/

namespace PoolMemalloc.Ports.ThreadCache

open PoolMemalloc.Verified.SizeT
open PoolMemalloc.Verified.LinkedChain
open PoolMemalloc.Ports.FreelistAllocator

/-- `global` identifies the `FreelistAllocator` the pointer points to. -/
structure Cache (π : Type) where
  localHead : Nat
  localSize : Nat
  batchSize : Nat
  lowWatermark : Nat
  highWatermark : Nat
  global : π
  deriving Repr, DecidableEq

section Calls

variable {π : Type}

/-- The constructor. -/
def construct (globalAlloc : π) (batch : Nat) : Cache π where
  localHead := 0
  localSize := 0
  batchSize := batch
  lowWatermark := batch / 2
  highWatermark := wrap (batch * 2)
  global := globalAlloc

/-- The `while (tail->next)` loop of `refill`: the last node and the count. -/
def refillWalk : Nat → Heap → Nat → Nat → Option (Nat × Nat)
  | 0, _, _, _ => none
  | fuel + 1, next, tail, count =>
      if next tail ≠ 0 then refillWalk fuel next (next tail) (wrap (count + 1))
      else some (tail, count)

/-- `refill`, on the heap and the head of the global list. -/
def refill (fuel : Nat) (next : Heap) (head : TaggedPtr) (c : Cache π) :
    Option (Heap × TaggedPtr × Cache π) :=
  let popped := popBulk c.batchSize next head
  if popped.1 = 0 then some (popped.2.1, popped.2.2, c)
  else
    (refillWalk fuel popped.2.1 popped.1 1).map fun walked =>
      (Function.update popped.2.1 walked.1 c.localHead, popped.2.2,
        { c with
          localHead := popped.1
          localSize := wrap (c.localSize + walked.2) })

/-- The loop of `flush`: `batch_tail` and the count. -/
def flushWalk : Nat → Heap → Nat → Nat → Nat → Option (Nat × Nat)
  | 0, _, _, _, _ => none
  | fuel + 1, next, excess, batchTail, count =>
      if count < excess ∧ next batchTail ≠ 0 then
        flushWalk fuel next excess (next batchTail) (wrap (count + 1))
      else some (batchTail, count)

def flush (fuel : Nat) (next : Heap) (head : TaggedPtr) (c : Cache π)
    (excess : Nat) : Option (Heap × TaggedPtr × Cache π) :=
  if c.localHead = 0 ∨ excess = 0 then some (next, head, c)
  else
    (flushWalk fuel next excess c.localHead 1).bind fun walked =>
      (pushBulk fuel (Function.update next walked.1 0) head c.localHead
        walked.1).map fun pushed =>
          (pushed.1, pushed.2,
            { c with
              localHead := next walked.1
              localSize := wrapSub c.localSize walked.2 })

/-- The result comes first; 0 is null. -/
def alloc (fuel : Nat) (next : Heap) (head : TaggedPtr) (c : Cache π) :
    Option (Nat × Heap × TaggedPtr × Cache π) :=
  (if c.localSize ≤ c.lowWatermark then refill fuel next head c
    else some (next, head, c)).map fun r =>
      if r.2.2.localHead = 0 then (0, r.1, r.2.1, r.2.2)
      else
        (r.2.2.localHead, r.1, r.2.1,
          { r.2.2 with
            localHead := r.1 r.2.2.localHead
            localSize := wrapSub r.2.2.localSize 1 })

def dealloc (fuel : Nat) (next : Heap) (head : TaggedPtr) (c : Cache π)
    (ptr : Nat) : Option (Heap × TaggedPtr × Cache π) :=
  if ptr = 0 then some (next, head, c)
  else
    let next' := Function.update next ptr c.localHead
    let c' := { c with localHead := ptr, localSize := wrap (c.localSize + 1) }
    if c'.localSize > c'.highWatermark then
      flush fuel next' head c' (wrapSub c'.localSize c'.batchSize)
    else some (next', head, c')

section Binding

variable {fuel ptr : Nat} {next : Heap} {head : TaggedPtr} {c : Cache π} {excess : Nat}

/-- No call moves a cache to another list. -/
theorem refill_global {r : Heap × TaggedPtr × Cache π}
    (h : refill fuel next head c = some r) : r.2.2.global = c.global := by
  simp only [refill] at h
  split at h
  · cases h
    rfl
  · obtain ⟨walked, -, rfl⟩ := Option.map_eq_some_iff.mp h
    rfl

theorem flush_global {r : Heap × TaggedPtr × Cache π}
    (h : flush fuel next head c excess = some r) : r.2.2.global = c.global := by
  simp only [flush] at h
  split at h
  · cases h
    rfl
  · obtain ⟨walked, -, h⟩ := Option.bind_eq_some_iff.mp h
    obtain ⟨pushed, -, rfl⟩ := Option.map_eq_some_iff.mp h
    rfl

theorem alloc_global {r : Nat × Heap × TaggedPtr × Cache π}
    (h : alloc fuel next head c = some r) : r.2.2.2.global = c.global := by
  obtain ⟨mid, hmid, rfl⟩ := Option.map_eq_some_iff.mp h
  have hglobal : mid.2.2.global = c.global := by
    split at hmid
    · exact refill_global hmid
    · cases hmid
      rfl
  split
  · exact hglobal
  · exact hglobal

theorem dealloc_global {r : Heap × TaggedPtr × Cache π}
    (h : dealloc fuel next head c ptr = some r) : r.2.2.global = c.global := by
  simp only [dealloc] at h
  split at h
  · cases h
    rfl
  · split at h
    · have hglobal := flush_global h
      exact hglobal
    · cases h
      rfl

end Binding

end Calls

/-! ## The nodes, without the heap -/

/-- Global list and local chain after the refill that precedes an allocation. -/
def refilled (batch : Nat) (g l : List Nat) : List Nat × List Nat :=
  if l.length ≤ batch / 2 then (g.drop (max batch 1), g.take (max batch 1) ++ l)
  else (g, l)

/-- Global list and local chain after the flush that follows a deallocation. -/
def flushed (batch : Nat) (g l : List Nat) : List Nat × List Nat :=
  if wrap (batch * 2) < l.length then
    ((l.take (wrapSub l.length batch)).reverse ++ g, l.drop (wrapSub l.length batch))
  else (g, l)

theorem refilled_perm (batch : Nat) (g l : List Nat) :
    ((refilled batch g l).1 ++ (refilled batch g l).2).Perm (g ++ l) := by
  unfold refilled
  split
  · rw [← List.append_assoc]
    refine List.Perm.append_right l ?_
    refine List.perm_append_comm.trans ?_
    rw [List.take_append_drop]
  · exact List.Perm.refl _

theorem flushed_perm (batch : Nat) (g l : List Nat) :
    ((flushed batch g l).1 ++ (flushed batch g l).2).Perm (g ++ l) := by
  unfold flushed
  split
  · refine List.Perm.trans ?_ List.perm_append_comm
    refine (List.perm_append_comm.append_right _).trans ?_
    rw [List.append_assoc]
    refine (List.Perm.append_left g (List.reverse_perm _ |>.append_right _)).trans ?_
    rw [List.take_append_drop]
    exact List.perm_append_comm
  · exact List.Perm.refl _

/-- A refilled chain is empty only if both lists were. -/
theorem refilled_eq_nil (batch : Nat) {g l : List Nat} :
    (refilled batch g l).2 = [] ↔ l = [] ∧ g = [] := by
  unfold refilled
  split
  · rw [List.append_eq_nil_iff, List.take_eq_nil_iff]
    constructor
    · rintro ⟨hzero | hg, hl⟩
      · omega
      · exact ⟨hl, hg⟩
    · rintro ⟨hl, hg⟩
      exact ⟨Or.inr hg, hl⟩
  · next hlong =>
      show l = [] ↔ l = [] ∧ g = []
      constructor
      · rintro rfl
        exact (hlong (Nat.zero_le _)).elim
      · exact fun h => h.1

/-- Between calls: the nodes of the global list are `g`, those of the local chain
`l`, and `local_size` counts the latter. -/
structure Cached {π : Type} (batch : Nat) (next : Heap) (head : TaggedPtr) (c : Cache π)
    (g l : List Nat) : Prop where
  global : Chain 0 next head.ptr g
  chain : Chain 0 next c.localHead l
  size : c.localSize = l.length
  nodup : (g ++ l).Nodup
  batchSize : c.batchSize = batch
  low : c.lowWatermark = batch / 2
  high : c.highWatermark = wrap (batch * 2)

/-! ## Specifications -/

section Specifications

variable {π : Type} {batch fuel : Nat} {next next' : Heap} {head : TaggedPtr}
variable {c : Cache π}
variable {g l : List Nat}

/-- The walk of `refill` ends at the last node and counts the nodes it passes. -/
theorem refillWalk_spec {start tail count : Nat} {front back : List Nat}
    (hfront : Segment 0 next start front tail)
    (hback : Chain 0 next tail (tail :: back)) (hfuel : back.length < fuel)
    (hcount : count + back.length < 2 ^ 64) :
    ∃ last, refillWalk fuel next tail count = some (last, count + back.length) ∧
      Built 0 next start last (front ++ tail :: back) := by
  obtain ⟨-, hne, hrest⟩ := hback
  induction back generalizing front tail count fuel with
  | nil =>
      obtain ⟨fuel, rfl⟩ : ∃ n, fuel = n + 1 := ⟨fuel - 1, by omega⟩
      exact ⟨tail, if_neg (fun h => h hrest), front, rfl, hfront, hne⟩
  | cons b back ih =>
      obtain ⟨fuel, rfl⟩ : ∃ n, fuel = n + 1 := ⟨fuel - 1, by omega⟩
      obtain ⟨rfl, hb, hrest⟩ := hrest
      rw [List.length_cons] at hfuel hcount
      have hfront' : Segment 0 next start (front ++ [tail]) (next tail) :=
        segment_concat.mpr ⟨hfront, hne, rfl⟩
      have hfuel' : back.length < fuel := by omega
      have hcount' : count + 1 + back.length < 2 ^ 64 := by omega
      obtain ⟨last, hrun, hbuilt⟩ := ih hfront' hfuel' hcount' hb hrest
      refine ⟨last, ?_, by rwa [List.append_assoc] at hbuilt⟩
      rw [refillWalk, if_pos hb, wrap_of_lt (by omega), hrun, List.length_cons]
      congr 2
      omega

/-- The walk of `flush` passes `excess - count` nodes, or stops at the last. -/
theorem flushWalk_spec (excess : Nat) {start tail count : Nat} {front back : List Nat}
    (hfront : Segment 0 next start front tail)
    (hback : Chain 0 next tail (tail :: back)) (hfuel : back.length < fuel)
    (hcount : count + back.length < 2 ^ 64) :
    ∃ last passed, flushWalk fuel next excess tail count =
        some (last, count + passed) ∧ passed = min (excess - count) back.length ∧
      Built 0 next start last (front ++ tail :: back.take passed) ∧
      Chain 0 next (next last) (back.drop passed) := by
  obtain ⟨-, hne, hrest⟩ := hback
  induction back generalizing front tail count fuel with
  | nil =>
      obtain ⟨fuel, rfl⟩ : ∃ n, fuel = n + 1 := ⟨fuel - 1, by omega⟩
      exact ⟨tail, 0, if_neg (fun h => h.2 hrest), by simp, ⟨front, by simp, hfront, hne⟩,
        hrest⟩
  | cons b back ih =>
      obtain ⟨fuel, rfl⟩ : ∃ n, fuel = n + 1 := ⟨fuel - 1, by omega⟩
      rw [List.length_cons] at hfuel hcount
      by_cases hmore : count < excess
      · obtain ⟨rfl, hb, hrest⟩ := hrest
        have hfront' : Segment 0 next start (front ++ [tail]) (next tail) :=
          segment_concat.mpr ⟨hfront, hne, rfl⟩
        have hfuel' : back.length < fuel := by omega
        have hcount' : count + 1 + back.length < 2 ^ 64 := by omega
        obtain ⟨last, passed, hrun, heq, hbuilt, hchain⟩ :=
          ih hfront' hfuel' hcount' hb hrest
        refine ⟨last, passed + 1, ?_, ?_, ?_, by rwa [List.drop_succ_cons]⟩
        · rw [flushWalk, if_pos ⟨hmore, hb⟩, wrap_of_lt (by omega), hrun]
          congr 2
          omega
        · rw [heq, List.length_cons]
          omega
        · rw [List.take_succ_cons]
          rwa [List.append_assoc] at hbuilt
      · refine ⟨tail, 0, if_neg (fun h => hmore h.1), ?_, ⟨front, by simp, hfront, hne⟩,
          hrest⟩
        have hzero : excess - count = 0 := by omega
        rw [hzero, Nat.zero_min]

/-- Nodes taken from the global list, and the rest of it, are disjoint. -/
private theorem taken_disjoint {g l : List Nat} (h : (g ++ l).Nodup) (n : Nat) :
    (g.take n).Nodup ∧ (∀ b ∈ g.take n, b ∉ g.drop n) ∧ ∀ b ∈ g.take n, b ∉ l := by
  obtain ⟨hg, -, hdisjoint⟩ := List.nodup_append.mp h
  have hsplit : (g.take n ++ g.drop n).Nodup := by rwa [List.take_append_drop]
  obtain ⟨htake, -, hrest⟩ := List.nodup_append.mp hsplit
  exact ⟨htake, fun b hb hmem => hrest b hb b hmem rfl,
    fun b hb hmem => hdisjoint b (List.mem_of_mem_take hb) b hmem rfl⟩

/-- The walk of `refill` over a whole batch. -/
theorem refill_batch {start : Nat} (hchain : Chain 0 next start l) (hne : start ≠ 0)
    (hfuel : l.length < fuel) (hbound : l.length < 2 ^ 64) :
    ∃ last, refillWalk fuel next start 1 = some (last, l.length) ∧
      Built 0 next start last l := by
  obtain ⟨back, rfl, hback⟩ := hchain.pop hne
  rw [List.length_cons] at hfuel hbound ⊢
  have hfront : Segment 0 next start [] start := rfl
  have hwhole : Chain 0 next start (start :: back) := ⟨rfl, hne, hback⟩
  have hfuel' : back.length < fuel := by omega
  have hcount : 1 + back.length < 2 ^ 64 := by omega
  obtain ⟨last, hwalk, hbuilt⟩ := refillWalk_spec hfront hwhole hfuel' hcount
  rw [List.nil_append] at hbuilt
  rw [Nat.add_comm] at hwalk
  exact ⟨last, hwalk, hbuilt⟩

/-- `refill` moves up to `batch` nodes, and one for `batch = 0`. -/
theorem refill_spec (h : Cached batch next head c g l) (hfuel : g.length < fuel)
    (hbound : g.length + l.length < 2 ^ 64) :
    ∃ next' head' c', refill fuel next head c = some (next', head', c') ∧
      Cached batch next' head' c' (g.drop (max batch 1)) (g.take (max batch 1) ++ l) ∧
      c'.global = c.global ∧ ∀ b, b ∉ g → next' b = next b := by
  obtain ⟨htake, hdrop, hlocal⟩ := taken_disjoint h.nodup (max batch 1)
  obtain ⟨start, next', head', hrun, htaken, hrest, hframe⟩ :=
    popBulk_spec (n := batch) h.global (List.nodup_append.mp h.nodup).1
  have hchain : Chain 0 next' c.localHead l :=
    Segment.congr (fun b hb => hframe b fun hmem => hlocal b hmem hb) h.chain
  have hnodup : (g.drop (max batch 1) ++ (g.take (max batch 1) ++ l)).Nodup := by
    refine List.Perm.nodup_iff ?_ |>.mpr h.nodup
    rw [← List.append_assoc]
    refine List.Perm.append_right l (List.perm_append_comm.trans ?_)
    rw [List.take_append_drop]
  by_cases hnull : start = 0
  · have hnone : g.take (max batch 1) = [] := htaken.eq_nil_iff.mpr hnull
    refine ⟨next', head', c, ?_, ?_, rfl, fun b hb => hframe b (by simp [hnone])⟩
    · rw [refill, h.batchSize, hrun, if_pos hnull]
    · rw [hnone] at hnodup ⊢
      exact ⟨hrest, hchain, h.size, hnodup, h.batchSize, h.low, h.high⟩
  · have hlen : (g.take (max batch 1)).length ≤ g.length := List.length_take_le' _ _
    obtain ⟨last, hwalk, hbuilt⟩ :=
      refill_batch htaken hnull (Nat.lt_of_le_of_lt hlen hfuel) (by omega)
    refine ⟨Function.update next' last c.localHead, head',
      { c with
        localHead := start
        localSize := wrap (c.localSize + (g.take (max batch 1)).length) }, ?_, ?_, rfl, ?_⟩
    · simp only [refill, h.batchSize, hrun, if_neg hnull, hwalk, Option.map_some]
    · exact
        { global := hrest.update (hdrop last hbuilt.tail_mem)
          chain := segment_append.mpr ⟨c.localHead, (hbuilt.write htake).2,
            hchain.update (hlocal last hbuilt.tail_mem)⟩
          size := by
            show wrap (c.localSize + (g.take (max batch 1)).length) = _
            rw [h.size, wrap_of_lt (by omega), List.length_append]
            omega
          nodup := hnodup
          batchSize := h.batchSize
          low := h.low
          high := h.high }
    · intro b hb
      have hmiss : ∀ c ∈ g.take (max batch 1), c ≠ b := fun c hc heq =>
        hb (heq ▸ List.mem_of_mem_take hc)
      rw [Function.update_of_ne (hmiss last hbuilt.tail_mem).symm]
      exact hframe b fun hmem => hmiss b hmem rfl

/-- The batch a flush cuts off: `excess` nodes, or all of them. -/
theorem flush_batch {start excess : Nat} (hchain : Chain 0 next start l)
    (hne : start ≠ 0) (hexcess : excess ≠ 0) (hfuel : l.length < fuel)
    (hbound : l.length < 2 ^ 64) :
    ∃ last, flushWalk fuel next excess start 1 = some (last, (l.take excess).length) ∧
      Built 0 next start last (l.take excess) ∧
      Chain 0 next (next last) (l.drop excess) := by
  obtain ⟨back, rfl, hback⟩ := hchain.pop hne
  rw [List.length_cons] at hfuel hbound
  have hfront : Segment 0 next start [] start := rfl
  have hwhole : Chain 0 next start (start :: back) := ⟨rfl, hne, hback⟩
  have hfuel' : back.length < fuel := by omega
  have hcount : 1 + back.length < 2 ^ 64 := by omega
  obtain ⟨last, passed, hwalk, hpassed, hbuilt, hrest⟩ :=
    flushWalk_spec excess hfront hwhole hfuel' hcount
  obtain ⟨excess, rfl⟩ : ∃ n, excess = n + 1 := ⟨excess - 1, by omega⟩
  rw [Nat.add_sub_cancel] at hpassed
  have htake : (start :: back).take (excess + 1) = start :: back.take passed := by
    rw [List.take_succ_cons, List.take_eq_take_min, ← hpassed]
  have hdrop : (start :: back).drop (excess + 1) = back.drop passed := by
    rw [List.drop_succ_cons, List.drop_eq_drop_min, ← hpassed]
  refine ⟨last, ?_, ?_, ?_⟩
  · rw [hwalk, htake, List.length_cons, List.length_take]
    congr 2
    omega
  · rwa [htake]
  · rwa [hdrop]

/-- `flush(excess)` puts the first `excess` nodes on the global list. -/
theorem flush_spec (h : Cached batch next head c g l) (excess : Nat)
    (hfuel : l.length < fuel) (hbound : l.length < 2 ^ 64) :
    ∃ next' head' c', flush fuel next head c excess = some (next', head', c') ∧
      Cached batch next' head' c' ((l.take excess).reverse ++ g) (l.drop excess) ∧
      c'.global = c.global ∧ ∀ b, b ∉ l → next' b = next b := by
  by_cases hidle : c.localHead = 0 ∨ excess = 0
  · have hsame : (l.take excess).reverse ++ g = g ∧ l.drop excess = l := by
      rcases hidle with hnull | hzero
      · have hnone := h.chain.eq_nil_iff.mpr hnull
        simp [hnone]
      · simp [hzero]
    refine ⟨next, head, c, if_pos hidle, ?_, rfl, fun _ _ => rfl⟩
    rwa [hsame.1, hsame.2]
  · rw [not_or] at hidle
    obtain ⟨last, hwalk, hbuilt, hrest⟩ :=
      flush_batch h.chain hidle.1 hidle.2 hfuel hbound
    obtain ⟨-, hl, hdisjoint⟩ := List.nodup_append.mp h.nodup
    have hsplit : (l.take excess ++ l.drop excess).Nodup := by
      rwa [List.take_append_drop]
    obtain ⟨htake, -, hapart⟩ := List.nodup_append.mp hsplit
    have hnotGlobal : ∀ b ∈ l.take excess, b ∉ g := fun b hb hmem =>
      hdisjoint b hmem b (List.mem_of_mem_take hb) rfl
    have hbatch : (l.take excess ++ g).Nodup :=
      List.nodup_append.mpr ⟨htake, (List.nodup_append.mp h.nodup).1,
        fun b hb d hd heq => hnotGlobal b hb (heq ▸ hd)⟩
    have hlen : (l.take excess).length < fuel :=
      Nat.lt_of_le_of_lt (List.length_take_le' excess l) hfuel
    obtain ⟨next', head', hrun, hglobal, hframe⟩ :=
      pushBulk_spec (hbuilt.write (v := 0) htake).1
        (h.global.update (hnotGlobal last hbuilt.tail_mem)) hbatch hlen
    have hmiss : ∀ b, b ∉ l.take excess → next' b = next b := by
      intro b hb
      rw [hframe b hb, Function.update_of_ne]
      rintro rfl
      exact hb hbuilt.tail_mem
    refine ⟨next', head',
      { c with
        localHead := next last
        localSize := wrapSub c.localSize (l.take excess).length }, ?_, ?_, rfl,
      fun b hb => hmiss b fun hmem => hb (List.mem_of_mem_take hmem)⟩
    · simp only [flush, if_neg (not_or.mpr hidle), hwalk, Option.bind_some, hrun,
        Option.map_some]
    · exact
        { global := hglobal
          chain := Segment.congr (fun b hb => hmiss b fun hmem =>
            hapart b hmem b hb rfl) hrest
          size := by
            show wrapSub c.localSize (l.take excess).length = _
            rw [h.size, wrapSub_of_le hbound (List.length_take_le' _ _),
              List.length_take, List.length_drop]
            omega
          nodup := by
            refine List.Perm.nodup_iff ?_ |>.mpr h.nodup
            refine (List.Perm.append_right _
              ((List.reverse_perm _).append_right g)).trans ?_
            refine (List.Perm.append_right _ List.perm_append_comm).trans ?_
            rw [List.append_assoc, List.take_append_drop]
          batchSize := h.batchSize
          low := h.low
          high := h.high }

/-- The taking of the top of the local chain. -/
private theorem take_spec (h : Cached batch next head c g l) (hbound : l.length < 2 ^ 64) :
    ∃ c', (if c.localHead = 0 then (0, next, head, c)
        else
          (c.localHead, next, head,
            { c with
              localHead := next c.localHead
              localSize := wrapSub c.localSize 1 })) = (l.headD 0, next, head, c') ∧
      Cached batch next head c' g l.tail ∧ c'.global = c.global := by
  by_cases hnull : c.localHead = 0
  · obtain rfl : l = [] := h.chain.eq_nil_iff.mpr hnull
    exact ⟨c, if_pos hnull, h, rfl⟩
  · obtain ⟨rest, rfl, hrest⟩ := h.chain.pop hnull
    refine ⟨_, if_neg hnull, ?_, rfl⟩
    exact
      { global := h.global
        chain := hrest
        size := by
          show wrapSub c.localSize 1 = rest.length
          rw [List.length_cons] at hbound
          rw [h.size, List.length_cons, wrapSub_of_le hbound (Nat.le_add_left 1 _),
            Nat.add_sub_cancel]
        nodup := h.nodup.sublist
          ((List.Sublist.refl g).append (List.sublist_cons_self _ _))
        batchSize := h.batchSize
        low := h.low
        high := h.high }

/-- `alloc` returns the top of the refilled chain, and null only if it is empty. -/
theorem alloc_spec (h : Cached batch next head c g l) (hfuel : g.length < fuel)
    (hbound : g.length + l.length < 2 ^ 64) :
    ∃ next' head' c', alloc fuel next head c =
        some ((refilled batch g l).2.headD 0, next', head', c') ∧
      Cached batch next' head' c' (refilled batch g l).1 (refilled batch g l).2.tail ∧
      c'.global = c.global ∧ ∀ b, b ∉ g → next' b = next b := by
  have hrefill : ∃ next' head' c',
      (if c.localSize ≤ c.lowWatermark then refill fuel next head c
        else some (next, head, c)) = some (next', head', c') ∧
      Cached batch next' head' c' (refilled batch g l).1 (refilled batch g l).2 ∧
      c'.global = c.global ∧ ∀ b, b ∉ g → next' b = next b := by
    rw [h.size, h.low, refilled]
    split
    · exact refill_spec h hfuel hbound
    · exact ⟨next, head, c, rfl, h, rfl, fun _ _ => rfl⟩
  obtain ⟨next', head', c', hrun, hcached, hglobal, hframe⟩ := hrefill
  have hlen : (refilled batch g l).2.length < 2 ^ 64 := by
    have hperm := (refilled_perm batch g l).length_eq
    rw [List.length_append, List.length_append] at hperm
    omega
  obtain ⟨c'', htake, hcached', hglobal'⟩ := take_spec hcached hlen
  refine ⟨next', head', c'', ?_, hcached', hglobal'.trans hglobal, hframe⟩
  rw [alloc, hrun, Option.map_some, htake]

/-- The first half of `dealloc`: the block on top of the local chain. -/
theorem Cached.link (h : Cached batch next head c g l) {ptr : Nat} (hne : ptr ≠ 0)
    (hnew : ptr ∉ g ++ l) (hbound : l.length + 1 < 2 ^ 64) :
    Cached batch (Function.update next ptr c.localHead) head
      { c with localHead := ptr, localSize := wrap (c.localSize + 1) } g (ptr :: l) := by
  rw [List.mem_append, not_or] at hnew
  exact
    { global := h.global.update hnew.1
      chain := Segment.push h.chain hne hnew.2
      size := by
        show wrap (c.localSize + 1) = _
        rw [h.size, wrap_of_lt hbound, List.length_cons]
      nodup := (List.perm_middle.nodup_iff).mpr
        (List.nodup_cons.mpr ⟨fun hmem => (List.mem_append.mp hmem).elim hnew.1 hnew.2,
          h.nodup⟩)
      batchSize := h.batchSize
      low := h.low
      high := h.high }

/-- `dealloc` puts the block on top of the local chain, then flushes it. -/
theorem dealloc_spec (h : Cached batch next head c g l) {ptr : Nat} (hne : ptr ≠ 0)
    (hnew : ptr ∉ g ++ l) (hfuel : l.length + 1 < fuel)
    (hbound : l.length + 1 < 2 ^ 64) :
    ∃ next' head' c', dealloc fuel next head c ptr = some (next', head', c') ∧
      Cached batch next' head' c' (flushed batch g (ptr :: l)).1
        (flushed batch g (ptr :: l)).2 ∧
      c'.global = c.global ∧ ∀ b, b ∉ ptr :: l → next' b = next b := by
  have hlinked := h.link hne hnew hbound
  have hmiss : ∀ b, b ∉ ptr :: l → Function.update next ptr c.localHead b = next b := by
    intro b hb
    rw [List.mem_cons, not_or] at hb
    exact Function.update_of_ne hb.1 _ _
  have hsize : wrap (c.localSize + 1) = (ptr :: l).length := hlinked.size
  simp only [hsize, h.high, h.batchSize] at hlinked
  simp only [dealloc, if_neg hne, hsize, h.high, h.batchSize, flushed, gt_iff_lt]
  by_cases hlarge : wrap (batch * 2) < (ptr :: l).length
  · obtain ⟨next', head', c', hrun, hcached, hglobal, hframe⟩ :=
      flush_spec hlinked (wrapSub (ptr :: l).length batch) hfuel hbound
    simp only [if_pos hlarge]
    exact ⟨next', head', c', hrun, hcached, hglobal, fun b hb =>
      (hframe b hb).trans (hmiss b hb)⟩
  · simp only [if_neg hlarge]
    exact ⟨_, _, _, rfl, hlinked, rfl, hmiss⟩

end Specifications

end PoolMemalloc.Ports.ThreadCache
