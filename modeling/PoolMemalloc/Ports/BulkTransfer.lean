import PoolMemalloc.Ports.FreelistAllocator

/-!
# Bulk transfers

`push_bulk` and `pop_bulk` rewrite the links they traverse.  Here they are described by
the chains before and after, for every heap: a batch is put on the list reversed, and
up to `n` nodes are taken off in the order of the list, so taking off as many as were
put on gives back the list.  Only the links of the nodes that are moved change.
-/

namespace PoolMemalloc.Ports.BulkTransfer

open PoolMemalloc.Verified.LinkedChain
open PoolMemalloc.Ports.FreelistAllocator

/-- What `pop_bulk(n)` does to a list with the nodes `items`. -/
structure Popped (n : Nat) (next : Heap) (head : TaggedPtr) (items : List Nat)
    (start : Nat) (next' : Heap) (head' : TaggedPtr) : Prop where
  /-- Null, and no change at all, exactly for the empty list. -/
  null_iff : start = 0 ↔ items = []
  unchanged : items = [] → next' = next ∧ head' = head
  /-- The first `n` nodes, or all there are, in order and ending in null. -/
  taken : Chain 0 next' start (items.take n)
  left : Chain 0 next' head'.ptr (items.drop n)
  frame : ∀ b, b ∉ items.take n → next' b = next b

/-- What `push_bulk` of the chain `batch` does. -/
structure Pushed (next : Heap) (batch items : List Nat) (next' : Heap)
    (head' : TaggedPtr) : Prop where
  chain : Chain 0 next' head'.ptr (batch.reverse ++ items)
  frame : ∀ b, b ∉ batch → next' b = next b

section Transfers

variable {next : Heap} {head : TaggedPtr} {items batch : List Nat} {first last : Nat}

/-- More fuel does not change the result of the loop. -/
theorem pushLoop_mono {fuel more : Nat} {node : Nat} {result : Heap × TaggedPtr}
    (hle : fuel ≤ more) (hrun : pushLoop fuel next head node = some result) :
    pushLoop more next head node = some result := by
  induction fuel generalizing next head node more with
  | zero => cases hrun
  | succ fuel ih =>
      obtain ⟨more, rfl⟩ : ∃ m, more = m + 1 := ⟨more - 1, by omega⟩
      by_cases hnull : node = 0
      · rwa [pushLoop, if_pos hnull] at hrun ⊢
      · rw [pushLoop, if_neg hnull] at hrun ⊢
        exact ih (Nat.le_of_succ_le_succ hle) hrun

/-- A null-terminated chain and its last node are what `push_bulk` takes. -/
theorem built_of_chain (hbatch : Chain 0 next first batch)
    (hlast : batch.getLast? = some last) : Built 0 next first last batch := by
  obtain ⟨front, rfl⟩ := List.getLast?_eq_some_iff.mp hlast
  obtain ⟨hfront, hne, -⟩ := segment_concat.mp hbatch
  exact ⟨front, rfl, hfront, hne⟩

theorem push_bulk (hitems : Chain 0 next head.ptr items)
    (hbatch : Chain 0 next first batch) (hlast : batch.getLast? = some last)
    (hapart : ∀ b ∈ batch, b ∉ items) :
    ∃ next' head', (∀ fuel, batch.length < fuel →
        pushBulk fuel next head first last = some (next', head')) ∧
      Pushed next batch items next' head' := by
  have hnodup : (batch ++ items).Nodup :=
    List.nodup_append.mpr ⟨hbatch.nodup, hitems.nodup, fun b hb c hc heq =>
      hapart b hb (heq ▸ hc)⟩
  obtain ⟨next', head', hrun, hchain, hframe⟩ :=
    pushBulk_spec (built_of_chain hbatch hlast) hitems hnodup (Nat.lt_succ_self _)
  exact ⟨next', head', fun fuel hfuel => pushLoop_mono hfuel hrun, hchain, hframe⟩

theorem pop_bulk {n : Nat} (hn : 1 ≤ n) (hitems : Chain 0 next head.ptr items) :
    ∃ start next' head', popBulk n next head = (start, next', head') ∧
      Popped n next head items start next' head' := by
  obtain ⟨start, next', head', hrun, htaken, hleft, hframe⟩ :=
    popBulk_spec (n := n) hitems hitems.nodup
  rw [Nat.max_eq_left hn] at htaken hleft hframe
  have hnull : start = 0 ↔ items = [] := by
    rw [← htaken.eq_nil_iff, List.take_eq_nil_iff]
    constructor
    · intro h
      exact h.resolve_left (Nat.ne_of_gt hn)
    · exact Or.inr
  refine ⟨start, next', head', hrun, hnull, fun hempty => ?_, htaken, hleft, hframe⟩
  -- an empty list has a null head, at which the first `pop` gives up
  have hhead : head.ptr = 0 := hitems.eq_nil_iff.mp hempty
  rw [popBulk, pop_null hhead] at hrun
  simp only [if_true, Prod.mk.injEq] at hrun
  exact ⟨hrun.2.1.symm, hrun.2.2.symm⟩

/-- Taking off as many nodes as were put on restores the list. -/
theorem pop_bulk_push_bulk {next' : Heap} {head' : TaggedPtr} (hne : batch ≠ [])
    (hpushed : Pushed next batch items next' head') :
    ∃ start next'' head'', popBulk batch.length next' head' = (start, next'', head'') ∧
      Chain 0 next'' start batch.reverse ∧ Chain 0 next'' head''.ptr items ∧
      ∀ b, b ∉ batch → next'' b = next b := by
  obtain ⟨start, next'', head'', hrun, hpopped⟩ :=
    pop_bulk (List.length_pos_of_ne_nil hne) hpushed.chain
  have htake : (batch.reverse ++ items).take batch.length = batch.reverse :=
    List.take_left' (List.length_reverse)
  have hdrop : (batch.reverse ++ items).drop batch.length = items :=
    List.drop_left' (List.length_reverse)
  have htaken := hpopped.taken
  have hleft := hpopped.left
  rw [htake] at htaken
  rw [hdrop] at hleft
  refine ⟨start, next'', head'', hrun, htaken, hleft, fun b hb => ?_⟩
  have hmiss : b ∉ (batch.reverse ++ items).take batch.length := by
    rwa [htake, List.mem_reverse]
  rw [hpopped.frame b hmiss, hpushed.frame b hb]

/-- Both bulk operations, and one after the other, on any heap and list. -/
theorem bulk_transfer (next : Heap) (head : TaggedPtr) (items : List Nat)
    (hitems : Chain 0 next head.ptr items) :
    (∀ batch first last, Chain 0 next first batch → batch.getLast? = some last →
      (∀ b ∈ batch, b ∉ items) →
      ∃ next' head', (∀ fuel, batch.length < fuel →
          pushBulk fuel next head first last = some (next', head')) ∧
        Pushed next batch items next' head' ∧
        ∃ start next'' head'',
          popBulk batch.length next' head' = (start, next'', head'') ∧
          Chain 0 next'' start batch.reverse ∧ Chain 0 next'' head''.ptr items ∧
          ∀ b, b ∉ batch → next'' b = next b) ∧
    ∀ n, 1 ≤ n → ∃ start next' head', popBulk n next head = (start, next', head') ∧
      Popped n next head items start next' head' := by
  constructor
  · intro batch first last hbatch hlast hapart
    obtain ⟨next', head', hrun, hpushed⟩ := push_bulk hitems hbatch hlast hapart
    have hne : batch ≠ [] := by
      rintro rfl
      cases hlast
    exact ⟨next', head', hrun, hpushed, pop_bulk_push_bulk hne hpushed⟩
  · exact fun n hn => pop_bulk hn hitems

end Transfers

/-- A list of the nodes 64 and 128, and a batch of 192 and 256. -/
def twoChains : Heap := fun b => if b = 64 then 128 else if b = 192 then 256 else 0

/-- The batch is put on the list, and three nodes are taken off the list. -/
theorem bulk_transfer_twoChains :
    (∃ next' head', (∀ fuel, 2 < fuel →
        pushBulk fuel twoChains ⟨64, 0⟩ 192 256 = some (next', head')) ∧
      Pushed twoChains [192, 256] [64, 128] next' head' ∧
      ∃ start next'' head'', popBulk 2 next' head' = (start, next'', head'') ∧
        Chain 0 next'' start [256, 192] ∧ Chain 0 next'' head''.ptr [64, 128] ∧
        ∀ b, b ∉ [192, 256] → next'' b = twoChains b) ∧
    ∃ start next' head', popBulk 3 twoChains ⟨64, 0⟩ = (start, next', head') ∧
      Popped 3 twoChains ⟨64, 0⟩ [64, 128] start next' head' := by
  have hitems : Chain 0 twoChains (TaggedPtr.mk 64 0).ptr [64, 128] := by
    simp [Chain, Segment, twoChains]
  have hbatch : Chain 0 twoChains 192 [192, 256] := by
    simp [Chain, Segment, twoChains]
  exact ⟨(bulk_transfer twoChains ⟨64, 0⟩ [64, 128] hitems).1 [192, 256] 192 256 hbatch
      rfl (by decide),
    (bulk_transfer twoChains ⟨64, 0⟩ [64, 128] hitems).2 3 (by decide)⟩

end PoolMemalloc.Ports.BulkTransfer
