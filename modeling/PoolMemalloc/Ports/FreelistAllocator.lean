import Mathlib.Data.List.Nodup
import Mathlib.Logic.Function.Basic
import PoolMemalloc.Verified.LinkedChain
import PoolMemalloc.Verified.SizeT

/-!
# `FreelistAllocator`

The free list, run by one caller at a time.  A block on the list keeps the link
in its own first bytes, so the operations work on a heap of `next` fields,
addressed by the block; null is address 0.  The interleaved steps of `push` and
`pop` are in `PoolMemalloc.Ports.FreelistInterleaving`.

Each operation has one specification, over the nodes of the chains it is given:

* `push_chain`, `pop_chain` — the top of the list.
* `pushBulk_spec` — a chain is put on the list node by node, so reversed.  The
  loop goes on until it reads null; the length of the chain is enough fuel.
* `popBulk_spec` — up to `n` nodes, and one even for `n = 0`, are taken off and
  linked in order.
-/

namespace PoolMemalloc.Ports.FreelistAllocator

open PoolMemalloc.Verified.SizeT
open PoolMemalloc.Verified.LinkedChain

structure TaggedPtr where
  ptr : Nat
  tag : Nat
  deriving Repr, DecidableEq

/-- The `next` field of the block at each address. -/
abbrev Heap := Nat → Nat

def push (next : Heap) (head : TaggedPtr) (node : Nat) : Heap × TaggedPtr :=
  (Function.update next node head.ptr, ⟨node, wrap (head.tag + 1)⟩)

def pop (next : Heap) (head : TaggedPtr) : Nat × TaggedPtr :=
  if head.ptr = 0 then (0, head)
  else (head.ptr, ⟨next head.ptr, wrap (head.tag + 1)⟩)

/-- The loop of `push_bulk`; `none` when the fuel is used up. -/
def pushLoop : Nat → Heap → TaggedPtr → Nat → Option (Heap × TaggedPtr)
  | 0, _, _, _ => none
  | fuel + 1, next, head, node =>
      if node = 0 then some (next, head)
      else
        let following := next node
        let pushed := push next head node
        pushLoop fuel pushed.1 pushed.2 following

def pushBulk (fuel : Nat) (next : Heap) (head : TaggedPtr)
    (batchHead batchTail : Nat) : Option (Heap × TaggedPtr) :=
  pushLoop fuel (Function.update next batchTail 0) head batchHead

/-- The loop of `pop_bulk`, which runs at most `left` more times: the heap, the
list head and the last node taken. -/
def popLoop : Nat → Heap → TaggedPtr → Nat → Heap × TaggedPtr × Nat
  | 0, next, head, tail => (next, head, tail)
  | left + 1, next, head, tail =>
      let popped := pop next head
      if popped.1 = 0 then (next, popped.2, tail)
      else popLoop left (Function.update next tail popped.1) popped.2 popped.1

/-- `count` starts at 1, so the loop runs at most `n - 1` times. -/
def popBulk (n : Nat) (next : Heap) (head : TaggedPtr) : Nat × Heap × TaggedPtr :=
  let popped := pop next head
  if popped.1 = 0 then (0, next, popped.2)
  else
    let taken := popLoop (n - 1) next popped.2 popped.1
    (popped.1, Function.update taken.1 taken.2.2 0, taken.2.1)

/-! ## One node -/

section Specifications

variable {next next' : Heap} {head head' : TaggedPtr} {items l : List Nat}

theorem push_chain (h : Chain 0 next head.ptr items) {node : Nat} (hne : node ≠ 0)
    (hnew : node ∉ items) :
    Chain 0 (push next head node).1 (push next head node).2.ptr (node :: items) :=
  Segment.push h hne hnew

theorem push_of_ne {node b : Nat} (hne : b ≠ node) :
    (push next head node).1 b = next b :=
  Function.update_of_ne hne _ _

theorem pop_null (hnull : head.ptr = 0) : pop next head = (0, head) := if_pos hnull

theorem pop_top (hne : head.ptr ≠ 0) :
    pop next head = (head.ptr, ⟨next head.ptr, wrap (head.tag + 1)⟩) := if_neg hne

/-- `pop` returns null exactly when the list is empty, and otherwise the top. -/
theorem pop_chain (h : Chain 0 next head.ptr items) :
    ((pop next head).1 = 0 ∧ items = [] ∧ (pop next head).2 = head) ∨
      ∃ rest, (pop next head).1 ≠ 0 ∧ items = (pop next head).1 :: rest ∧
        Chain 0 next (pop next head).2.ptr rest := by
  by_cases hnull : head.ptr = 0
  · rw [pop_null hnull]
    exact Or.inl ⟨rfl, h.eq_nil_iff.mpr hnull, rfl⟩
  · obtain ⟨rest, heq, hrest⟩ := h.pop hnull
    rw [pop_top hnull]
    exact Or.inr ⟨rest, hnull, heq, hrest⟩

/-! ## Batches -/

/-- The loop of `push_bulk` over the chain `l`. -/
theorem pushLoop_spec {node fuel : Nat} (hbatch : Chain 0 next node l)
    (h : Chain 0 next head.ptr items) (hnodup : (l ++ items).Nodup)
    (hfuel : l.length < fuel) :
    ∃ next' head', pushLoop fuel next head node = some (next', head') ∧
      Chain 0 next' head'.ptr (l.reverse ++ items) ∧ ∀ b, b ∉ l → next' b = next b := by
  induction l generalizing next head node items fuel with
  | nil =>
      obtain ⟨fuel, rfl⟩ : ∃ n, fuel = n + 1 := ⟨fuel - 1, by omega⟩
      exact ⟨next, head, if_pos hbatch, h, fun _ _ => rfl⟩
  | cons b rest ih =>
      obtain ⟨rfl, hne, hrest⟩ := hbatch
      obtain ⟨fuel, rfl⟩ : ∃ n, fuel = n + 1 := ⟨fuel - 1, by omega⟩
      rw [List.cons_append, List.nodup_cons, List.mem_append, not_or] at hnodup
      obtain ⟨⟨hnotRest, hnotItems⟩, hnodup⟩ := hnodup
      have hperm : (rest ++ node :: items).Nodup := by
        refine (List.perm_middle.nodup_iff).mpr ?_
        rw [List.nodup_cons, List.mem_append, not_or]
        exact ⟨⟨hnotRest, hnotItems⟩, hnodup⟩
      obtain ⟨next', head', hrun, hchain, hframe⟩ :=
        ih (hrest.update hnotRest) (push_chain h hne hnotItems) hperm
          (by simpa using hfuel)
      refine ⟨next', head', ?_, ?_, fun c hc => ?_⟩
      · rw [pushLoop, if_neg hne]
        exact hrun
      · rwa [List.reverse_cons, List.append_assoc, List.singleton_append]
      · rw [List.mem_cons, not_or] at hc
        rw [hframe c hc.2]
        exact push_of_ne hc.1

/-- `push_bulk` puts the nodes of a batch on the list, the first of them first. -/
theorem pushBulk_spec {batchHead batchTail fuel : Nat}
    (hbatch : Built 0 next batchHead batchTail l) (h : Chain 0 next head.ptr items)
    (hnodup : (l ++ items).Nodup) (hfuel : l.length < fuel) :
    ∃ next' head', pushBulk fuel next head batchHead batchTail = some (next', head') ∧
      Chain 0 next' head'.ptr (l.reverse ++ items) ∧ ∀ b, b ∉ l → next' b = next b := by
  obtain ⟨hl, -, hdisjoint⟩ := List.nodup_append.mp hnodup
  have hnew : batchTail ∉ items := fun hmem =>
    hdisjoint batchTail hbatch.tail_mem batchTail hmem rfl
  obtain ⟨next', head', hrun, hchain, hframe⟩ :=
    pushLoop_spec (hbatch.write (v := 0) hl).2 (h.update hnew) hnodup hfuel
  refine ⟨next', head', hrun, hchain, fun b hb => ?_⟩
  rw [hframe b hb, Function.update_of_ne]
  rintro rfl
  exact hb hbatch.tail_mem

/-- The loop of `pop_bulk`, with the nodes `l` taken so far. -/
theorem popLoop_spec (left : Nat) {start tail : Nat} (htaken : Built 0 next start tail l)
    (h : Chain 0 next head.ptr items) (hnodup : (l ++ items).Nodup) :
    ∃ next' head' tail', popLoop left next head tail = (next', head', tail') ∧
      Built 0 next' start tail' (l ++ items.take left) ∧
      Chain 0 next' head'.ptr (items.drop left) ∧
      ∀ b, b ∉ l ++ items.take left → next' b = next b := by
  induction left generalizing next head tail l items with
  | zero => exact ⟨next, head, tail, rfl, by simpa using htaken, h, fun _ _ => rfl⟩
  | succ left ih =>
      rcases pop_chain h with ⟨hnull, rfl, hsame⟩ | ⟨rest, hne, rfl, hrest⟩
      · refine ⟨next, head, tail, ?_, by simpa using htaken, h, fun _ _ => rfl⟩
        rw [popLoop, if_pos hnull, hsame]
      · have hl := (List.nodup_append.mp hnodup).1
        have hnew : tail ∉ rest := fun hmem =>
          (List.nodup_append.mp hnodup).2.2 tail htaken.tail_mem tail
            (List.mem_cons_of_mem _ hmem) rfl
        rw [List.append_cons] at hnodup
        obtain ⟨next', head', tail', hrun, hbuilt, hchain, hframe⟩ :=
          ih (htaken.snoc hl hne) (hrest.update hnew) hnodup
        refine ⟨next', head', tail', ?_, ?_, hchain, fun b hb => ?_⟩
        · rw [popLoop, if_neg hne]
          exact hrun
        · rwa [List.take_succ_cons, List.append_cons]
        · rw [List.take_succ_cons, List.append_cons] at hb
          rw [hframe b hb, Function.update_of_ne]
          rintro rfl
          exact hb (List.mem_append_left _ (List.mem_append_left _ htaken.tail_mem))

/-- `pop_bulk(n)` takes the first `n` nodes, but at least one, and links them. -/
theorem popBulk_spec {n : Nat} (h : Chain 0 next head.ptr items)
    (hnodup : items.Nodup) :
    ∃ start next' head', popBulk n next head = (start, next', head') ∧
      Chain 0 next' start (items.take (max n 1)) ∧
      Chain 0 next' head'.ptr (items.drop (max n 1)) ∧
      ∀ b, b ∉ items.take (max n 1) → next' b = next b := by
  rcases pop_chain h with ⟨hnull, rfl, hsame⟩ | ⟨rest, hne, rfl, hrest⟩
  · refine ⟨0, next, head, ?_, by simp, by simpa using h, fun _ _ => rfl⟩
    rw [popBulk, if_pos hnull, hsame]
  · have hmax : max n 1 = n - 1 + 1 := by omega
    rw [hmax, List.take_succ_cons, List.drop_succ_cons]
    obtain ⟨next', head', tail', hrun, hbuilt, hchain, hframe⟩ :=
      popLoop_spec (n - 1) (built_singleton hne) hrest hnodup
    have htaken : ((pop next head).1 :: rest.take (n - 1)).Nodup :=
      hnodup.sublist ((List.take_sublist _ _).cons_cons _)
    have hnew : tail' ∉ rest.drop (n - 1) := by
      intro hmem
      rw [← List.take_append_drop (n - 1) rest, ← List.cons_append] at hnodup
      exact (List.nodup_append.mp hnodup).2.2 tail' hbuilt.tail_mem tail' hmem rfl
    refine ⟨(pop next head).1, Function.update next' tail' 0, head', ?_,
      (hbuilt.write htaken).2, hchain.update hnew, fun b hb => ?_⟩
    · rw [popBulk, if_neg hne, hrun]
    · rw [Function.update_of_ne, hframe b hb]
      rintro rfl
      exact hb hbuilt.tail_mem

end Specifications

end PoolMemalloc.Ports.FreelistAllocator
