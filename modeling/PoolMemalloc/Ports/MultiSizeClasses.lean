import PoolMemalloc.Ports.MultiSizeAllocator

/-!
# Which block meets a request of `MultiSizeAllocator`

As long as each thread keeps to one size class, every request is met by a block of its
class, apart from all others, and a freed block goes back to its class
(`requests_sized`).  `alloc_too_small` is a thread that asks for 16 bytes and then for
256, and is given a block of 64 the second time.
-/

namespace PoolMemalloc.Ports.MultiSizeAllocator

open PoolMemalloc.Verified.Transition
open PoolMemalloc.Ports.BlockArray (block_end_le)
open PoolMemalloc.Ports.TlFreelistAllocator (Allocator)
open PoolMemalloc.Ports.TlFreelistCalls (poolOf poolOf_block)
open PoolMemalloc.Ports.CacheWorld
open PoolMemalloc.Ports.InstanceWorld (Inv)
open PoolMemalloc.Ports.TlFreelistInstances (State OwnCache tlFreelist)

section Requests

variable {κ : Type} [DecidableEq κ]

/-- The block `r` meets a request for `size` bytes: it is a block of the size's class,
and its first `size` bytes are no part of a block that is live. -/
structure Meets (s : State κ) (size r : Nat) : Prop where
  block : ∃ a j, s.alive (classIndex size) = some a ∧ j < a.blockCount ∧
    r = a.region + j * a.blockSize ∧ size ≤ a.blockSize
  alone : ∀ i a, s.alive i = some a → ∀ b ∈ s.live i,
    r + size ≤ b ∨ b + a.blockSize ≤ r

/-- In `w'` the block `ptr` is free in class `i`, in no other class, and no other
class's lists and caches have changed. -/
structure BackInClass (s : State κ) (w' : World κ Nat) (k : κ) (i ptr : Nat) :
    Prop where
  there : ptr ∈ onList w' i ∨ ptr ∈ inCache w' k
  lists : ∀ j, s.alive j ≠ none → ptr ∈ onList w' j → j = i
  caches : ∀ j c, w'.caches j = some c → ptr ∈ inCache w' j → c.global = i
  touches : ∃ a, s.alive i = some a ∧ (poolOf i a).OnlyTouches s.world w'

/-- What the calls of a state do, those that come to their class's cache. -/
structure Sized (s : State κ) : Prop where
  alloc : ∀ k size, s.world.exited k = none → OwnClass s (.alloc k size) →
    ∃ r w', alloc s k size = some (r, w') ∧ (r ≠ 0 → Meets s size r)
  dealloc : ∀ k ptr size, s.world.exited k = none → OwnClass s (.dealloc k ptr size) →
    classIndex size < numClasses → ptr ∈ s.live (classIndex size) →
      ∃ w', dealloc s k ptr size = some w' ∧ BackInClass s w' k (classIndex size) ptr

variable {s : State κ} {i j : Nat} {a b : Allocator}

omit [DecidableEq κ] in
/-- The bytes of a block are inside its region. -/
theorem block_bounds (hinv : Inv tlFreelist s) (ha : s.alive i = some a) {x : Nat}
    (hx : (poolOf i a).block x) :
    a.region ≤ x ∧ x + a.blockSize ≤ a.region + a.blockCount * a.blockSize := by
  obtain ⟨m, hm, rfl⟩ := (poolOf_block (hinv.good i a ha)).mp hx
  exact ⟨Nat.le_add_right _ _, block_end_le hm⟩

omit [DecidableEq κ] in
/-- Two blocks of one class do not overlap. -/
theorem block_apart (hinv : Inv tlFreelist s) (ha : s.alive i = some a) {x y : Nat}
    (hx : (poolOf i a).block x) (hy : (poolOf i a).block y) (hne : x ≠ y) :
    x + a.blockSize ≤ y ∨ y + a.blockSize ≤ x := by
  obtain ⟨m, -, rfl⟩ := (poolOf_block (hinv.good i a ha)).mp hx
  obtain ⟨n, -, rfl⟩ := (poolOf_block (hinv.good i a ha)).mp hy
  rcases Nat.lt_trichotomy m n with hlt | heq | hlt
  · exact Or.inl (block_end_le hlt)
  · exact (hne (by rw [heq])).elim
  · exact Or.inr (block_end_le hlt)

omit [DecidableEq κ] in
/-- A block that a call has returned meets the request. -/
theorem meets_of_granted (hinv : Inv tlFreelist s) (hpools : Pools s) {size : Nat}
    (hlt : classIndex size < numClasses) (ha : s.alive (classIndex size) = some a)
    {w' : World κ Nat} {r : Nat} {g : Nat → List Nat} {l : κ → List Nat}
    (hafter : (poolOf (classIndex size) a).Inv w'
      (granted r (s.live (classIndex size))) g l) (hr : r ≠ 0) : Meets s size r := by
  rw [granted, if_neg hr] at hafter
  have hblock := hafter.block_of_live List.mem_cons_self
  have hsize : size ≤ a.blockSize :=
    Nat.le_trans (le_classSize hlt) (hpools.size _ a ha)
  obtain ⟨m, hm, heq⟩ := (poolOf_block (hinv.good _ a ha)).mp hblock
  refine ⟨⟨a, m, ha, hm, heq, hsize⟩, fun j b hb x hx => ?_⟩
  obtain ⟨g', l', howned⟩ := hinv.owned j b hb
  have hx' := howned.block_of_live hx
  by_cases hj : j = classIndex size
  · subst hj
    rw [ha, Option.some.injEq] at hb
    subst hb
    have hnodup := List.nodup_cons.mp (hafter.ledger.nodup .user)
    have hne : r ≠ x := by
      rintro rfl
      exact hnodup.1 hx
    rcases block_apart hinv ha hblock hx' hne with hsep | hsep <;> omega
  · have hbound := block_bounds hinv ha hblock
    have hbound' := block_bounds hinv hb hx'
    rcases hpools.apart _ j a b (Ne.symm hj) ha hb with hsep | hsep <;> omega

omit [DecidableEq κ] in
/-- A free block is in no place of a class that it is no block of. -/
theorem class_of_free (hinv : Inv tlFreelist s) (ha : s.alive i = some a) {x : Nat}
    (hx : (poolOf i a).block x) (hb : s.alive j = some b) :
    (x ∈ onList s.world j → j = i) ∧
      ∀ k c, s.world.caches k = some c → c.global = j → x ∈ inCache s.world k → j = i := by
  obtain ⟨g, l, howned⟩ := hinv.owned j b hb
  have hpool : (poolOf j b).pool j := rfl
  constructor
  · intro hmem
    rw [howned.onList_eq hpool] at hmem
    by_contra hne
    exact hinv.apart j i b a hne hb ha x (howned.block_of_global hmem) hx
  · intro k c hc hglobal hmem
    rw [howned.inCache_eq hc (hglobal.symm ▸ hpool)] at hmem
    by_contra hne
    exact hinv.apart j i b a hne hb ha x (howned.block_of_cache hmem) hx

variable {s₀ : State κ} {blocksPerClass batch : Nat} {k : κ} {size ptr : Nat}

/-- `dealloc` of a live block. -/
theorem back_in_class (h₀ : Constructed blocksPerClass batch s₀) (h : Kept s₀ s)
    (hk : s.world.exited k = none) (hown : OwnClass s (.dealloc k ptr size))
    (hlt : classIndex size < numClasses) (hlive : ptr ∈ s.live (classIndex size)) :
    ∃ w', dealloc s k ptr size = some w' ∧
      BackInClass s w' k (classIndex size) ptr := by
  obtain ⟨a, ha⟩ := h.pool h₀ hlt
  obtain ⟨g, l, howned⟩ := h.inv.owned _ a ha
  have hpool : (poolOf (classIndex size) a).pool (classIndex size) := rfl
  have havailable : Available s.world k (classIndex size) := ⟨hk, hown hlt⟩
  obtain ⟨w', hrun, hafter, hcalled⟩ := howned.deallocTo hpool havailable hlive
  have htouch := hcalled.onlyTouches hpool havailable
  have hinv' := h.inv.call ha ⟨_, _, hafter⟩ htouch
  have hblock := howned.block_of_live hlive
  refine ⟨w', ?_, hafter.freed hpool hcalled, ?_, ?_, a, ha, htouch⟩
  · rw [dealloc, if_neg (Nat.not_le.mpr hlt), ha, Option.bind_some]
    exact hrun
  · intro j hj hmem
    obtain ⟨b, hb⟩ := Option.ne_none_iff_exists'.mp hj
    exact (class_of_free hinv' ha hblock hb).1 hmem
  · intro j c hc hmem
    obtain ⟨b, hb⟩ := (h.pools h₀).created _ (hinv'.bound j c hc)
    exact (class_of_free hinv' ha hblock hb).2 j c hc rfl hmem

/-- In every state of a run whose calls come to their own class's cache, so do the
calls that meet requests by blocks of their class. -/
theorem requests_sized (blocksPerClass batch : Nat) (s₀ s : State κ)
    (h₀ : Constructed blocksPerClass batch s₀)
    (hs : Reachable (restrict (calls s₀) OwnClass) s) : Sized s := by
  have h := kept_of_reachable h₀ hs
  refine ⟨fun k size hk hown => ?_, fun k ptr size hk hown hlt hlive =>
    back_in_class h₀ h hk hown hlt hlive⟩
  by_cases hlt : classIndex size < numClasses
  · obtain ⟨a, ha⟩ := h.pool h₀ hlt
    obtain ⟨r, w', hrun, -, g, l, hafter⟩ := alloc_spec h.inv rfl hlt ha hk (hown hlt)
    exact ⟨r, w', hrun, meets_of_granted h.inv (h.pools h₀) hlt ha hafter⟩
  · refine ⟨0, s.world, ?_, fun hr => (hr rfl).elim⟩
    rw [alloc, if_pos (Nat.not_lt.mp hlt)]

end Requests

/-! ## Two classes and one thread -/

/-- The memory of a small allocator: 256 bytes for each of the first classes. -/
def memory1 (i : Nat) : Nat := 4096 * (i + 1)

/-- Two blocks per class, batches of 2. -/
def made2 : Option (State Nat) :=
  replay TlFreelistInstances.exec (TlFreelistInstances.nothing fun _ => 0)
    (newPools 2 2 memory1)

/-- Thread 0 asks for 16 bytes and then for 256: it is given block 0 of the class of
16, which has 64 bytes, at 4096; the class of 256 has its blocks at 20480. -/
theorem alloc_too_small : ∃ s₀ : State Nat, Constructed 2 2 s₀ ∧
    ¬ ∀ s, Reachable (calls s₀) s → ∀ k size r w', alloc s k size = some (r, w') →
      r ≠ 0 → Meets s size r := by
  have hmade : made2.any (fun s₀ =>
      (List.range numClasses).all (fun i => (s₀.alive i).isSome) &&
        (replay exec s₀ [.alloc 0 16]).any fun s =>
          (s.alive 4).any (fun a => a.region == 20480) &&
            (alloc s 0 256).any fun r => r.1 == 4096) = true := by
    decide
  obtain ⟨s₀, hs₀, hcheck⟩ := (Option.any_eq_true _ _).mp hmade
  rw [Bool.and_eq_true] at hcheck
  obtain ⟨halive, hrun⟩ := hcheck
  obtain ⟨s, hs, hcheck⟩ := (Option.any_eq_true _ _).mp hrun
  rw [Bool.and_eq_true] at hcheck
  obtain ⟨a, ha, hregion⟩ := (Option.any_eq_true _ _).mp hcheck.1
  obtain ⟨⟨r, w'⟩, hr, hres⟩ := (Option.any_eq_true _ _).mp hcheck.2
  refine ⟨s₀, ⟨_, _, hs₀, fun i hi => ?_⟩, fun hclaim => ?_⟩
  · have hsome := List.all_eq_true.mp halive i (List.mem_range.mpr hi)
    exact Option.isSome_iff_ne_none.mp hsome
  · obtain rfl : r = 4096 := beq_iff_eq.mp hres
    obtain ⟨⟨b, j, hb, -, heq, -⟩, -⟩ := hclaim s
      (Reachable.replay [.alloc 0 16] (.init rfl) hs) 0 256 4096 w' hr (by decide)
    have hb : s.alive 4 = some b := hb
    rw [ha, Option.some.injEq] at hb
    subst hb
    rw [beq_iff_eq.mp hregion] at heq
    omega

/-- With a thread for each of the two sizes, both requests are met. -/
theorem requests_sized_made2 : ∃ s₀ s : State Nat, made2 = some s₀ ∧
    replay exec s₀ [.alloc 0 16, .alloc 1 256] = some s ∧ Sized s := by
  have hmade : made2.any (fun s₀ =>
      (List.range numClasses).all (fun i => (s₀.alive i).isSome) &&
        decide (Along exec OwnClass s₀ [.alloc 0 16, .alloc 1 256]) &&
          (replay exec s₀ [.alloc 0 16, .alloc 1 256]).isSome) = true := by
    decide
  obtain ⟨s₀, hs₀, hcheck⟩ := (Option.any_eq_true _ _).mp hmade
  rw [Bool.and_eq_true, Bool.and_eq_true, decide_eq_true_eq] at hcheck
  obtain ⟨⟨halive, halong⟩, hrun⟩ := hcheck
  obtain ⟨s, hs⟩ := Option.isSome_iff_exists.mp hrun
  have h₀ : Constructed 2 2 s₀ := by
    refine ⟨_, _, hs₀, fun i hi => ?_⟩
    have hsome := List.all_eq_true.mp halive i (List.mem_range.mpr hi)
    exact Option.isSome_iff_ne_none.mp hsome
  exact ⟨s₀, s, hs₀, hs, requests_sized 2 2 s₀ s h₀
    (Reachable.replay_restrict _ (.init rfl) halong hs)⟩

end PoolMemalloc.Ports.MultiSizeAllocator
