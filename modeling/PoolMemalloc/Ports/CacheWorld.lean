import Mathlib.Data.List.Perm.Subperm
import PoolMemalloc.Ports.ThreadCache
import PoolMemalloc.Verified.Conservation

/-!
# Pools and the caches that draw on them

`ThreadLocalFreelistAllocator`, `NumaAllocator` and through the former
`MultiSizeAllocator` are made of pools, each a region and a `FreelistAllocator`,
and of `ThreadCache` objects found by a key: the thread, or the thread and the
node.  A cache is constructed at its key's first use and draws on the pool of that
use for good, whatever pool later calls mean.

`Instance.Inv` is what holds of one allocator object between calls, among any
others.  Its two operations keep it when the key's cache is bound to the pool meant
or to none (`Instance.Inv.allocFrom`, `Instance.Inv.deallocTo`), and then they change
nothing that belongs to another object (`Instance.OnlyTouches`,
`Instance.Inv.frame`).
-/

namespace PoolMemalloc.Ports.CacheWorld

open PoolMemalloc.Verified.SizeT
open PoolMemalloc.Verified.LinkedChain
open PoolMemalloc.Verified.Conservation
open PoolMemalloc.Ports.FreelistAllocator
open PoolMemalloc.Ports.ThreadCache

/-- The heap, the list head of every pool, and the caches.  `exited` is a history
variable: `none` while a key's thread runs, and then the nodes that its cache held at
the exit. -/
structure World (κ π : Type) where
  next : Heap
  globals : π → TaggedPtr
  caches : κ → Option (Cache π)
  exited : κ → Option (List Nat)

/-- Fuel for every walk: no chain is longer than there are addresses. -/
def addresses : Nat := 2 ^ 64

theorem lt_addresses {m n : Nat} (h : m + n < 2 ^ 64) : m < addresses :=
  Nat.lt_of_le_of_lt (Nat.le_add_right m n) h

/-- The nodes on the global list of a pool. -/
def onList {κ π : Type} (w : World κ π) (p : π) : List Nat :=
  nodes 0 w.next addresses (w.globals p).ptr

/-- The nodes in a key's cache. -/
def inCache {κ π : Type} (w : World κ π) (k : κ) : List Nat :=
  match w.caches k with
  | none => []
  | some c => nodes 0 w.next addresses c.localHead

section Operations

variable {κ π : Type}

/-- `get_cache`: the key's cache, constructed on `pool` at the first use. -/
def getCache (w : World κ π) (k : κ) (pool : π) (batch : Nat) : Cache π :=
  (w.caches k).getD (construct pool batch)

variable [DecidableEq κ] [DecidableEq π]

/-- `get_cache().alloc()`. -/
def allocFrom (w : World κ π) (k : κ) (pool : π) (batch : Nat) :
    Option (Nat × World κ π) :=
  let c := getCache w k pool batch
  (alloc addresses w.next (w.globals c.global) c).map fun r =>
    (r.1,
      { w with
        next := r.2.1
        globals := Function.update w.globals c.global r.2.2.1
        caches := Function.update w.caches k (some r.2.2.2) })

/-- `get_cache().dealloc(ptr)`. -/
def deallocTo (w : World κ π) (k : κ) (pool : π) (batch ptr : Nat) :
    Option (World κ π) :=
  let c := getCache w k pool batch
  (dealloc addresses w.next (w.globals c.global) c ptr).map fun r =>
    { w with
      next := r.1
      globals := Function.update w.globals c.global r.2.1
      caches := Function.update w.caches k (some r.2.2) }

/-- The pool a key's cache is on. -/
def boundTo (w : World κ π) (k : κ) : Option π := (w.caches k).map Cache.global

/-- A call of key `k` for pool `p`: only the key's first call decides what its cache is
on. -/
structure BindsFirst (k : κ) (p : π) (w w' : World κ π) : Prop where
  bound : boundTo w' k = (boundTo w k).or (some p)
  others : ∀ j, j ≠ k → boundTo w' j = boundTo w j
  exited : w'.exited = w.exited

omit [DecidableEq π] in
theorem BindsFirst.at {k : κ} {p : π} {w w' : World κ π} (h : BindsFirst k p w w') (j : κ) :
    boundTo w' j = (boundTo w j).or (if k = j then some p else none) := by
  by_cases hj : k = j
  · rw [if_pos hj, ← hj]
    exact h.bound
  · rw [if_neg hj, Option.or_none]
    exact h.others j (Ne.symm hj)

omit [DecidableEq κ] [DecidableEq π] in
theorem getCache_global (w : World κ π) (k : κ) (pool : π) (batch : Nat) :
    some (getCache w k pool batch).global = (boundTo w k).or (some pool) := by
  unfold getCache boundTo
  cases w.caches k with
  | none => rfl
  | some c => rfl

theorem allocFrom_binds {w : World κ π} {k : κ} {pool : π} {batch : Nat}
    {r : Nat × World κ π} (h : allocFrom w k pool batch = some r) : BindsFirst k pool w r.2 := by
  obtain ⟨made, hmade, rfl⟩ := Option.map_eq_some_iff.mp h
  constructor
  · rw [← getCache_global w k pool batch, ← alloc_global hmade]
    simp only [boundTo, Function.update_self, Option.map_some]
  · intro j hj
    simp only [boundTo, Function.update_of_ne hj]
  · rfl

theorem deallocTo_binds {w w' : World κ π} {k : κ} {pool : π} {batch ptr : Nat}
    (h : deallocTo w k pool batch ptr = some w') : BindsFirst k pool w w' := by
  obtain ⟨made, hmade, rfl⟩ := Option.map_eq_some_iff.mp h
  constructor
  · rw [← getCache_global w k pool batch, ← dealloc_global hmade]
    simp only [boundTo, Function.update_self, Option.map_some]
  · intro j hj
    simp only [boundTo, Function.update_of_ne hj]
  · rfl

/-- The end of a thread destroys the caches under its keys; `~ThreadCache` does
nothing else. -/
def exit (w : World κ π) (gone : κ → Bool) : World κ π :=
  { w with
    caches := fun k => if gone k then none else w.caches k
    exited := fun k =>
      if gone k then some ((w.exited k).getD (inCache w k)) else w.exited k }

omit [DecidableEq κ] [DecidableEq π] in
/-- A thread that has not exited keeps its caches. -/
theorem exit_bound {w : World κ π} {gone : κ → Bool} {k : κ}
    (hk : (exit w gone).exited k = none) :
    boundTo (exit w gone) k = boundTo w k ∧ w.exited k = none := by
  unfold exit boundTo at *
  cases hgone : gone k with
  | true => simp [hgone] at hk
  | false =>
      simp only [hgone] at hk ⊢
      exact ⟨rfl, hk⟩

/-- A user writes into the first word of a block. -/
def userWrite (w : World κ π) (b v : Nat) : World κ π :=
  { w with next := Function.update w.next b v }

end Operations

/-! ## One allocator object between calls -/

/-- The pools and the blocks of one allocator object, and the batch of the caches
constructed for it. -/
structure Instance (π : Type) where
  pool : π → Prop
  block : Nat → Prop
  batch : Nat

/-- The places a block can be in. -/
inductive Place (κ π : Type)
  | global (p : π)
  | cache (k : κ)
  | user
  deriving DecidableEq

def cell {κ π : Type} (g : π → List Nat) (l : κ → List Nat) (live : List Nat) :
    Place κ π → List Nat
  | .global p => g p
  | .cache k => l k
  | .user => live

/-- Neither the key's cache nor the pool has a node. -/
def Dry {κ π : Type} (w : World κ π) (k : κ) (pool : π) (batch : Nat) : Prop :=
  (getCache w k pool batch).localHead = 0 ∧ (w.globals pool).ptr = 0

instance {κ π : Type} (w : World κ π) (k : κ) (pool : π) (batch : Nat) :
    Decidable (Dry w k pool batch) :=
  inferInstanceAs (Decidable (_ ∧ _))

/-- The key's cache is constructed on this pool, or not yet. -/
def Available {κ π : Type} (w : World κ π) (k : κ) (pool : π) : Prop :=
  w.exited k = none ∧ ∀ c, w.caches k = some c → c.global = pool

instance {κ π : Type} [DecidableEq π] (w : World κ π) (k : κ) (pool : π) :
    Decidable (Available w k pool) :=
  inferInstanceAs (Decidable (w.exited k = none ∧ ∀ c ∈ w.caches k, c.global = pool))

/-- The global list of pool `p` has the nodes `g p`, the cache of key `k` those in
`l k`, and the users hold `live`.  For a key that has exited, `l k` is what the cache
has left behind. -/
structure Instance.Inv {κ π : Type} (A : Instance π) (w : World κ π)
    (live : List Nat) (g : π → List Nat) (l : κ → List Nat) : Prop where
  address : ∀ b, A.block b → b ≠ 0 ∧ b < 2 ^ 64
  global : ∀ p, A.pool p → Chain 0 w.next (w.globals p).ptr (g p)
  foreign : ∀ p, ¬ A.pool p → g p = []
  bound : ∀ k c, w.caches k = some c → A.pool c.global →
    Chain 0 w.next c.localHead (l k) ∧ c.localSize = (l k).length ∧
      c.batchSize = A.batch ∧ c.lowWatermark = A.batch / 2 ∧
      c.highWatermark = wrap (A.batch * 2)
  other : ∀ k c, w.caches k = some c → ¬ A.pool c.global → l k = []
  unused : ∀ k, w.caches k = none → w.exited k = none → l k = []
  gone : ∀ k held, w.exited k = some held → w.caches k = none ∧ ∀ b ∈ l k, b ∈ held
  ledger : Ledger A.block (cell g l live)

/-- From `w` to `w'` only free lists and caches that belong to `A` have changed.
A cache that was constructed in between belongs to `A` too. -/
structure Instance.OnlyTouches {κ π : Type} (A : Instance π) (w w' : World κ π) :
    Prop where
  globals : ∀ p, ¬ A.pool p → w'.globals p = w.globals p
  caches : ∀ k, w'.caches k = w.caches k ∨
    (w.exited k = none ∧ (∀ c, w.caches k = some c → A.pool c.global) ∧
      ∃ c, w'.caches k = some c ∧ A.pool c.global)
  links : ∀ b, ¬ A.block b → w'.next b = w.next b
  exited : w'.exited = w.exited

/-- From `w` to `w'` one call of key `k` has run on pool `p` of `A`. -/
structure Instance.Called {κ π : Type} (A : Instance π) (k : κ) (p : π)
    (w w' : World κ π) : Prop where
  globals : ∀ q, q ≠ p → w'.globals q = w.globals q
  caches : ∀ j, j ≠ k → w'.caches j = w.caches j
  bound : ∃ c, w'.caches k = some c ∧ c.global = p
  links : ∀ b, ¬ A.block b → w'.next b = w.next b
  exited : w'.exited = w.exited

section Instances

variable {κ π : Type} {A B : Instance π} {w w' w'' : World κ π} {live : List Nat}
variable {g : π → List Nat} {l : κ → List Nat} {k : κ} {p : π}

theorem Instance.OnlyTouches.refl (A : Instance π) (w : World κ π) :
    A.OnlyTouches w w where
  globals _ _ := rfl
  caches _ := .inl rfl
  links _ _ := rfl
  exited := rfl

theorem Instance.OnlyTouches.trans (h : A.OnlyTouches w w')
    (h' : A.OnlyTouches w' w'') : A.OnlyTouches w w'' where
  globals p hp := (h'.globals p hp).trans (h.globals p hp)
  caches k := by
    rcases h'.caches k with heq | ⟨hexited, hmine, hnew⟩
    · rw [heq]
      exact h.caches k
    · right
      rw [h.exited] at hexited
      rcases h.caches k with hsame | ⟨-, hbefore, -⟩
      · exact ⟨hexited, fun c hc => hmine c (hsame ▸ hc), hnew⟩
      · exact ⟨hexited, hbefore, hnew⟩
  links b hb := (h'.links b hb).trans (h.links b hb)
  exited := h'.exited.trans h.exited

theorem Instance.Called.onlyTouches [DecidableEq κ] (h : A.Called k p w w')
    (hp : A.pool p) (hk : Available w k p) : A.OnlyTouches w w' where
  globals q hq := h.globals q fun heq => hq (heq ▸ hp)
  caches j := by
    by_cases hj : j = k
    · subst hj
      obtain ⟨c, hc, hglobal⟩ := h.bound
      exact .inr ⟨hk.1, fun d hd => (hk.2 d hd).symm ▸ hp, c, hc, hglobal.symm ▸ hp⟩
    · exact .inl (h.caches j hj)
  links := h.links
  exited := h.exited

/-- What a change must leave alone to keep the invariant: the links of the blocks
that are not with the user, the lists, and of each cache either all of it, or that it
is none of `A`'s, or what it held at its thread's exit. -/
theorem Instance.Inv.congr (h : A.Inv w live g l)
    (hlinks : ∀ b, A.block b → b ∉ live → w'.next b = w.next b)
    (hglobals : ∀ p, A.pool p → w'.globals p = w.globals p)
    (hcaches : ∀ k, (w'.caches k = w.caches k ∧ w'.exited k = w.exited k) ∨
      (l k = [] ∧ w'.exited k = none ∧ ∀ c, w'.caches k = some c → ¬ A.pool c.global) ∨
      (w'.caches k = none ∧ ∃ held, w'.exited k = some held ∧ ∀ b ∈ l k, b ∈ held)) :
    A.Inv w' live g l := by
  have hkeep : ∀ i : Place κ π, i ≠ .user → ∀ b ∈ cell g l live i,
      w'.next b = w.next b := fun i hi b hb =>
    hlinks b (h.ledger.mem_of hb) (h.ledger.notMem hb hi.symm)
  exact
    { address := h.address
      global := fun p hp => by
        rw [hglobals p hp]
        exact Segment.congr (hkeep (.global p) (by simp)) (h.global p hp)
      foreign := h.foreign
      bound := fun k c hc hp => by
        rcases hcaches k with ⟨hsame, -⟩ | ⟨-, -, hforeign⟩ | ⟨hnone, -⟩
        · rw [hsame] at hc
          obtain ⟨hchain, hrest⟩ := h.bound k c hc hp
          exact ⟨Segment.congr (hkeep (.cache k) (by simp)) hchain, hrest⟩
        · exact (hforeign c hc hp).elim
        · rw [hnone] at hc
          cases hc
      other := fun k c hc hp => by
        rcases hcaches k with ⟨hsame, -⟩ | ⟨hempty, -⟩ | ⟨hnone, -⟩
        · exact h.other k c (hsame ▸ hc) hp
        · exact hempty
        · rw [hnone] at hc
          cases hc
      unused := fun k hc hexited => by
        rcases hcaches k with ⟨hsame, hsame'⟩ | ⟨hempty, -⟩ | ⟨-, held, hgone, -⟩
        · exact h.unused k (hsame ▸ hc) (hsame' ▸ hexited)
        · exact hempty
        · rw [hgone] at hexited
          cases hexited
      gone := fun k held hexited => by
        rcases hcaches k with ⟨hsame, hsame'⟩ | ⟨-, hrunning, -⟩ | ⟨hnone, left, hgone, hleft⟩
        · rw [hsame]
          exact h.gone k held (hsame' ▸ hexited)
        · rw [hrunning] at hexited
          cases hexited
        · rw [hgone, Option.some.injEq] at hexited
          exact ⟨hnone, hexited ▸ hleft⟩
      ledger := h.ledger }

/-- What changes only another object's lists and caches keeps the invariant. -/
theorem Instance.Inv.frame (h : B.Inv w live g l) (htouch : A.OnlyTouches w w')
    (hpool : ∀ p, A.pool p → ¬ B.pool p) (hblock : ∀ b, A.block b → ¬ B.block b) :
    B.Inv w' live g l := by
  refine h.congr (fun b hb _ => htouch.links b fun hA => hblock b hA hb)
    (fun p hp => htouch.globals p fun hA => hpool p hA hp) fun k => ?_
  rcases htouch.caches k with hsame | ⟨hexited, hmine, c, hc, hp⟩
  · exact .inl ⟨hsame, by rw [htouch.exited]⟩
  · refine .inr (.inl ⟨?_, by rw [htouch.exited, hexited], fun d hd hB => ?_⟩)
    · cases hold : w.caches k with
      | none => exact h.unused k hold hexited
      | some d => exact h.other k d hold (hpool _ (hmine d hold))
    · rw [hc, Option.some.injEq] at hd
      exact hpool _ hp (hd ▸ hB)

/-- Users write into their own blocks. -/
theorem Instance.Inv.userWrite (h : A.Inv w live g l) {b : Nat} (v : Nat)
    (hb : A.block b → b ∈ live) : A.Inv (CacheWorld.userWrite w b v) live g l := by
  refine h.congr (fun d hd hfree => Function.update_of_ne ?_ _ _) (fun _ _ => rfl)
    fun _ => .inl ⟨rfl, rfl⟩
  rintro rfl
  exact hfree (hb hd)

theorem Instance.Inv.block_of_global (h : A.Inv w live g l) {b : Nat} (hb : b ∈ g p) :
    A.block b :=
  (h.ledger.mem b).mpr ⟨.global p, hb⟩

theorem Instance.Inv.block_of_cache (h : A.Inv w live g l) {b : Nat} (hb : b ∈ l k) :
    A.block b :=
  (h.ledger.mem b).mpr ⟨.cache k, hb⟩

theorem Instance.Inv.block_of_live (h : A.Inv w live g l) {b : Nat} (hb : b ∈ live) :
    A.block b :=
  (h.ledger.mem b).mpr ⟨.user, hb⟩

/-- Distinct items below `n` are fewer than `n` if 0 is not among them. -/
private theorem length_lt_of_nodup {n : Nat} {items : List Nat} (hn : 0 < n)
    (hnodup : items.Nodup) (hrange : ∀ b ∈ items, b ≠ 0 ∧ b < n) :
    items.length < n := by
  have hcons : (0 :: items).Nodup :=
    List.nodup_cons.mpr ⟨fun hmem => (hrange 0 hmem).1 rfl, hnodup⟩
  have hsub : 0 :: items ⊆ List.range n := by
    intro b hb
    rw [List.mem_range]
    rcases List.mem_cons.mp hb with rfl | hb
    · exact hn
    · exact (hrange b hb).2
  have hle := (List.subperm_of_subset hcons hsub).length_le
  rwa [List.length_range, List.length_cons] at hle

/-- Two places together hold fewer nodes than there are addresses. -/
theorem length_lt_of_ledger {Q : Nat → Prop} (h : Ledger Q (cell g l live))
    (haddress : ∀ b, Q b → b ≠ 0 ∧ b < 2 ^ 64) {i j : Place κ π} (hne : i ≠ j) :
    (cell g l live i).length + (cell g l live j).length < 2 ^ 64 := by
  rw [← List.length_append]
  refine length_lt_of_nodup (by decide) (h.nodup_append hne) fun b hb => haddress b ?_
  rcases List.mem_append.mp hb with hb | hb
  · exact h.mem_of hb
  · exact h.mem_of hb

/-- A cache has room for one more node as long as some node is live. -/
theorem length_succ_lt_of_live {Q : Nat → Prop} (h : Ledger Q (cell g l live))
    (haddress : ∀ b, Q b → b ≠ 0 ∧ b < 2 ^ 64) {ptr : Nat} (hlive : ptr ∈ live) (k : κ) :
    (l k).length + 1 < 2 ^ 64 := by
  have hlt : (l k).length + live.length < 2 ^ 64 :=
    length_lt_of_ledger (i := .cache k) (j := .user) h haddress (by simp)
  have hpos := List.length_pos_of_mem hlive
  omega

/-- A live node is on no list. -/
theorem notMem_of_live {Q : Nat → Prop} (h : Ledger Q (cell g l live)) {ptr : Nat}
    (hlive : ptr ∈ live) (p : π) (k : κ) : ptr ∉ g p ++ l k := by
  intro hmem
  rcases List.mem_append.mp hmem with hmem | hmem
  · exact nomatch h.only (.global p) .user ptr hmem hlive
  · exact nomatch h.only (.cache k) .user ptr hmem hlive

theorem Instance.Inv.length_lt (h : A.Inv w live g l) {i j : Place κ π}
    (hne : i ≠ j) :
    (cell g l live i).length + (cell g l live j).length < 2 ^ 64 :=
  length_lt_of_ledger h.ledger h.address hne

/-- A walk over a chain of the cache finds all of it. -/
theorem Instance.Inv.inCache_eq (h : A.Inv w live g l) {c : Cache π}
    (hc : w.caches k = some c) (hp : A.pool c.global) : inCache w k = l k := by
  have hlen : (l k).length + live.length < 2 ^ 64 :=
    h.length_lt (i := .cache k) (j := .user) (by simp)
  rw [inCache, hc]
  exact Chain.nodes_eq (h.bound k c hc hp).1 (Nat.le_of_lt (lt_addresses hlen))

theorem Instance.Inv.onList_eq (h : A.Inv w live g l) (hp : A.pool p) :
    onList w p = g p := by
  have hlen : (g p).length + live.length < 2 ^ 64 :=
    h.length_lt (i := .global p) (j := .user) (by simp)
  exact Chain.nodes_eq (h.global p hp) (Nat.le_of_lt (lt_addresses hlen))

/-- A node of a key's list is in the key's cache, or was left behind by it. -/
theorem Instance.Inv.inCache_or_left (h : A.Inv w live g l) {b : Nat} (hb : b ∈ l k) :
    (w.exited k = none ∧ b ∈ inCache w k) ∨
      ∃ held, w.exited k = some held ∧ b ∈ held := by
  cases hexited : w.exited k with
  | some held => exact .inr ⟨held, rfl, (h.gone k held hexited).2 b hb⟩
  | none =>
      cases hc : w.caches k with
      | none =>
          rw [h.unused k hc hexited] at hb
          cases hb
      | some c =>
          by_cases hp : A.pool c.global
          · exact .inl ⟨rfl, h.inCache_eq hc hp ▸ hb⟩
          · rw [h.other k c hc hp] at hb
            cases hb

/-- A thread's exit leaves its nodes where they are. -/
theorem Instance.Inv.exit (h : A.Inv w live g l) (gone : κ → Bool) :
    A.Inv (CacheWorld.exit w gone) live g l := by
  refine h.congr (fun _ _ _ => rfl) (fun _ _ => rfl) fun k => ?_
  simp only [CacheWorld.exit]
  cases gone k with
  | false => exact .inl ⟨rfl, rfl⟩
  | true =>
      refine .inr (.inr ⟨rfl, _, rfl, fun b hb => ?_⟩)
      rcases h.inCache_or_left hb with ⟨hexited, hmem⟩ | ⟨held, hexited, hmem⟩
      · rwa [hexited]
      · rwa [hexited]

/-- The key's cache, ready for a call on the pool. -/
theorem Instance.Inv.cached (h : A.Inv w live g l) (hp : A.pool p)
    (hk : Available w k p) :
    (getCache w k p A.batch).global = p ∧
      Cached A.batch w.next (w.globals p) (getCache w k p A.batch) (g p) (l k) := by
  have hne : (Place.global p : Place κ π) ≠ .cache k := by simp
  have hnodup : (g p ++ l k).Nodup := h.ledger.nodup_append hne
  unfold getCache
  cases hc : w.caches k with
  | none =>
      have hnone := h.unused k hc hk.1
      rw [hnone] at hnodup ⊢
      exact ⟨rfl, h.global p hp, rfl, rfl, hnodup, rfl, rfl, rfl⟩
  | some c =>
      have hglobal := hk.2 c hc
      obtain ⟨hchain, hsize, hbatch, hlow, hhigh⟩ := h.bound k c hc (hglobal ▸ hp)
      exact ⟨hglobal, h.global p hp, hchain, hsize, hnodup, hbatch, hlow, hhigh⟩

theorem Instance.Inv.dry_iff (h : A.Inv w live g l) (hp : A.pool p)
    (hk : Available w k p) : Dry w k p A.batch ↔ l k = [] ∧ g p = [] := by
  obtain ⟨-, hcached⟩ := h.cached hp hk
  rw [hcached.chain.eq_nil_iff, hcached.global.eq_nil_iff]
  rfl

/-- What `alloc` returns is null exactly if both lists are empty. -/
theorem Instance.Inv.headD_eq_zero_iff (h : A.Inv w live g l) :
    (refilled A.batch (g p) (l k)).2.headD 0 = 0 ↔ l k = [] ∧ g p = [] := by
  rw [← refilled_eq_nil A.batch]
  cases hchain : (refilled A.batch (g p) (l k)).2 with
  | nil => simp
  | cons b rest =>
      have hb : b ∈ g p ++ l k := by
        have hperm := refilled_perm A.batch (g p) (l k)
        rw [hchain] at hperm
        exact hperm.mem_iff.mp (by simp)
      have hblock : A.block b :=
        (List.mem_append.mp hb).elim h.block_of_global h.block_of_cache
      simpa using (h.address b hblock).1

/-! ## The two operations -/

variable [DecidableEq κ] [DecidableEq π]

/-- The world after a call of key `k` on pool `p`. -/
def called (w : World κ π) (k : κ) (p : π) (next : Heap) (head : TaggedPtr)
    (c : Cache π) : World κ π :=
  { w with
    next := next
    globals := Function.update w.globals p head
    caches := Function.update w.caches k (some c) }

/-- A call that leaves the lists `gs` and `ls`. -/
private theorem Instance.Inv.called (h : A.Inv w live g l) (hp : A.pool p)
    (hk : Available w k p) {next : Heap} {head : TaggedPtr} {c : Cache π}
    {gs ls live' : List Nat} (hcached : Cached A.batch next head c gs ls)
    (hglobal : c.global = p)
    (hlinks : ∀ b, b ∉ g p → b ∉ l k → b ∉ live → next b = w.next b)
    (hledger : Ledger A.block
      (cell (Function.update g p gs) (Function.update l k ls) live')) :
    A.Inv (called w k p next head c) live' (Function.update g p gs)
        (Function.update l k ls) ∧ A.Called k p w (called w k p next head c) := by
  have hkeep : ∀ i : Place κ π, i ≠ .global p → i ≠ .cache k → i ≠ .user →
      ∀ b ∈ cell g l live i, next b = w.next b := fun i hi hi' hi'' b hb =>
    hlinks b (fun hmem => hi (h.ledger.only i (.global p) b hb hmem))
      (fun hmem => hi' (h.ledger.only i (.cache k) b hb hmem))
      fun hmem => hi'' (h.ledger.only i .user b hb hmem)
  have hlists : ∀ b, ¬ A.block b → next b = w.next b := fun b hb =>
    hlinks b (fun hmem => hb (h.block_of_global hmem))
      (fun hmem => hb (h.block_of_cache hmem)) fun hmem => hb (h.block_of_live hmem)
  constructor
  · exact
      { address := h.address
        global := fun q hq => by
          simp only [CacheWorld.called]
          by_cases hqp : q = p
          · subst hqp
            simpa only [Function.update_self] using hcached.global
          · simp only [Function.update_of_ne hqp]
            exact Segment.congr (hkeep (.global q) (by simpa) (by simp) (by simp))
              (h.global q hq)
        foreign := fun q hq => by
          have hne : q ≠ p := fun heq => hq (heq ▸ hp)
          rw [Function.update_of_ne hne]
          exact h.foreign q hq
        bound := fun j d hd hq => by
          simp only [CacheWorld.called] at hd ⊢
          by_cases hj : j = k
          · subst hj
            rw [Function.update_self, Option.some.injEq] at hd
            subst hd
            rw [Function.update_self]
            exact ⟨hcached.chain, hcached.size, hcached.batchSize, hcached.low,
              hcached.high⟩
          · rw [Function.update_of_ne hj] at hd ⊢
            obtain ⟨hchain, hrest⟩ := h.bound j d hd hq
            exact ⟨Segment.congr (hkeep (.cache j) (by simp) (by simpa) (by simp))
              hchain, hrest⟩
        other := fun j d hd hq => by
          simp only [CacheWorld.called] at hd
          by_cases hj : j = k
          · subst hj
            rw [Function.update_self, Option.some.injEq] at hd
            exact (hq (hd ▸ hglobal ▸ hp)).elim
          · rw [Function.update_of_ne hj] at hd ⊢
            exact h.other j d hd hq
        unused := fun j hd hexited => by
          simp only [CacheWorld.called] at hd hexited
          by_cases hj : j = k
          · subst hj
            rw [Function.update_self] at hd
            cases hd
          · rw [Function.update_of_ne hj] at hd ⊢
            exact h.unused j hd hexited
        gone := fun j held hexited => by
          have hj : j ≠ k := fun heq => by
            have hnone := hk.1
            rw [← heq, show w.exited j = some held from hexited] at hnone
            cases hnone
          simp only [CacheWorld.called, Function.update_of_ne hj]
          exact h.gone j held hexited
        ledger := hledger }
  · exact
      { globals := fun q hq => Function.update_of_ne hq _ _
        caches := fun j hj => Function.update_of_ne hj _ _
        bound := ⟨c, Function.update_self .., hglobal⟩
        links := hlists
        exited := rfl }

/-- Nodes move between the global list of a pool and a cache. -/
private theorem ledger_exchange {Q : Nat → Prop} {gs ls : List Nat}
    (h : Ledger Q (cell g l live)) (hperm : (gs ++ ls).Perm (g p ++ l k)) :
    Ledger Q (cell (Function.update g p gs) (Function.update l k ls) live) := by
  have hne : (Place.global p : Place κ π) ≠ .cache k := by simp
  refine h.move hne ?_ fun j hj hj' => ?_
  · simpa only [cell, Function.update_self] using hperm
  · cases j with
    | global q => exact Function.update_of_ne (fun heq => hj (by rw [heq])) _ _
    | cache i => exact Function.update_of_ne (fun heq => hj' (by rw [heq])) _ _
    | user => rfl

omit [DecidableEq π] in
/-- Nodes move between a cache and the users. -/
private theorem ledger_trade {Q : Nat → Prop} {ls live' : List Nat}
    (h : Ledger Q (cell g l live)) (hperm : (ls ++ live').Perm (l k ++ live)) :
    Ledger Q (cell g (Function.update l k ls) live') := by
  have hne : (Place.cache k : Place κ π) ≠ .user := by simp
  refine h.move hne ?_ fun j hj hj' => ?_
  · simpa only [cell, Function.update_self] using hperm
  · cases j with
    | global q => rfl
    | cache i => exact Function.update_of_ne (fun heq => hj (by rw [heq])) _ _
    | user => exact (hj' rfl).elim

/-- What the users hold once a call has returned `r`. -/
def granted (r : Nat) (live : List Nat) : List Nat :=
  if r = 0 then live else r :: live

/-- An allocation moves nodes from the pool to the cache, and one to the users. -/
theorem ledger_allocated {Q : Nat → Prop} (h : Ledger Q (cell g l live))
    (hne : ∀ b, Q b → b ≠ 0) (batch : Nat) (p : π) (k : κ) :
    Ledger Q (cell (Function.update g p (refilled batch (g p) (l k)).1)
      (Function.update l k (refilled batch (g p) (l k)).2.tail)
      (granted ((refilled batch (g p) (l k)).2.headD 0) live)) := by
  have hmoved := ledger_exchange h (refilled_perm batch (g p) (l k))
  cases hchain : (refilled batch (g p) (l k)).2 with
  | nil =>
      rw [hchain] at hmoved
      exact hmoved
  | cons b rest =>
      rw [hchain] at hmoved
      have hb : Q b := (hmoved.mem b).mpr ⟨.cache k, by simp [cell]⟩
      have hgranted : granted b live = b :: live := if_neg (hne b hb)
      rw [List.headD_cons, List.tail_cons, hgranted]
      have hperm : (rest ++ b :: live).Perm
          (Function.update l k (b :: rest) k ++ live) := by
        rw [Function.update_self]
        exact List.perm_middle
      have htrade := ledger_trade hmoved hperm
      rwa [Function.update_idem] at htrade

/-- A deallocation moves one node to the cache, and nodes from there to the pool. -/
theorem ledger_freed {Q : Nat → Prop} (h : Ledger Q (cell g l live)) {ptr : Nat}
    (hlive : ptr ∈ live) (batch : Nat) (p : π) (k : κ) :
    Ledger Q (cell (Function.update g p (flushed batch (g p) (ptr :: l k)).1)
      (Function.update l k (flushed batch (g p) (ptr :: l k)).2) (live.erase ptr)) := by
  have htraded : Ledger Q
      (cell g (Function.update l k (ptr :: l k)) (live.erase ptr)) := by
    refine ledger_trade h ?_
    exact List.perm_middle.symm.trans
      ((List.perm_cons_erase hlive).symm.append_left (l k))
  have hperm : ((flushed batch (g p) (ptr :: l k)).1 ++
      (flushed batch (g p) (ptr :: l k)).2).Perm
        (g p ++ Function.update l k (ptr :: l k) k) := by
    rw [Function.update_self]
    exact flushed_perm batch (g p) (ptr :: l k)
  have hledger := ledger_exchange htraded hperm
  rwa [Function.update_idem] at hledger

/-- A whole `alloc` on a pool of `A`: it returns, and takes the top of the refilled
chain if there is one. -/
theorem Instance.Inv.allocFrom (h : A.Inv w live g l) (hp : A.pool p)
    (hk : Available w k p) :
    ∃ w', CacheWorld.allocFrom w k p A.batch =
        some ((refilled A.batch (g p) (l k)).2.headD 0, w') ∧
      A.Inv w' (granted ((refilled A.batch (g p) (l k)).2.headD 0) live)
        (Function.update g p (refilled A.batch (g p) (l k)).1)
        (Function.update l k (refilled A.batch (g p) (l k)).2.tail) ∧
      A.Called k p w w' := by
  obtain ⟨hglobal, hcached⟩ := h.cached hp hk
  have hbound : (g p).length + (l k).length < 2 ^ 64 :=
    h.length_lt (i := .global p) (j := .cache k) (by simp)
  obtain ⟨next, head, c, hrun, hafter, hkept, hframe⟩ :=
    alloc_spec hcached (lt_addresses hbound) hbound
  have hledger := ledger_allocated h.ledger (fun b hb => (h.address b hb).1) A.batch p k
  obtain ⟨hinv, hcalled⟩ := h.called hp hk hafter (hkept.trans hglobal)
    (fun b hb _ _ => hframe b hb) hledger
  refine ⟨CacheWorld.called w k p next head c, ?_, hinv, hcalled⟩
  simp only [CacheWorld.allocFrom, hglobal, hrun, Option.map_some, CacheWorld.called]

/-- `alloc` with both lists empty: it returns null, and at most constructs the cache. -/
theorem Instance.Inv.allocFrom_dry (h : A.Inv w live g l) (hp : A.pool p)
    (hk : Available w k p) (hl : l k = []) (hg : g p = []) :
    ∃ w', CacheWorld.allocFrom w k p A.batch = some (0, w') ∧ A.Inv w' live g l ∧
      A.Called k p w w' := by
  obtain ⟨w', hrun, hinv, hcalled⟩ := h.allocFrom hp hk
  have hempty : refilled A.batch (g p) (l k) = ([], []) := by
    rw [hg, hl]
    simp [refilled]
  have hlist : Function.update g p [] = g := by
    rw [← hg, Function.update_eq_self]
  have hcache : Function.update l k [] = l := by
    rw [← hl, Function.update_eq_self]
  rw [hempty] at hrun hinv
  rw [hlist, List.tail_nil, hcache] at hinv
  exact ⟨w', hrun, hinv, hcalled⟩

/-- `alloc` with a block in one of the lists: it returns a block of one of them. -/
theorem Instance.Inv.allocFrom_block (h : A.Inv w live g l) (hp : A.pool p)
    (hk : Available w k p) (hblock : ¬ (l k = [] ∧ g p = [])) :
    ∃ r w' gs ls, CacheWorld.allocFrom w k p A.batch = some (r, w') ∧ r ≠ 0 ∧
      (gs ++ r :: ls).Perm (g p ++ l k) ∧
      A.Inv w' (r :: live) (Function.update g p gs) (Function.update l k ls) ∧
      A.Called k p w w' := by
  obtain ⟨w', hrun, hinv, hcalled⟩ := h.allocFrom hp hk
  have hne : (refilled A.batch (g p) (l k)).2.headD 0 ≠ 0 := fun hnull =>
    hblock (h.headD_eq_zero_iff.mp hnull)
  have hperm := refilled_perm A.batch (g p) (l k)
  cases hchain : (refilled A.batch (g p) (l k)).2 with
  | nil =>
      rw [hchain] at hne
      exact (hne rfl).elim
  | cons r rest =>
      rw [hchain] at hrun hinv hperm hne
      rw [granted, if_neg hne] at hinv
      exact ⟨r, w', _, rest, hrun, hne, hperm, hinv, hcalled⟩

/-- A whole `dealloc` of a live block on a pool of `A`. -/
theorem Instance.Inv.deallocTo (h : A.Inv w live g l) (hp : A.pool p)
    (hk : Available w k p) {ptr : Nat} (hlive : ptr ∈ live) :
    ∃ w', CacheWorld.deallocTo w k p A.batch ptr = some w' ∧
      A.Inv w' (live.erase ptr)
        (Function.update g p (flushed A.batch (g p) (ptr :: l k)).1)
        (Function.update l k (flushed A.batch (g p) (ptr :: l k)).2) ∧
      A.Called k p w w' := by
  obtain ⟨hglobal, hcached⟩ := h.cached hp hk
  have hptr : A.block ptr := h.block_of_live hlive
  have hnew := notMem_of_live h.ledger hlive p k
  have hbound := length_succ_lt_of_live h.ledger h.address hlive k
  obtain ⟨next, head, c, hrun, hafter, hkept, hframe⟩ :=
    dealloc_spec hcached (h.address ptr hptr).1 hnew
      (show (l k).length + 1 < addresses from hbound) hbound
  have hledger := ledger_freed h.ledger hlive A.batch p k
  obtain ⟨hinv, hcalled⟩ := h.called hp hk hafter (hkept.trans hglobal)
    (fun b _ hb hb' => hframe b fun hmem => (List.mem_cons.mp hmem).elim
      (fun heq => hb' (heq ▸ hlive)) hb) hledger
  refine ⟨CacheWorld.called w k p next head c, ?_, hinv, hcalled⟩
  simp only [CacheWorld.deallocTo, hglobal, hrun, Option.map_some, CacheWorld.called]

/-- Where the block is then. -/
theorem Instance.Inv.freed {ptr : Nat}
    (h : A.Inv w' live (Function.update g p (flushed A.batch (g p) (ptr :: l k)).1)
      (Function.update l k (flushed A.batch (g p) (ptr :: l k)).2))
    (hp : A.pool p) (hcalled : A.Called k p w w') :
    ptr ∈ onList w' p ∨ ptr ∈ inCache w' k := by
  have hmem : ptr ∈ g p ++ ptr :: l k :=
    List.mem_append_right _ List.mem_cons_self
  obtain ⟨c, hc, hglobal⟩ := hcalled.bound
  rw [h.onList_eq hp, h.inCache_eq hc (hglobal.symm ▸ hp), Function.update_self,
    Function.update_self]
  exact List.mem_append.mp
    ((flushed_perm A.batch (g p) (ptr :: l k)).mem_iff.mpr hmem)

/-- `dealloc(nullptr)` returns; its only effect is that of `get_cache`. -/
theorem Instance.Inv.deallocTo_null (h : A.Inv w live g l) (hp : A.pool p)
    (hk : Available w k p) :
    ∃ w', CacheWorld.deallocTo w k p A.batch 0 = some w' ∧ A.Inv w' live g l ∧
      A.Called k p w w' := by
  obtain ⟨hglobal, hcached⟩ := h.cached hp hk
  have hledger : Ledger A.block
      (cell (Function.update g p (g p)) (Function.update l k (l k)) live) := by
    rw [Function.update_eq_self, Function.update_eq_self]
    exact h.ledger
  obtain ⟨hinv, hcalled⟩ := h.called hp hk hcached hglobal
    (fun _ _ _ _ => rfl) hledger
  rw [Function.update_eq_self, Function.update_eq_self] at hinv
  refine ⟨_, ?_, hinv, hcalled⟩
  simp only [CacheWorld.deallocTo, dealloc, if_true, hglobal, Option.map_some,
    CacheWorld.called]

end Instances

end PoolMemalloc.Ports.CacheWorld
