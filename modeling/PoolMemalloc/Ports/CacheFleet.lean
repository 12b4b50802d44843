import PoolMemalloc.Ports.CacheWorld

/-!
# Caches of any batch on any pool

Any number of `ThreadCache` objects, each on a pool and with a batch of its own, and
blocks that may be freed into another cache and so end on another pool than the one they
came from.  `Fleet.Inv` holds between calls; `Fleet.Inv.alloc` and `Fleet.Inv.dealloc`
say that every call returns and keeps it.
-/

namespace PoolMemalloc.Ports.CacheFleet

open PoolMemalloc.Verified.LinkedChain
open PoolMemalloc.Verified.Conservation
open PoolMemalloc.Ports.FreelistAllocator
open PoolMemalloc.Ports.ThreadCache (Cache Cached construct refilled flushed alloc_spec
  dealloc_spec)
open PoolMemalloc.Ports.CacheWorld

/-- What the cache of each key is constructed with. -/
structure Fleet (κ π : Type) where
  pool : κ → π
  batch : κ → Nat

/-- The cache of a key, which is constructed at the first call. -/
def Fleet.cacheOf {κ π : Type} (F : Fleet κ π) (w : World κ π) (k : κ) : Cache π :=
  getCache w k (F.pool k) (F.batch k)

/-- Between calls: the pools have the nodes `g`, the caches `l`, and the users hold
`live`; together they are the blocks, each once. -/
structure Fleet.Inv {κ π : Type} (F : Fleet κ π) (block : Nat → Prop) (w : World κ π)
    (live : List Nat) (g : π → List Nat) (l : κ → List Nat) : Prop where
  address : ∀ b, block b → b ≠ 0 ∧ b < 2 ^ 64
  global : ∀ p, Chain 0 w.next (w.globals p).ptr (g p)
  bound : ∀ k, (F.cacheOf w k).global = F.pool k
  cached : ∀ k, Cached (F.batch k) w.next (w.globals (F.pool k)) (F.cacheOf w k)
    (g (F.pool k)) (l k)
  ledger : Ledger block (cell g l live)

section Calls

variable {κ π : Type} {F : Fleet κ π} {block : Nat → Prop} {w : World κ π}
variable {live : List Nat} {g : π → List Nat} {l : κ → List Nat}

/-- Before the first call of any cache. -/
theorem start_inv (hcaches : w.caches = fun _ => none)
    (hglobal : ∀ p, Chain 0 w.next (w.globals p).ptr (g p))
    (hapart : ∀ p q b, b ∈ g p → b ∈ g q → p = q) (haddress : ∀ p, ∀ b ∈ g p, b < 2 ^ 64) :
    F.Inv (fun b => ∃ p, b ∈ g p) w [] g fun _ => [] := by
  have hcache : ∀ k, F.cacheOf w k = construct (F.pool k) (F.batch k) := by
    intro k
    rw [Fleet.cacheOf, getCache, hcaches]
    rfl
  exact
    { address := fun b ⟨p, hb⟩ => ⟨(hglobal p).ne_null b hb, haddress p b hb⟩
      global := hglobal
      bound := fun k => by rw [hcache k]; rfl
      cached := fun k => by
        rw [hcache k]
        exact ⟨hglobal _, rfl, rfl, by simpa using (hglobal _).nodup, rfl, rfl, rfl⟩
      ledger :=
        { nodup := fun i => by
            cases i with
            | global p => exact (hglobal p).nodup
            | cache k => exact List.nodup_nil
            | user => exact List.nodup_nil
          only := fun i j b hi hj => by
            cases i with
            | cache k => cases hi
            | user => cases hi
            | global p =>
                cases j with
                | cache k => cases hj
                | user => cases hj
                | global q => rw [hapart p q b hi hj]
          mem := fun b => by
            constructor
            · rintro ⟨p, hb⟩
              exact ⟨.global p, hb⟩
            · rintro ⟨i, hi⟩
              cases i with
              | global p => exact ⟨p, hi⟩
              | cache k => cases hi
              | user => cases hi } }

/-- Users write into their own blocks. -/
theorem Fleet.Inv.userWrite (h : F.Inv block w live g l) {b : Nat} (v : Nat)
    (hb : b ∈ live) : F.Inv block (CacheWorld.userWrite w b v) live g l := by
  have huser : b ∈ cell g l live .user := hb
  have hkeep : ∀ i : Place κ π, i ≠ .user → b ∉ cell g l live i := fun i hi =>
    h.ledger.notMem huser hi
  have hglobal : ∀ p, Chain 0 (Function.update w.next b v) (w.globals p).ptr (g p) :=
    fun p => (h.global p).update (hkeep (.global p) (by simp))
  exact
    { address := h.address
      global := hglobal
      bound := h.bound
      cached := fun k =>
        { h.cached k with
          global := hglobal _
          chain := (h.cached k).chain.update (hkeep (.cache k) (by simp)) }
      ledger := h.ledger }

variable [DecidableEq κ] [DecidableEq π]

/-- A call on the cache of key `k` that leaves the lists `gs` and `ls`. -/
private theorem Fleet.Inv.called (h : F.Inv block w live g l) {k : κ} {next : Heap}
    {head : TaggedPtr} {c : Cache π} {gs ls live' : List Nat}
    (hcached : Cached (F.batch k) next head c gs ls) (hbound : c.global = F.pool k)
    (hlinks : ∀ b, b ∉ g (F.pool k) → b ∉ l k → b ∉ live → next b = w.next b)
    (hledger : Ledger block
      (cell (Function.update g (F.pool k) gs) (Function.update l k ls) live')) :
    F.Inv block (called w k (F.pool k) next head c) live'
      (Function.update g (F.pool k) gs) (Function.update l k ls) := by
  have hkeep : ∀ i : Place κ π, i ≠ .global (F.pool k) → i ≠ .cache k → i ≠ .user →
      ∀ b ∈ cell g l live i, next b = w.next b := fun i hi hi' hi'' b hb =>
    hlinks b (h.ledger.notMem hb hi.symm) (h.ledger.notMem hb hi'.symm)
      (h.ledger.notMem hb hi''.symm)
  have hglobal : ∀ p, Chain 0 next (Function.update w.globals (F.pool k) head p).ptr
      (Function.update g (F.pool k) gs p) := by
    intro p
    by_cases hp : p = F.pool k
    · subst hp
      simpa only [Function.update_self] using hcached.global
    · rw [Function.update_of_ne hp, Function.update_of_ne hp]
      exact Segment.congr (hkeep (.global p) (by simpa using hp) (by simp) (by simp))
        (h.global p)
  have hcache : ∀ j, F.cacheOf (CacheWorld.called w k (F.pool k) next head c) j =
      if j = k then c else F.cacheOf w j := by
    intro j
    simp only [Fleet.cacheOf, getCache, CacheWorld.called]
    split
    · next hj => rw [hj, Function.update_self, Option.getD_some]
    · next hj => rw [Function.update_of_ne hj]
  refine ⟨h.address, hglobal, fun j => ?_, fun j => ?_, hledger⟩
  · rw [hcache j]
    split
    · next hj => rw [hj, hbound]
    · exact h.bound j
  · rw [hcache j]
    by_cases hj : j = k
    · subst hj
      simpa only [if_true, CacheWorld.called, Function.update_self] using hcached
    · have hold := h.cached j
      have hlist : Function.update l k ls j = l j := Function.update_of_ne hj _ _
      have hnodup := hledger.nodup_append
        (show Place.global (F.pool j) ≠ Place.cache j by simp)
      rw [if_neg hj, hlist]
      exact
        { global := hglobal (F.pool j)
          chain := Segment.congr (hkeep (.cache j) (by simp) (by simpa using hj) (by simp))
            hold.chain
          size := hold.size
          nodup := by simpa only [cell, hlist] using hnodup
          batchSize := hold.batchSize
          low := hold.low
          high := hold.high }

omit [DecidableEq κ] [DecidableEq π] in
/-- The lists of a call are shorter than the address space. -/
theorem Fleet.Inv.length_lt (h : F.Inv block w live g l) (k : κ) :
    (g (F.pool k)).length + (l k).length < 2 ^ 64 :=
  length_lt_of_ledger (i := .global (F.pool k)) (j := .cache k) h.ledger h.address (by simp)

/-- A whole `alloc`: null, or a block that no user holds. -/
theorem Fleet.Inv.alloc (h : F.Inv block w live g l) (k : κ) :
    ∃ w', allocFrom w k (F.pool k) (F.batch k) =
        some ((refilled (F.batch k) (g (F.pool k)) (l k)).2.headD 0, w') ∧
      F.Inv block w'
        (granted ((refilled (F.batch k) (g (F.pool k)) (l k)).2.headD 0) live)
        (Function.update g (F.pool k) (refilled (F.batch k) (g (F.pool k)) (l k)).1)
        (Function.update l k (refilled (F.batch k) (g (F.pool k)) (l k)).2.tail) := by
  have hbound := h.length_lt k
  obtain ⟨next, head, c, hrun, hafter, hkept, hframe⟩ :=
    alloc_spec (h.cached k) (lt_addresses hbound) hbound
  have hledger := ledger_allocated h.ledger (fun b hb => (h.address b hb).1) (F.batch k)
    (F.pool k) k
  have hinv := h.called hafter (hkept.trans (h.bound k)) (fun b hb _ _ => hframe b hb)
    hledger
  refine ⟨CacheWorld.called w k (F.pool k) next head c, ?_, hinv⟩
  have hglobal := h.bound k
  unfold Fleet.cacheOf at hglobal hrun
  simp only [allocFrom, hglobal, hrun, Option.map_some, CacheWorld.called]

/-- A whole `dealloc` of a live block, whichever cache the block came from. -/
theorem Fleet.Inv.dealloc (h : F.Inv block w live g l) (k : κ) {ptr : Nat}
    (hlive : ptr ∈ live) :
    ∃ w', deallocTo w k (F.pool k) (F.batch k) ptr = some w' ∧
      F.Inv block w' (live.erase ptr)
        (Function.update g (F.pool k)
          (flushed (F.batch k) (g (F.pool k)) (ptr :: l k)).1)
        (Function.update l k
          (flushed (F.batch k) (g (F.pool k)) (ptr :: l k)).2) := by
  have huser : ptr ∈ cell g l live .user := hlive
  have hptr : ptr ≠ 0 := (h.address ptr (h.ledger.mem_of huser)).1
  have hnew := notMem_of_live h.ledger hlive (F.pool k) k
  have hbound := length_succ_lt_of_live h.ledger h.address hlive k
  obtain ⟨next, head, c, hrun, hafter, hkept, hframe⟩ :=
    dealloc_spec (h.cached k) hptr hnew (show (l k).length + 1 < addresses from hbound)
      hbound
  have hledger := ledger_freed h.ledger hlive (F.batch k) (F.pool k) k
  have hinv := h.called hafter (hkept.trans (h.bound k))
    (fun b _ hb hb' => hframe b fun hmem => (List.mem_cons.mp hmem).elim
      (fun heq => hb' (heq ▸ hlive)) hb) hledger
  refine ⟨CacheWorld.called w k (F.pool k) next head c, ?_, hinv⟩
  have hglobal := h.bound k
  unfold Fleet.cacheOf at hglobal hrun
  simp only [deallocTo, hglobal, hrun, Option.map_some, CacheWorld.called]

/-- `dealloc(nullptr)`. -/
theorem Fleet.Inv.dealloc_null (h : F.Inv block w live g l) (k : κ) :
    ∃ w', deallocTo w k (F.pool k) (F.batch k) 0 = some w' ∧ F.Inv block w' live g l := by
  have hledger : Ledger block (cell (Function.update g (F.pool k) (g (F.pool k)))
      (Function.update l k (l k)) live) := by
    rw [Function.update_eq_self, Function.update_eq_self]
    exact h.ledger
  have hinv := h.called (h.cached k) (h.bound k) (fun _ _ _ _ => rfl) hledger
  rw [Function.update_eq_self, Function.update_eq_self] at hinv
  refine ⟨_, ?_, hinv⟩
  have hglobal := h.bound k
  unfold Fleet.cacheOf at hglobal
  simp only [deallocTo, ThreadCache.dealloc, if_true, hglobal, Option.map_some,
    CacheWorld.called, Fleet.cacheOf]

end Calls

end PoolMemalloc.Ports.CacheFleet
