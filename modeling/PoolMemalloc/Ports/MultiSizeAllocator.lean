import PoolMemalloc.Ports.TlFreelistInstances

/-!
# `MultiSizeAllocator`

Five `ThreadLocalFreelistAllocator` objects, one for each size class; object `i` is
`pools[i]`.  All five go through the one `ThreadCache` of the calling thread, so a
thread that uses two classes gets blocks of the first for requests of the second.

`Pools` is what the constructor makes sure of and no call changes: blocks at least as
large as their class, in regions that do not overlap.  `kept_of_reachable` says that
it stays so in every run in which each thread keeps to one class, which is that of its
first call (`ownClass_iff`).
-/

namespace PoolMemalloc.Ports.MultiSizeAllocator

open PoolMemalloc.Verified.Transition
open PoolMemalloc.Ports.BlockArray
open PoolMemalloc.Ports.FreelistAllocator (Heap)
open PoolMemalloc.Ports.TlFreelistAllocator (Allocator regionBytes)
open PoolMemalloc.Ports.TlFreelistCalls (poolOf poolOf_block)
open PoolMemalloc.Ports.CacheWorld
open PoolMemalloc.Ports.InstanceWorld (Inv)
open PoolMemalloc.Ports.TlFreelistInstances (State OwnCache Creatable clear tlFreelist)

/-- `NUM_CLASSES`. -/
def numClasses : Nat := 5

/-- `SIZE_CLASSES`. -/
def sizeClasses : List Nat := [16, 32, 64, 128, 256]

/-- `class_index`: the first class of at least `size`, or `NUM_CLASSES`. -/
def classIndex (size : Nat) : Nat := sizeClasses.findIdx fun c => size ≤ c

/-- `SIZE_CLASSES[i]`. -/
def classSize (i : Nat) : Nat := sizeClasses.getD i 0

theorem le_classSize {size : Nat} (h : classIndex size < numClasses) :
    size ≤ classSize (classIndex size) := by
  have hget := List.getElem?_eq_getElem (l := sizeClasses) h
  have hle := List.findIdx_of_getElem?_eq_some hget
  rw [classSize, List.getD_eq_getElem?_getD, hget, Option.getD_some]
  exact of_decide_eq_true hle

/-- The constructor's loop; `memory i` is what `aligned_alloc` returns for class `i`. -/
def newPools {κ : Type} (blocksPerClass batch : Nat) (memory : Nat → Nat) :
    List (TlFreelistInstances.Event κ) :=
  (List.range numClasses).map fun i =>
    .create i (classSize i) blocksPerClass batch (memory i)

section Calls

variable {κ : Type} [DecidableEq κ]

def alloc (s : State κ) (k : κ) (size : Nat) : Option (Nat × World κ Nat) :=
  let idx := classIndex size
  if idx ≥ numClasses then some (0, s.world)
  else (s.alive idx).bind fun pool => allocFrom s.world k idx pool.batchSize

def dealloc (s : State κ) (k : κ) (ptr size : Nat) : Option (World κ Nat) :=
  let idx := classIndex size
  if idx ≥ numClasses then some s.world
  else (s.alive idx).bind fun pool => deallocTo s.world k idx pool.batchSize ptr

inductive Event (κ : Type)
  | alloc (k : κ) (size : Nat)
  | dealloc (k : κ) (ptr size : Nat)
  | write (i b v : Nat)
  | exit (k : κ)

/-- `live i` is what `alloc` has returned for sizes of class `i`.  `none` is a step the
callers do not take. -/
def exec : State κ → Event κ → Option (State κ)
  | s, .alloc k size =>
      if s.world.exited k = none then
        (alloc s k size).map fun r =>
          { s with
            world := r.2
            live := Function.update s.live (classIndex size)
              (granted r.1 (s.live (classIndex size))) }
      else none
  | s, .dealloc k ptr size =>
      if s.world.exited k = none ∧ (ptr = 0 ∨ ptr ∈ s.live (classIndex size)) then
        (dealloc s k ptr size).map fun w =>
          { s with
            world := w
            live := Function.update s.live (classIndex size)
              ((s.live (classIndex size)).erase ptr) }
      else none
  | s, .write i b v =>
      if i < numClasses ∧ b ∈ s.live i then
        some { s with world := userWrite s.world b v }
      else none
  | s, .exit k =>
      if s.world.exited k = none then
        some { s with world := exit s.world (fun j => j = k) }
      else none

/-- The constructor returned, with all five objects, in the state `s`. -/
def Constructed (blocksPerClass batch : Nat) (s : State κ) : Prop :=
  ∃ next memory, replay TlFreelistInstances.exec (TlFreelistInstances.nothing next)
      (newPools blocksPerClass batch memory) = some s ∧
    ∀ i, i < numClasses → s.alive i ≠ none

def calls (s₀ : State κ) : System (State κ) (Event κ) := ofExec (fun s => s = s₀) exec

/-- The calling thread's cache is on the pool of the size's class, or not there yet. -/
def OwnClass (s : State κ) : Event κ → Prop
  | .alloc k size => classIndex size < numClasses → OwnCache s.world (classIndex size) k
  | .dealloc k _ size =>
      classIndex size < numClasses → OwnCache s.world (classIndex size) k
  | _ => True

instance (s : State κ) : ∀ e, Decidable (OwnClass s e)
  | .alloc k size => inferInstanceAs (Decidable
      (classIndex size < numClasses → OwnCache s.world (classIndex size) k))
  | .dealloc k _ size => inferInstanceAs (Decidable
      (classIndex size < numClasses → OwnCache s.world (classIndex size) k))
  | .write .. => isTrue trivial
  | .exit _ => isTrue trivial

/-! ## The five pools -/

/-- What the constructor makes sure of. -/
structure Pools (s : State κ) : Prop where
  created : ∀ i ∈ s.created, ∃ a, s.alive i = some a
  lt : ∀ i a, s.alive i = some a → i < numClasses
  size : ∀ i a, s.alive i = some a → classSize i ≤ a.blockSize
  apart : ∀ i j a b, i ≠ j → s.alive i = some a → s.alive j = some b →
    a.region + a.blockCount * a.blockSize ≤ b.region ∨
      b.region + b.blockCount * b.blockSize ≤ a.region

variable {s s' s₀ : State κ} {blocksPerClass batch : Nat} {memory : Nat → Nat}

omit [DecidableEq κ] in
theorem Pools.create (h : Pools s) (hinv : Inv tlFreelist s) {i : Nat}
    (hi : i < numClasses)
    (hcan : Creatable s i (classSize i) blocksPerClass (memory i)) :
    Pools (TlFreelistInstances.create s i (classSize i) blocksPerClass batch
      (memory i)) := by
  unfold TlFreelistInstances.create
  split
  · exact h
  · next a next hmade =>
      obtain ⟨ha, hapart⟩ := TlFreelistInstances.created_apart hinv hcan hmade
      refine ⟨fun j hj => ?_, fun j b hj => ?_, fun j b hj => ?_,
        fun j m b c hne hj hm => ?_⟩
      · by_cases hji : j = i
        · subst hji
          exact ⟨a, Function.update_self ..⟩
        · simp only [Function.update_of_ne hji]
          exact h.created j ((List.mem_cons.mp hj).resolve_left hji)
      · by_cases hji : j = i
        · exact hji ▸ hi
        · simp only [Function.update_of_ne hji] at hj
          exact h.lt j b hj
      · by_cases hji : j = i
        · subst hji
          simp only [Function.update_self, Option.some.injEq] at hj
          exact hj ▸ ha.le_blockSize
        · simp only [Function.update_of_ne hji] at hj
          exact h.size j b hj
      · by_cases hji : j = i
        · subst hji
          simp only [Function.update_self, Option.some.injEq] at hj
          simp only [Function.update_of_ne (Ne.symm hne)] at hm
          exact hj ▸ hapart m c hm
        · simp only [Function.update_of_ne hji] at hj
          by_cases hmi : m = i
          · subst hmi
            simp only [Function.update_self, Option.some.injEq] at hm
            exact hm ▸ (hapart j b hj).symm
          · simp only [Function.update_of_ne hmi] at hm
            exact h.apart j m b c hne hj hm

/-- The constructor's loop, from any class on. -/
private theorem replay_newPools (labels : List Nat)
    (hlabels : ∀ i ∈ labels, i < numClasses) (hinv : Inv tlFreelist s) (h : Pools s)
    (hrun : replay TlFreelistInstances.exec s (labels.map fun i =>
      .create i (classSize i) blocksPerClass batch (memory i)) = some s') :
    Inv tlFreelist s' ∧ Pools s' := by
  induction labels generalizing s with
  | nil =>
      cases hrun
      exact ⟨hinv, h⟩
  | cons i rest ih =>
      obtain ⟨mid, hmid, hrest⟩ := Option.bind_eq_some_iff.mp hrun
      simp only [TlFreelistInstances.exec] at hmid
      split at hmid
      · next hcan =>
          cases hmid
          have hi := hlabels i List.mem_cons_self
          exact ih (fun j hj => hlabels j (List.mem_cons_of_mem i hj))
            (TlFreelistInstances.create_inv hinv hcan) (h.create hinv hi hcan) hrest
      · cases hmid

theorem Constructed.pools (h : Constructed blocksPerClass batch s) :
    Inv tlFreelist s ∧ Pools s := by
  obtain ⟨next, memory, hrun, -⟩ := h
  have hnone : Pools (TlFreelistInstances.nothing next : State κ) :=
    { created := fun _ hi => nomatch hi
      lt := fun _ _ hi => nomatch hi
      size := fun _ _ hi => nomatch hi
      apart := fun _ _ _ _ _ hi => nomatch hi }
  exact replay_newPools _ (fun i hi => List.mem_range.mp hi)
    (InstanceWorld.start_inv fun _ => rfl) hnone hrun

/-! ## Calls -/

/-- Between calls; calls construct and destroy no pool. -/
structure Kept (s₀ s : State κ) : Prop where
  inv : Inv tlFreelist s
  alive : s.alive = s₀.alive
  created : s.created = s₀.created

variable {k : κ} {size : Nat}

/-- What a call that comes to its class's cache does. -/
theorem alloc_spec (hinv : Inv tlFreelist s) {i : Nat} (hi : i = classIndex size)
    (hlt : i < numClasses) {a : Allocator} (ha : s.alive i = some a)
    (hk : s.world.exited k = none) (hown : OwnCache s.world i k) :
    ∃ r w', alloc s k size = some (r, w') ∧ (poolOf i a).OnlyTouches s.world w' ∧
      ∃ g l, (poolOf i a).Inv w' (granted r (s.live i)) g l := by
  subst hi
  obtain ⟨r, w', hrun, htouch, hafter⟩ :=
    TlFreelistInstances.alloc_isolated hinv ha hk hown
  refine ⟨r, w', ?_, htouch, hafter⟩
  rw [alloc, if_neg (Nat.not_le.mpr hlt), ha, Option.bind_some, hrun]

theorem dealloc_spec (hinv : Inv tlFreelist s) {i : Nat} (hi : i = classIndex size)
    (hlt : i < numClasses) {a : Allocator} (ha : s.alive i = some a)
    (hk : s.world.exited k = none) (hown : OwnCache s.world i k) {ptr : Nat}
    (hptr : ptr = 0 ∨ ptr ∈ s.live i) :
    ∃ w', dealloc s k ptr size = some w' ∧ (poolOf i a).OnlyTouches s.world w' ∧
      ∃ g l, (poolOf i a).Inv w' ((s.live i).erase ptr) g l := by
  subst hi
  obtain ⟨w', hrun, htouch, hafter⟩ :=
    TlFreelistInstances.dealloc_isolated hinv ha hk hown hptr
  refine ⟨w', ?_, htouch, hafter⟩
  rw [dealloc, if_neg (Nat.not_le.mpr hlt), ha, Option.bind_some, hrun]

/-- A pool of each class is there at every moment. -/
theorem Kept.pool (h : Kept s₀ s) (h₀ : Constructed blocksPerClass batch s₀) {i : Nat}
    (hi : i < numClasses) : ∃ a, s.alive i = some a := by
  obtain ⟨-, -, -, halive⟩ := h₀
  rw [h.alive]
  exact Option.ne_none_iff_exists'.mp (halive i hi)

theorem Kept.pools (h : Kept s₀ s) (h₀ : Constructed blocksPerClass batch s₀) :
    Pools s := by
  obtain ⟨hcreated, hlt, hsize, hapart⟩ := h₀.pools.2
  rw [← h.alive] at hcreated hlt hsize hapart
  rw [← h.created] at hcreated
  exact ⟨hcreated, hlt, hsize, hapart⟩

/-- There is no pool for a size that has no class. -/
theorem Kept.no_pool (h : Kept s₀ s) (h₀ : Constructed blocksPerClass batch s₀) {i : Nat}
    (hi : ¬ i < numClasses) : s.alive i = none := by
  cases ha : s.alive i with
  | none => rfl
  | some a => exact (hi ((h.pools h₀).lt i a ha)).elim

theorem Kept.step (h : Kept s₀ s) (h₀ : Constructed blocksPerClass batch s₀)
    {e : Event κ} (hown : OwnClass s e) (hstep : exec s e = some s') : Kept s₀ s' := by
  cases e with
  | alloc k size =>
      simp only [exec] at hstep
      split at hstep
      · next hk =>
          by_cases hlt : classIndex size < numClasses
          · obtain ⟨a, ha⟩ := h.pool h₀ hlt
            obtain ⟨r, w', hrun, htouch, hafter⟩ :=
              alloc_spec h.inv rfl hlt ha hk (hown hlt)
            rw [hrun, Option.map_some, Option.some.injEq] at hstep
            exact hstep ▸ ⟨h.inv.call ha hafter htouch, h.alive, h.created⟩
          · rw [alloc, if_pos (Nat.not_lt.mp hlt), Option.map_some,
              Option.some.injEq] at hstep
            exact hstep ▸ ⟨h.inv.live_of_dead (h.no_pool h₀ hlt) _, h.alive, h.created⟩
      · cases hstep
  | dealloc k ptr size =>
      simp only [exec] at hstep
      split at hstep
      · next hk =>
          by_cases hlt : classIndex size < numClasses
          · obtain ⟨a, ha⟩ := h.pool h₀ hlt
            obtain ⟨w', hrun, htouch, hafter⟩ :=
              dealloc_spec h.inv rfl hlt ha hk.1 (hown hlt) hk.2
            rw [hrun, Option.map_some, Option.some.injEq] at hstep
            exact hstep ▸ ⟨h.inv.call ha hafter htouch, h.alive, h.created⟩
          · rw [dealloc, if_pos (Nat.not_lt.mp hlt), Option.map_some,
              Option.some.injEq] at hstep
            exact hstep ▸ ⟨h.inv.live_of_dead (h.no_pool h₀ hlt) _, h.alive, h.created⟩
      · cases hstep
  | write i b v =>
      simp only [exec] at hstep
      split at hstep
      · next hb =>
          cases hstep
          obtain ⟨a, ha⟩ := h.pool h₀ hb.1
          exact ⟨h.inv.userWrite ha hb.2 v, h.alive, h.created⟩
      · cases hstep
  | exit k =>
      simp only [exec] at hstep
      split at hstep
      · cases hstep
        exact ⟨h.inv.exit _, h.alive, h.created⟩
      · cases hstep

theorem kept_of_reachable (h₀ : Constructed blocksPerClass batch s₀)
    (hs : Reachable (restrict (calls s₀) OwnClass) s) : Kept s₀ s := by
  refine hs.invariant (P := Kept s₀) ?_ ?_
  · rintro _ rfl
    exact ⟨h₀.pools.1, rfl, rfl⟩
  · rintro s e s' - hkept ⟨hown, hstep⟩
    exact hkept.step h₀ hown hstep

/-! ## The first class of a thread -/

/-- The class whose cache a call of thread `k` comes to. -/
def calledBy (k : κ) (_ : State κ) : Event κ → Option Nat
  | .alloc j size =>
      if j = k ∧ classIndex size < numClasses then some (classIndex size) else none
  | .dealloc j _ size =>
      if j = k ∧ classIndex size < numClasses then some (classIndex size) else none
  | _ => none

theorem alloc_bound {u : κ} {r : Nat × World κ Nat} (h : alloc s u size = some r) (k : κ) :
    r.2.exited = s.world.exited ∧ boundTo r.2 k =
      (boundTo s.world k).or (calledBy k s (.alloc u size)) := by
  unfold alloc at h
  simp only at h
  split at h
  · next hlarge =>
      cases h
      rw [calledBy, if_neg fun hcall => Nat.not_le.mpr hcall.2 hlarge, Option.or_none]
      exact ⟨rfl, rfl⟩
  · next hclass =>
      obtain ⟨a, -, hrun⟩ := Option.bind_eq_some_iff.mp h
      have hbinds := allocFrom_binds hrun
      refine ⟨hbinds.exited, ?_⟩
      rw [hbinds.at k, calledBy]
      simp only [Nat.lt_of_not_le hclass, and_true]

theorem dealloc_bound {u : κ} {ptr : Nat} {w : World κ Nat}
    (h : dealloc s u ptr size = some w) (k : κ) :
    w.exited = s.world.exited ∧ boundTo w k =
      (boundTo s.world k).or (calledBy k s (.dealloc u ptr size)) := by
  unfold dealloc at h
  simp only at h
  split at h
  · next hlarge =>
      cases h
      rw [calledBy, if_neg fun hcall => Nat.not_le.mpr hcall.2 hlarge, Option.or_none]
      exact ⟨rfl, rfl⟩
  · next hclass =>
      obtain ⟨a, -, hrun⟩ := Option.bind_eq_some_iff.mp h
      have hbinds := deallocTo_binds hrun
      refine ⟨hbinds.exited, ?_⟩
      rw [hbinds.at k, calledBy]
      simp only [Nat.lt_of_not_le hclass, and_true]

theorem bound_step (k : κ) {e : Event κ} (hstep : exec s e = some s')
    (hk : s'.world.exited k = none) : s.world.exited k = none ∧
      boundTo s'.world k = (boundTo s.world k).or (calledBy k s e) := by
  cases e with
  | alloc u size =>
      simp only [exec, Option.ite_none_right_eq_some] at hstep
      obtain ⟨-, hstep⟩ := hstep
      obtain ⟨r, hrun, rfl⟩ := Option.map_eq_some_iff.mp hstep
      obtain ⟨hexited, hbound⟩ := alloc_bound hrun k
      exact ⟨hexited ▸ hk, hbound⟩
  | dealloc u ptr size =>
      simp only [exec, Option.ite_none_right_eq_some] at hstep
      obtain ⟨-, hstep⟩ := hstep
      obtain ⟨w, hrun, rfl⟩ := Option.map_eq_some_iff.mp hstep
      obtain ⟨hexited, hbound⟩ := dealloc_bound hrun k
      exact ⟨hexited ▸ hk, hbound⟩
  | write i b v =>
      simp only [exec, Option.ite_none_right_eq_some, Option.some.injEq] at hstep
      obtain ⟨-, rfl⟩ := hstep
      exact ⟨hk, Option.or_none.symm⟩
  | exit u =>
      simp only [exec, Option.ite_none_right_eq_some, Option.some.injEq] at hstep
      obtain ⟨-, rfl⟩ := hstep
      obtain ⟨hsame, hrunning⟩ := exit_bound hk
      exact ⟨hrunning, hsame.trans Option.or_none.symm⟩

/-- The constructor calls none of its pools. -/
theorem Constructed.unbound (h₀ : Constructed blocksPerClass batch s₀)
    (hk : s₀.world.exited k = none) : boundTo s₀.world k = none := by
  obtain ⟨next, memory, hrun, -⟩ := h₀
  rw [TlFreelistInstances.boundTo_eq hrun hk]
  apply firstAlong_eq_none
  intro e he s
  obtain ⟨i, -, rfl⟩ := List.mem_map.mp he
  rfl

/-- The cache of a thread that runs is on the pool of the first class the thread has
used. -/
theorem ownClass_iff (h₀ : Constructed blocksPerClass batch s₀) {labels : List (Event κ)}
    (hrun : replay exec s₀ labels = some s) (hk : s.world.exited k = none) {i : Nat} :
    OwnCache s.world i k ↔
      ∀ j, firstAlong exec (calledBy k) s₀ labels = some j → j = i := by
  have hstep : ∀ (s : State κ) e s', exec s e = some s' → s'.world.exited k = none →
      s.world.exited k = none ∧
        boundTo s'.world k = (boundTo s.world k).or (calledBy k s e) :=
    fun _ _ _ hstep hk => bound_step k hstep hk
  obtain ⟨hk₀, hbound⟩ := slot_replay hstep labels hrun hk
  rw [TlFreelistInstances.ownCache_iff_boundTo, hbound, h₀.unbound hk₀, Option.none_or]

end Calls

end PoolMemalloc.Ports.MultiSizeAllocator
