import PoolMemalloc.Ports.InstanceWorld
import PoolMemalloc.Ports.TlFreelistCalls

/-!
# Many `ThreadLocalFreelistAllocator` objects

`get_cache` keeps one `ThreadCache` per thread in a function-local `thread_local`
variable, not one per thread and object.  The cache is constructed on the object that
the thread calls first, and every later call of the thread on any object goes there.

`OwnCache` is what a call needs: the thread has called no object yet, or this one
first (`ownCache_iff`).  A run whose calls all meet it keeps every object apart from the
others (`inv_of_reachable`).
-/

namespace PoolMemalloc.Ports.TlFreelistInstances

open PoolMemalloc.Verified.Transition
open PoolMemalloc.Ports.BlockArray
open PoolMemalloc.Ports.FreelistAllocator (Heap TaggedPtr)
open PoolMemalloc.Ports.TlFreelistAllocator
open PoolMemalloc.Ports.TlFreelistCalls (poolOf poolOf_block constructed_inv)
open PoolMemalloc.Ports.CacheWorld
open PoolMemalloc.Ports.InstanceWorld

abbrev State (κ : Type) := InstanceWorld.State κ Nat Allocator

/-- `granted` is what `aligned_alloc` returns to the constructor, 0 on failure. -/
inductive Event (κ : Type)
  | create (i blockSz numBlocks batch granted : Nat)
  | destroy (i : Nat)
  | alloc (i : Nat) (k : κ)
  | dealloc (i : Nat) (k : κ) (ptr : Nat)
  | write (i b v : Nat)
  | exit (k : κ)

section Runs

variable {κ : Type}

/-- No object that is alive has its region in the `bytes` bytes from `granted` on. -/
def clear (s : State κ) (granted bytes : Nat) : Bool :=
  s.created.all fun j =>
    match s.alive j with
    | none => true
    | some b => granted + bytes ≤ b.region ∨ b.region + b.blockCount * b.blockSize ≤ granted

/-- Sizes that do not wrap, and memory as `aligned_alloc` grants it. -/
def Creatable (s : State κ) (i blockSz numBlocks granted : Nat) : Prop :=
  i ∉ s.created ∧ SizesFit (atLeastFreeBlock blockSz) numBlocks ∧ 64 ∣ granted ∧
    granted + regionBytes blockSz numBlocks < 2 ^ 64 ∧
      (granted = 0 ∨ clear s granted (regionBytes blockSz numBlocks) = true)

instance (s : State κ) (i blockSz numBlocks granted : Nat) :
    Decidable (Creatable s i blockSz numBlocks granted) :=
  inferInstanceAs (Decidable (_ ∧ (_ ∧ _) ∧ _ ∧ _ ∧ _))

/-- The constructor of object `i`; nothing is left of it if it throws. -/
def create (s : State κ) (i blockSz numBlocks batch granted : Nat) : State κ :=
  match construct (fun _ => granted) s.world.next blockSz numBlocks batch with
  | none => s
  | some (a, next) =>
      { world :=
          { s.world with
            next := next
            globals := Function.update s.world.globals i a.global }
        alive := Function.update s.alive i (some a)
        created := i :: s.created
        live := Function.update s.live i [] }

variable [DecidableEq κ]

/-- `none` is a step the callers do not take: a call on an object that is not alive or
after the thread's exit, a `dealloc` of a pointer that is neither null nor live. -/
def exec : State κ → Event κ → Option (State κ)
  | s, .create i blockSz numBlocks batch granted =>
      if Creatable s i blockSz numBlocks granted then
        some (create s i blockSz numBlocks batch granted)
      else none
  | s, .destroy i =>
      (s.alive i).map fun _ => { s with alive := Function.update s.alive i none }
  | s, .alloc i k =>
      (s.alive i).bind fun a =>
        if s.world.exited k = none then
          (allocFrom s.world k i a.batchSize).map fun r =>
            { s with
              world := r.2
              live := Function.update s.live i (granted r.1 (s.live i)) }
        else none
  | s, .dealloc i k ptr =>
      (s.alive i).bind fun a =>
        if s.world.exited k = none ∧ (ptr = 0 ∨ ptr ∈ s.live i) then
          (deallocTo s.world k i a.batchSize ptr).map fun w =>
            { s with
              world := w
              live := Function.update s.live i ((s.live i).erase ptr) }
        else none
  | s, .write i b v =>
      (s.alive i).bind fun _ =>
        if b ∈ s.live i then some { s with world := userWrite s.world b v } else none
  | s, .exit k =>
      if s.world.exited k = none then
        some { s with world := exit s.world (fun j => j = k) }
      else none

/-- Before any object is created. -/
def nothing (next : Heap) : State κ :=
  InstanceWorld.start
    { next := next
      globals := fun _ => ⟨0, 0⟩
      caches := fun _ => none
      exited := fun _ => none }

def calls (next : Heap) : System (State κ) (Event κ) :=
  ofExec (fun s => s = nothing next) exec

/-- The thread has no cache yet, or it is on this object. -/
def OwnCache (w : World κ Nat) (i : Nat) (k : κ) : Prop :=
  ∀ c, w.caches k = some c → c.global = i

/-- Every call is made by a thread whose cache is not on another object. -/
def OwnCaches (s : State κ) : Event κ → Prop
  | .alloc i k => OwnCache s.world i k
  | .dealloc i k _ => OwnCache s.world i k
  | _ => True

instance (w : World κ Nat) (i : Nat) (k : κ) : Decidable (OwnCache w i k) :=
  inferInstanceAs (Decidable (∀ c ∈ w.caches k, c.global = i))

instance (s : State κ) : ∀ e, Decidable (OwnCaches s e)
  | .alloc i k => inferInstanceAs (Decidable (OwnCache s.world i k))
  | .dealloc i k _ => inferInstanceAs (Decidable (OwnCache s.world i k))
  | .create .. => isTrue trivial
  | .destroy _ => isTrue trivial
  | .write .. => isTrue trivial
  | .exit _ => isTrue trivial

/-- The class, for the rules of `InstanceWorld`. -/
def tlFreelist : Class Nat Allocator where
  instanceOf := poolOf
  owner := id
  good a := Placed a.blockSize a.region a.blockCount
  owner_eq _ _ _ h := h

variable {s s' : State κ} {i : Nat} {a : Allocator} {k : κ} {next : Heap}

omit [DecidableEq κ] in
/-- What the constructor is given decides where the region is. -/
theorem construct_region {granted blockSz numBlocks batch : Nat} {before : Heap}
    (hmade : construct (fun _ => granted) before blockSz numBlocks batch =
      some (a, next)) : granted ≠ 0 ∧ a.region = granted := by
  unfold construct at hmade
  simp only at hmade
  split at hmade
  · cases hmade
  · next hne =>
      cases hmade
      exact ⟨hne, rfl⟩

omit [DecidableEq κ] in
/-- A new object's region is beside those of the objects that are alive. -/
theorem created_apart (h : Inv tlFreelist s) {blockSz numBlocks batch granted : Nat}
    (hcan : Creatable s i blockSz numBlocks granted)
    (hmade : construct (fun _ => granted) s.world.next blockSz numBlocks batch =
      some (a, next)) :
    Constructed blockSz numBlocks batch a next ∧ ∀ j b, s.alive j = some b →
      a.region + a.blockCount * a.blockSize ≤ b.region ∨
        b.region + b.blockCount * b.blockSize ≤ a.region := by
  obtain ⟨-, hsizes, haligned, hfits, hclear⟩ := hcan
  have ha := constructed_of_granted hsizes haligned hfits hmade
  obtain ⟨hne, hregion⟩ := construct_region hmade
  have hbytes : regionBytes blockSz numBlocks = a.blockCount * a.blockSize := by
    rw [regionBytes_eq hsizes, ha.fields.1, ha.fields.2.1, Nat.mul_comm]
  refine ⟨ha, fun j b hj => ?_⟩
  have hbeside := List.all_eq_true.mp (hclear.resolve_left hne) j (h.created j b hj)
  simpa only [hj, decide_eq_true_eq, hbytes, ← hregion] using hbeside

theorem create_inv (h : Inv tlFreelist s) {blockSz numBlocks batch granted : Nat}
    (hcan : Creatable s i blockSz numBlocks granted) :
    Inv tlFreelist (create s i blockSz numBlocks batch granted) := by
  unfold create
  split
  · exact h
  · next a next hmade =>
      obtain ⟨ha, hapart⟩ := created_apart h hcan hmade
      have hblock : ∀ j b, s.alive j = some b → ∀ x, (poolOf i a).block x →
          ¬ (poolOf j b).block x := by
        intro j b hj x hx hx'
        obtain ⟨m, hm, rfl⟩ := mem_blocksOf.mp hx
        obtain ⟨n, hn, heq⟩ := mem_blocksOf.mp hx'
        have hbound := ha.placed.indexToPtr_bounds hm
        have hbound' := (h.good j b hj).indexToPtr_bounds hn
        have hpos := ha.placed.blockPos
        have hpos' := (h.good j b hj).blockPos
        rw [heq] at hbound
        rcases hapart j b hj with hsep | hsep <;> omega
      refine h.create hcan.1 ha.placed ⟨_, _, constructed_inv ha rfl ?_ ?_ ?_⟩ rfl rfl
        ?_ ?_ hblock
      · exact Function.update_self ..
      · intro j c hc heq
        exact hcan.1 (heq ▸ h.bound j c hc)
      · exact h.gone
      · intro p hp
        exact Function.update_of_ne hp _ _
      · intro b hb
        exact construct_of_notMem hmade hb

/-- What a call on an object that is alive does, if the thread's cache is its own. -/
theorem alloc_isolated (h : Inv tlFreelist s) (hi : s.alive i = some a)
    (hk : s.world.exited k = none) (hown : OwnCache s.world i k) :
    ∃ r w', allocFrom s.world k i a.batchSize = some (r, w') ∧
      (poolOf i a).OnlyTouches s.world w' ∧
      (∃ g l, (poolOf i a).Inv w' (granted r (s.live i)) g l) := by
  obtain ⟨g, l, howned⟩ := h.owned i a hi
  have hpool : (poolOf i a).pool i := rfl
  have havailable : Available s.world k i := ⟨hk, hown⟩
  obtain ⟨w', hrun, hinv, hcalled⟩ := howned.allocFrom hpool havailable
  exact ⟨_, w', hrun, hcalled.onlyTouches hpool havailable, _, _, hinv⟩

theorem dealloc_isolated (h : Inv tlFreelist s) (hi : s.alive i = some a)
    (hk : s.world.exited k = none) (hown : OwnCache s.world i k) {ptr : Nat}
    (hptr : ptr = 0 ∨ ptr ∈ s.live i) :
    ∃ w', deallocTo s.world k i a.batchSize ptr = some w' ∧
      (poolOf i a).OnlyTouches s.world w' ∧
      (∃ g l, (poolOf i a).Inv w' ((s.live i).erase ptr) g l) := by
  obtain ⟨g, l, howned⟩ := h.owned i a hi
  have hpool : (poolOf i a).pool i := rfl
  have havailable : Available s.world k i := ⟨hk, hown⟩
  rcases hptr with rfl | hlive
  · obtain ⟨w', hrun, hinv, hcalled⟩ := howned.deallocTo_null hpool havailable
    have hzero : 0 ∉ s.live i := fun hmem =>
      (howned.address 0 (howned.block_of_live hmem)).1 rfl
    rw [List.erase_of_not_mem hzero]
    exact ⟨w', hrun, hcalled.onlyTouches hpool havailable, g, l, hinv⟩
  · obtain ⟨w', hrun, hinv, hcalled⟩ := howned.deallocTo hpool havailable hlive
    exact ⟨w', hrun, hcalled.onlyTouches hpool havailable, _, _, hinv⟩

theorem step_inv (h : Inv tlFreelist s) {e : Event κ} (hown : OwnCaches s e)
    (hstep : exec s e = some s') : Inv tlFreelist s' := by
  cases e with
  | create i blockSz numBlocks batch granted =>
      simp only [exec] at hstep
      split at hstep
      · next hcan =>
          cases hstep
          exact create_inv h hcan
      · cases hstep
  | destroy i =>
      obtain ⟨a, -, rfl⟩ := Option.map_eq_some_iff.mp hstep
      exact h.destroy i
  | alloc i k =>
      obtain ⟨a, hi, hstep⟩ := Option.bind_eq_some_iff.mp hstep
      split at hstep
      · next hk =>
          obtain ⟨r, w', hrun, htouch, hinv⟩ := alloc_isolated h hi hk hown
          rw [hrun, Option.map_some, Option.some.injEq] at hstep
          exact hstep ▸ h.call hi hinv htouch
      · cases hstep
  | dealloc i k ptr =>
      obtain ⟨a, hi, hstep⟩ := Option.bind_eq_some_iff.mp hstep
      split at hstep
      · next hk =>
          obtain ⟨w', hrun, htouch, hinv⟩ := dealloc_isolated h hi hk.1 hown hk.2
          rw [hrun, Option.map_some, Option.some.injEq] at hstep
          exact hstep ▸ h.call hi hinv htouch
      · cases hstep
  | write i b v =>
      obtain ⟨a, hi, hstep⟩ := Option.bind_eq_some_iff.mp hstep
      split at hstep
      · next hb =>
          cases hstep
          exact h.userWrite hi hb v
      · cases hstep
  | exit k =>
      simp only [exec] at hstep
      split at hstep
      · cases hstep
        exact h.exit _
      · cases hstep

/-- Runs whose calls all use the object's own caches keep the objects apart. -/
theorem inv_of_reachable (hs : Reachable (restrict (calls next) OwnCaches) s) :
    Inv tlFreelist s := by
  refine hs.invariant (P := Inv tlFreelist) ?_ ?_
  · rintro _ rfl
    exact start_inv fun _ => rfl
  · rintro s e s' - hinv ⟨hown, hstep⟩
    exact step_inv hinv hown hstep

/-! ## The first call of a thread -/

/-- The object that thread `k` calls. -/
def calledBy (k : κ) (_ : State κ) : Event κ → Option Nat
  | .alloc i j => if j = k then some i else none
  | .dealloc i j _ => if j = k then some i else none
  | _ => none

theorem bound_step (k : κ) {e : Event κ} (hstep : exec s e = some s')
    (hk : s'.world.exited k = none) : s.world.exited k = none ∧
      boundTo s'.world k = (boundTo s.world k).or (calledBy k s e) := by
  cases e with
  | create i blockSz numBlocks batch granted =>
      simp only [exec, Option.ite_none_right_eq_some, Option.some.injEq] at hstep
      obtain ⟨-, rfl⟩ := hstep
      revert hk
      unfold create
      split
      · exact fun hk => ⟨hk, Option.or_none.symm⟩
      · exact fun hk => ⟨hk, Option.or_none.symm⟩
  | destroy i =>
      obtain ⟨a, -, rfl⟩ := Option.map_eq_some_iff.mp hstep
      exact ⟨hk, Option.or_none.symm⟩
  | alloc i u =>
      obtain ⟨a, -, hstep⟩ := Option.bind_eq_some_iff.mp hstep
      simp only [Option.ite_none_right_eq_some] at hstep
      obtain ⟨-, hstep⟩ := hstep
      obtain ⟨r, hrun, rfl⟩ := Option.map_eq_some_iff.mp hstep
      have hbinds := allocFrom_binds hrun
      exact ⟨hbinds.exited ▸ hk, hbinds.at k⟩
  | dealloc i u ptr =>
      obtain ⟨a, -, hstep⟩ := Option.bind_eq_some_iff.mp hstep
      simp only [Option.ite_none_right_eq_some] at hstep
      obtain ⟨-, hstep⟩ := hstep
      obtain ⟨w, hrun, rfl⟩ := Option.map_eq_some_iff.mp hstep
      have hbinds := deallocTo_binds hrun
      exact ⟨hbinds.exited ▸ hk, hbinds.at k⟩
  | write i b v =>
      obtain ⟨a, -, hstep⟩ := Option.bind_eq_some_iff.mp hstep
      simp only [Option.ite_none_right_eq_some, Option.some.injEq] at hstep
      obtain ⟨-, rfl⟩ := hstep
      exact ⟨hk, Option.or_none.symm⟩
  | exit u =>
      simp only [exec, Option.ite_none_right_eq_some, Option.some.injEq] at hstep
      obtain ⟨-, rfl⟩ := hstep
      obtain ⟨hsame, hrunning⟩ := exit_bound hk
      exact ⟨hrunning, hsame.trans Option.or_none.symm⟩

/-- The cache of a thread that runs is on the object the thread has called first. -/
theorem boundTo_eq {labels : List (Event κ)}
    (hrun : replay exec (nothing next) labels = some s) (hk : s.world.exited k = none) :
    boundTo s.world k = firstAlong exec (calledBy k) (nothing next) labels := by
  have hstep : ∀ (s : State κ) e s', exec s e = some s' → s'.world.exited k = none →
      s.world.exited k = none ∧
        boundTo s'.world k = (boundTo s.world k).or (calledBy k s e) :=
    fun _ _ _ hstep hk => bound_step k hstep hk
  exact (slot_replay hstep labels hrun hk).2

omit [DecidableEq κ] in
theorem ownCache_iff_boundTo {w : World κ Nat} :
    OwnCache w i k ↔ ∀ j, boundTo w k = some j → j = i := by
  simp [OwnCache, boundTo]

theorem ownCache_iff {labels : List (Event κ)}
    (hrun : replay exec (nothing next) labels = some s) (hk : s.world.exited k = none) :
    OwnCache s.world i k ↔
      ∀ j, firstAlong exec (calledBy k) (nothing next) labels = some j → j = i := by
  rw [ownCache_iff_boundTo, boundTo_eq hrun hk]

end Runs

end PoolMemalloc.Ports.TlFreelistInstances
