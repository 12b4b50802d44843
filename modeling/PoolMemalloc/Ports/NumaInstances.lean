import PoolMemalloc.Ports.InstanceWorld
import PoolMemalloc.Ports.NumaAllocator
import PoolMemalloc.Verified.Transition

/-!
# Many `NumaAllocator` objects

`get_cache` keeps sixteen caches per thread in a function-local `thread_local`
`PerThread`, which all objects share: the cache for a node is constructed on the pool
of the object that the thread first needs it for (`ownCache_iff`).  `OwnCaches` is what a
call needs of the caches that it comes to.
-/

namespace PoolMemalloc.Ports.NumaInstances

open PoolMemalloc.Verified.Transition
open PoolMemalloc.Ports.BlockArray (SizesFit)
open PoolMemalloc.Ports.FreelistAllocator (Heap TaggedPtr)
open PoolMemalloc.Ports.TlFreelistAllocator (atLeastFreeBlock)
open PoolMemalloc.Ports.CacheWorld
open PoolMemalloc.Ports.InstanceWorld
open PoolMemalloc.Ports.NumaAllocator

abbrev State (τ : Type) := InstanceWorld.State (τ × Nat) (Nat × Nat) Allocator

/-- `regions` is what `alloc_on_node` returns to the constructor for each node, 0 on
failure; `currentNode` what `numa::current_node` returns in the call. -/
inductive Event (τ : Type)
  | create (i blockSz blocksPerNode batch : Nat) (regions : Nat → Nat)
      (isNode : Nat → Bool)
  | destroy (i : Nat)
  | alloc (i : Nat) (t : τ) (currentNode : Nat)
  | dealloc (i : Nat) (t : τ) (ptr : Nat)
  | write (i b v : Nat)
  | exit (t : τ)

/-- No region of `a` overlaps a region of `b`. -/
def Beside (a b : Allocator) : Prop :=
  ∀ n, n < a.numNodes → ∀ m, m < b.numNodes →
    (a.pools n).region ≠ 0 → (b.pools m).region ≠ 0 →
      (a.pools n).region + (a.pools n).regionSize ≤ (b.pools m).region ∨
        (b.pools m).region + (b.pools m).regionSize ≤ (a.pools n).region

instance (a b : Allocator) : Decidable (Beside a b) :=
  inferInstanceAs (Decidable (∀ n, n < a.numNodes → ∀ m, m < b.numNodes →
    (a.pools n).region ≠ 0 → (b.pools m).region ≠ 0 →
      (a.pools n).region + (a.pools n).regionSize ≤ (b.pools m).region ∨
        (b.pools m).region + (b.pools m).regionSize ≤ (a.pools n).region))

section Runs

variable {τ : Type}

/-- The regions of `a` are beside those of every object that is alive. -/
def clear (s : State τ) (a : Allocator) : Bool :=
  s.created.all fun j =>
    match s.alive j with
    | none => true
    | some b => Beside a b

/-- Sizes that do not wrap, and memory as `alloc_on_node` grants it. -/
def Creatable (s : State τ) (i blockSz blocksPerNode : Nat) (a : Allocator) : Prop :=
  i ∉ s.created ∧ SizesFit (atLeastFreeBlock blockSz) blocksPerNode ∧
    OnNodes (fun n => (a.pools n).region) (a.pools 0).regionSize a.numNodes ∧
      clear s a = true

instance (s : State τ) (i blockSz blocksPerNode : Nat) (a : Allocator) :
    Decidable (Creatable s i blockSz blocksPerNode a) :=
  inferInstanceAs (Decidable (_ ∧ (_ ∧ _) ∧ _ ∧ _))

/-- Object `i` has been constructed. -/
def create (s : State τ) (i : Nat) (a : Allocator) (next : Heap)
    (heads : Nat → TaggedPtr) : State τ where
  world :=
    { s.world with
      next := next
      globals := fun p => if p.1 = i then heads p.2 else s.world.globals p }
  alive := Function.update s.alive i (some a)
  created := i :: s.created
  live := Function.update s.live i []

variable [DecidableEq τ]

/-- `none` is a step the callers do not take. -/
def exec : State τ → Event τ → Option (State τ)
  | s, .create i blockSz blocksPerNode batch regions isNode =>
      let made := construct (fun _ n => regions n) isNode s.world.next blockSz
        blocksPerNode batch
      if Creatable s i blockSz blocksPerNode made.1 then
        some (create s i made.1 made.2.1 made.2.2)
      else none
  | s, .destroy i =>
      (s.alive i).map fun _ => { s with alive := Function.update s.alive i none }
  | s, .alloc i t currentNode =>
      (s.alive i).bind fun a =>
        if s.world.exited (t, 0) = none then
          (NumaAllocator.alloc a s.world i t currentNode).map fun r =>
            { s with
              world := r.2
              live := Function.update s.live i (granted r.1 (s.live i)) }
        else none
  | s, .dealloc i t ptr =>
      (s.alive i).bind fun a =>
        if s.world.exited (t, 0) = none ∧ (ptr = 0 ∨ ptr ∈ s.live i) then
          (NumaAllocator.dealloc a s.world i t ptr).map fun w =>
            { s with
              world := w
              live := Function.update s.live i ((s.live i).erase ptr) }
        else none
  | s, .write i b v =>
      (s.alive i).bind fun _ =>
        if b ∈ s.live i then some { s with world := userWrite s.world b v } else none
  | s, .exit t =>
      if s.world.exited (t, 0) = none then
        some { s with world := exit s.world (fun k => k.1 = t) }
      else none

/-- Before any object is created. -/
def nothing (next : Heap) : State τ :=
  InstanceWorld.start
    { next := next
      globals := fun _ => ⟨0, 0⟩
      caches := fun _ => none
      exited := fun _ => none }

def calls (next : Heap) : System (State τ) (Event τ) :=
  ofExec (fun s => s = nothing next) exec

/-- The thread runs, and its cache for node `n` is on object `i` or not there yet. -/
def OwnCache (w : World (τ × Nat) (Nat × Nat)) (i : Nat) (t : τ) (n : Nat) : Prop :=
  Available w (t, n) (i, n)

/-- Every cache that a call comes to is not on another object: for `alloc` those of the
nodes up to the first with a block, for `dealloc` that of the pointer's node. -/
def OwnCaches (s : State τ) : Event τ → Prop
  | .alloc i t currentNode =>
      ∀ a, s.alive i = some a → Usable a i t s.world (nodeOrder a currentNode)
  | .dealloc i t ptr =>
      ∀ a, s.alive i = some a → OwnCache s.world i t (ownerNode a ptr)
  | _ => True

instance (w : World (τ × Nat) (Nat × Nat)) (i : Nat) (t : τ) (n : Nat) :
    Decidable (OwnCache w i t n) :=
  inferInstanceAs (Decidable (Available w (t, n) (i, n)))

instance (s : State τ) : ∀ e, Decidable (OwnCaches s e)
  | .alloc i t currentNode => inferInstanceAs (Decidable
      (∀ a ∈ s.alive i, Usable a i t s.world (nodeOrder a currentNode)))
  | .dealloc i t ptr => inferInstanceAs (Decidable
      (∀ a ∈ s.alive i, OwnCache s.world i t (ownerNode a ptr)))
  | .create .. => isTrue trivial
  | .destroy _ => isTrue trivial
  | .write .. => isTrue trivial
  | .exit _ => isTrue trivial

/-- The class, for the rules of `InstanceWorld`. -/
def numa : Class (Nat × Nat) Allocator where
  instanceOf := instanceOf
  owner p := p.1
  good := Allocator.Placed
  owner_eq _ _ _ h := h.1

variable {s s' : State τ} {i : Nat} {a : Allocator} {t : τ} {next : Heap}

theorem create_inv (h : Inv numa s) {blockSz blocksPerNode batch : Nat}
    {regions : Nat → Nat} {isNode : Nat → Bool} {heads : Nat → TaggedPtr}
    (hmade : construct (fun _ n => regions n) isNode s.world.next blockSz blocksPerNode
      batch = (a, next, heads))
    (hcan : Creatable s i blockSz blocksPerNode a) :
    Inv numa (create s i a next heads) := by
  obtain ⟨hfresh, hsizes, hregions, hclear⟩ := hcan
  obtain ⟨hplaced, hseeded⟩ := construct_placed hsizes hmade hregions
  refine h.create hfresh hplaced
    ⟨_, _, constructed_inv hplaced hseeded rfl (fun n => if_pos rfl) ?_ h.gone⟩ rfl rfl
    (fun p hp => if_neg hp) ?_ ?_
  · intro k c hc heq
    exact hfresh (heq ▸ h.bound k c hc)
  · intro b hb
    have hnext : next = (seedNodes a.pools s.world.next a.numNodes).1 :=
      congrArg Prod.fst hseeded
    show next b = s.world.next b
    rw [hnext]
    exact seedNodes_of_notMem _ _ fun n hn hmem => hb ⟨n, hn, hmem⟩
  · rintro j b hj x ⟨n, hn, hx⟩ ⟨m, hm, hx'⟩
    have hbeside := List.all_eq_true.mp hclear j (h.created j b hj)
    simp only [hj, decide_eq_true_eq] at hbeside
    have hgood : b.Placed := h.good j b hj
    obtain ⟨hregion, hlow, hhigh⟩ := hplaced.bounds hn hx
    obtain ⟨hregion', hlow', hhigh'⟩ := hgood.bounds hm hx'
    have hpos := (hplaced.placed n hn hregion).blockPos
    have hpos' := (hgood.placed m hm hregion').blockPos
    rcases hbeside n hn m hm hregion hregion' with hsep | hsep <;> omega

/-- What a call on an object that is alive does, if the caches it comes to are its
own. -/
theorem alloc_isolated (h : Inv numa s) (hi : s.alive i = some a) {currentNode : Nat}
    (hown : Usable a i t s.world (nodeOrder a currentNode)) :
    ∃ r w', NumaAllocator.alloc a s.world i t currentNode = some (r, w') ∧
      (instanceOf i a).OnlyTouches s.world w' ∧
      (∃ g l, (instanceOf i a).Inv w' (granted r (s.live i)) g l) := by
  obtain ⟨g, l, howned⟩ := h.owned i a hi
  obtain ⟨r, w', g', l', hrun, hinv, htouch, -⟩ :=
    NumaAllocator.alloc_spec (h.good i a hi) howned hown
  exact ⟨r, w', hrun, htouch, g', l', hinv⟩

theorem dealloc_isolated (h : Inv numa s) (hi : s.alive i = some a) {ptr : Nat}
    (hown : OwnCache s.world i t (ownerNode a ptr)) (hptr : ptr = 0 ∨ ptr ∈ s.live i) :
    ∃ w', NumaAllocator.dealloc a s.world i t ptr = some w' ∧
      (instanceOf i a).OnlyTouches s.world w' ∧
      (∃ g l, (instanceOf i a).Inv w' ((s.live i).erase ptr) g l) := by
  obtain ⟨g, l, howned⟩ := h.owned i a hi
  obtain ⟨w', g', l', hrun, hinv, htouch, -⟩ :=
    NumaAllocator.dealloc_spec (h.good i a hi) howned hptr hown
  exact ⟨w', hrun, htouch, g', l', hinv⟩

theorem step_inv (h : Inv numa s) {e : Event τ} (hown : OwnCaches s e)
    (hstep : exec s e = some s') : Inv numa s' := by
  cases e with
  | create i blockSz blocksPerNode batch regions isNode =>
      simp only [exec] at hstep
      split at hstep
      · next hcan =>
          cases hstep
          exact create_inv h rfl hcan
      · cases hstep
  | destroy i =>
      obtain ⟨a, -, rfl⟩ := Option.map_eq_some_iff.mp hstep
      exact h.destroy i
  | alloc i t currentNode =>
      obtain ⟨a, hi, hstep⟩ := Option.bind_eq_some_iff.mp hstep
      split at hstep
      · obtain ⟨r, w', hrun, htouch, hinv⟩ := alloc_isolated h hi (hown a hi)
        rw [hrun, Option.map_some, Option.some.injEq] at hstep
        exact hstep ▸ h.call hi hinv htouch
      · cases hstep
  | dealloc i t ptr =>
      obtain ⟨a, hi, hstep⟩ := Option.bind_eq_some_iff.mp hstep
      split at hstep
      · next ht =>
          obtain ⟨w', hrun, htouch, hinv⟩ := dealloc_isolated h hi (hown a hi) ht.2
          rw [hrun, Option.map_some, Option.some.injEq] at hstep
          exact hstep ▸ h.call hi hinv htouch
      · cases hstep
  | write i b v =>
      obtain ⟨a, hi, hstep⟩ := Option.bind_eq_some_iff.mp hstep
      split at hstep
      · next hb =>
          cases hstep
          exact h.userWrite hi hb v
      · cases hstep
  | exit t =>
      simp only [exec] at hstep
      split at hstep
      · cases hstep
        exact h.exit _
      · cases hstep

/-- Runs whose calls all come to the object's own caches keep the objects apart. -/
theorem inv_of_reachable (hs : Reachable (restrict (calls next) OwnCaches) s) :
    Inv numa s := by
  refine hs.invariant (P := Inv numa) ?_ ?_
  · rintro _ rfl
    exact start_inv fun _ => rfl
  · rintro s e s' - hinv ⟨hown, hstep⟩
    exact step_inv hinv hown hstep

/-! ## The first call that comes to a cache -/

/-- The nodes whose caches `alloc` comes to. -/
def visited (a : Allocator) (i : Nat) (t : τ) :
    List Nat → World (τ × Nat) (Nat × Nat) → List Nat
  | [], _ => []
  | n :: rest, w =>
      n :: match allocFrom w (t, n) (i, n) (a.pools n).batchSize with
        | none => []
        | some r => if r.1 ≠ 0 then [] else visited a i t rest r.2

/-- The pool for which a call comes to the cache `k`, of a thread and a node. -/
def calledBy (k : τ × Nat) (s : State τ) : Event τ → Option (Nat × Nat)
  | .alloc i t currentNode =>
      (s.alive i).bind fun a =>
        if t = k.1 ∧ k.2 ∈ visited a i t (nodeOrder a currentNode) s.world then
          some (i, k.2)
        else none
  | .dealloc i t ptr =>
      (s.alive i).bind fun a => if (t, ownerNode a ptr) = k then some (i, k.2) else none
  | _ => none

/-- `alloc` binds those of the caches it comes to that are on no pool yet. -/
theorem tryNodes_bound {order : List Nat} {w : World (τ × Nat) (Nat × Nat)}
    {r : Nat × World (τ × Nat) (Nat × Nat)} (h : tryNodes a i t order w = some r)
    (k : τ × Nat) : r.2.exited = w.exited ∧ boundTo r.2 k = (boundTo w k).or
      (if t = k.1 ∧ k.2 ∈ visited a i t order w then some (i, k.2) else none) := by
  induction order generalizing w with
  | nil =>
      cases h
      simp [visited]
  | cons n rest ih =>
      obtain ⟨r₀, hcall, hrest⟩ := Option.bind_eq_some_iff.mp h
      have hbinds := allocFrom_binds hcall
      have hfirst : boundTo r₀.2 k =
          (boundTo w k).or (if t = k.1 ∧ n = k.2 then some (i, k.2) else none) := by
        rw [hbinds.at k]
        by_cases hk : (t, n) = k
        · subst hk
          simp
        · have hne : ¬ (t = k.1 ∧ n = k.2) := fun hsame => hk (Prod.ext hsame.1 hsame.2)
          rw [if_neg hk, if_neg hne]
      simp only [visited, hcall]
      split at hrest
      · next hfound =>
          cases hrest
          rw [if_pos hfound]
          refine ⟨hbinds.exited, hfirst.trans ?_⟩
          simp only [List.mem_singleton, eq_comm]
      · next hdry =>
          obtain ⟨hexited, hlater⟩ := ih hrest
          rw [if_neg hdry, hlater, hfirst, Option.or_assoc]
          refine ⟨hexited.trans hbinds.exited, congrArg _ ?_⟩
          by_cases ht : t = k.1
          · by_cases hn : n = k.2
            · simp [ht, hn]
            · simp [ht, hn, Ne.symm hn]
          · simp [ht]

theorem bound_step (k : τ × Nat) {e : Event τ} (hstep : exec s e = some s')
    (hk : s'.world.exited k = none) : s.world.exited k = none ∧
      boundTo s'.world k = (boundTo s.world k).or (calledBy k s e) := by
  cases e with
  | create i blockSz blocksPerNode batch regions isNode =>
      simp only [exec, Option.ite_none_right_eq_some, Option.some.injEq] at hstep
      obtain ⟨-, rfl⟩ := hstep
      exact ⟨hk, Option.or_none.symm⟩
  | destroy i =>
      obtain ⟨a, -, rfl⟩ := Option.map_eq_some_iff.mp hstep
      exact ⟨hk, Option.or_none.symm⟩
  | alloc i u currentNode =>
      obtain ⟨a, hi, hstep⟩ := Option.bind_eq_some_iff.mp hstep
      simp only [Option.ite_none_right_eq_some] at hstep
      obtain ⟨-, hstep⟩ := hstep
      obtain ⟨r, hrun, rfl⟩ := Option.map_eq_some_iff.mp hstep
      obtain ⟨hexited, hbound⟩ := tryNodes_bound hrun k
      refine ⟨hexited ▸ hk, ?_⟩
      rw [calledBy, hi, Option.bind_some]
      exact hbound
  | dealloc i u ptr =>
      obtain ⟨a, hi, hstep⟩ := Option.bind_eq_some_iff.mp hstep
      simp only [Option.ite_none_right_eq_some] at hstep
      obtain ⟨-, hstep⟩ := hstep
      obtain ⟨w, hrun, rfl⟩ := Option.map_eq_some_iff.mp hstep
      have hbinds := deallocTo_binds hrun
      refine ⟨hbinds.exited ▸ hk, (hbinds.at k).trans ?_⟩
      rw [calledBy, hi, Option.bind_some]
      by_cases hnode : (u, ownerNode a ptr) = k
      · rw [if_pos hnode, if_pos hnode, ← hnode]
      · rw [if_neg hnode, if_neg hnode]
  | write i b v =>
      obtain ⟨a, -, hstep⟩ := Option.bind_eq_some_iff.mp hstep
      simp only [Option.ite_none_right_eq_some, Option.some.injEq] at hstep
      obtain ⟨-, rfl⟩ := hstep
      exact ⟨hk, Option.or_none.symm⟩
  | exit u =>
      simp only [exec, Option.ite_none_right_eq_some, Option.some.injEq] at hstep
      obtain ⟨-, rfl⟩ := hstep
      obtain ⟨hsame, hrunning⟩ := exit_bound hk
      exact ⟨hrunning, hsame.trans Option.or_none.symm⟩

/-- A thread's cache for a node is on the object whose call came to it first. -/
theorem ownCache_iff {labels : List (Event τ)}
    (hrun : replay exec (nothing next) labels = some s) {n : Nat}
    (hk : s.world.exited (t, n) = none) :
    OwnCache s.world i t n ↔ ∀ p,
      firstAlong exec (calledBy (t, n)) (nothing next) labels = some p → p = (i, n) := by
  have hstep : ∀ (s : State τ) e s', exec s e = some s' → s'.world.exited (t, n) = none →
      s.world.exited (t, n) = none ∧ boundTo s'.world (t, n) =
        (boundTo s.world (t, n)).or (calledBy (t, n) s e) :=
    fun _ _ _ hstep hk => bound_step (t, n) hstep hk
  have hfirst : boundTo s.world (t, n) =
      firstAlong exec (calledBy (t, n)) (nothing next) labels :=
    (slot_replay hstep labels hrun hk).2
  rw [← hfirst, OwnCache, Available, boundTo]
  simp [hk]

end Runs

end PoolMemalloc.Ports.NumaInstances
