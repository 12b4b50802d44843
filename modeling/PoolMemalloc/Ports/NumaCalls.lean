import PoolMemalloc.Ports.NumaAllocator
import PoolMemalloc.Verified.Transition

/-!
# Whole calls on one `NumaAllocator`

Threads call `alloc` and `dealloc` of instance 0 one whole call at a time, each call on
any node, write into live blocks and exit.  With one instance every cache is on it, so
`Inv` is kept by every step.
-/

namespace PoolMemalloc.Ports.NumaCalls

open PoolMemalloc.Verified.Transition
open PoolMemalloc.Ports.BlockArray (SizesFit)
open PoolMemalloc.Ports.FreelistAllocator
open PoolMemalloc.Ports.TlFreelistAllocator (atLeastFreeBlock)
open PoolMemalloc.Ports.CacheWorld
open PoolMemalloc.Ports.NumaAllocator

structure State (τ : Type) where
  world : World (τ × Nat) (Nat × Nat)
  live : List Nat

/-- `currentNode` is what `numa::current_node` returns in the call. -/
inductive Event (τ : Type)
  | alloc (t : τ) (currentNode : Nat)
  | dealloc (t : τ) (ptr : Nat)
  | write (b v : Nat)
  | exit (t : τ)

def start {τ : Type} (next : Heap) (heads : Nat → TaggedPtr) : State τ where
  world :=
    { next := next
      globals := fun p => heads p.2
      caches := fun _ => none
      exited := fun _ => none }
  live := []

/-- `a`, the heap `next` and the list heads came out of the constructor, for sizes that
do not wrap and regions as `alloc_on_node` promises them. -/
structure Constructed (blockSz blocksPerNode batch : Nat) (a : Allocator) (next : Heap)
    (heads : Nat → TaggedPtr) : Prop where
  sizes : SizesFit (atLeastFreeBlock blockSz) blocksPerNode
  regions : OnNodes (fun n => (a.pools n).region) (a.pools 0).regionSize a.numNodes
  made : ∃ allocOnNode isNode before,
    NumaAllocator.construct allocOnNode isNode before blockSz blocksPerNode batch =
      (a, next, heads)

section Runs

variable {τ : Type} [DecidableEq τ]

/-- `none` is a step the callers do not take. -/
def exec (a : Allocator) : State τ → Event τ → Option (State τ)
  | s, .alloc t currentNode =>
      if s.world.exited (t, 0) = none then
        (NumaAllocator.alloc a s.world 0 t currentNode).map fun r =>
          { world := r.2, live := granted r.1 s.live }
      else none
  | s, .dealloc t ptr =>
      if s.world.exited (t, 0) = none ∧ (ptr = 0 ∨ ptr ∈ s.live) then
        (NumaAllocator.dealloc a s.world 0 t ptr).map fun w =>
          { world := w, live := s.live.erase ptr }
      else none
  | s, .write b v =>
      if b ∈ s.live then some { s with world := userWrite s.world b v } else none
  | s, .exit t =>
      if s.world.exited (t, 0) = none then
        some { s with world := exit s.world (fun k => k.1 = t) }
      else none

def calls (a : Allocator) (next : Heap) (heads : Nat → TaggedPtr) :
    System (State τ) (Event τ) :=
  ofExec (fun s => s = start next heads) (exec a)

/-- Between calls; the caches of one thread end together. -/
structure Inv (a : Allocator) (s : State τ) (g : Nat × Nat → List Nat)
    (l : τ × Nat → List Nat) : Prop where
  owned : (instanceOf 0 a).Inv s.world s.live g l
  bound : ∀ k c, s.world.caches k = some c → c.global = (0, k.2)
  home : a.Tellable → Home a 0 g l
  together : ∀ t n, s.world.exited (t, 0) = none → s.world.exited (t, n) = none

variable {a : Allocator} {next : Heap} {heads : Nat → TaggedPtr} {s s' : State τ}
variable {g : Nat × Nat → List Nat} {l : τ × Nat → List Nat} {t : τ}
variable {blockSz blocksPerNode batch : Nat}

omit [DecidableEq τ] in
/-- A running thread's cache for a node is on that node's pool. -/
theorem Inv.available (h : Inv a s g l) (ht : s.world.exited (t, 0) = none) (n : Nat) :
    Available s.world (t, n) (0, n) :=
  ⟨h.together t n ht, fun c hc => h.bound (t, n) c hc⟩

omit [DecidableEq τ] in
theorem Inv.usable (h : Inv a s g l) (ht : s.world.exited (t, 0) = none)
    (order : List Nat) : Usable a 0 t s.world order := by
  induction order with
  | nil => trivial
  | cons n rest ih => exact ⟨h.available ht n, fun _ => ih⟩

omit [DecidableEq τ] in
theorem Inv.onList_eq (h : Inv a s g l) {n : Nat} (hn : n < a.numNodes) :
    onList s.world (0, n) = g (0, n) :=
  h.owned.onList_eq ⟨rfl, hn⟩

omit [DecidableEq τ] in
/-- A walk over the cache of a running thread finds all of it. -/
theorem Inv.inCache_eq (h : Inv a s g l) {n : Nat} (hn : n < a.numNodes)
    (ht : s.world.exited (t, 0) = none) : inCache s.world (t, n) = l (t, n) := by
  cases hc : s.world.caches (t, n) with
  | none =>
      rw [h.owned.unused (t, n) hc (h.together t n ht)]
      simp [inCache, hc]
  | some c =>
      have hglobal := h.bound (t, n) c hc
      exact h.owned.inCache_eq hc (hglobal ▸ ⟨rfl, hn⟩)

omit [DecidableEq τ] in
/-- A cache that has not changed has the same nodes, if its list has not changed. -/
theorem Inv.inCache_same (h : Inv a s g l) {w : World (τ × Nat) (Nat × Nat)}
    {live : List Nat} {g' : Nat × Nat → List Nat} {l' : τ × Nat → List Nat}
    (h' : (instanceOf 0 a).Inv w live g' l') {n : Nat} {u : τ} (hn : n < a.numNodes)
    (hcache : w.caches (u, n) = s.world.caches (u, n)) (hlist : l' (u, n) = l (u, n)) :
    inCache w (u, n) = inCache s.world (u, n) := by
  cases hu : s.world.caches (u, n) with
  | none =>
      rw [hu] at hcache
      simp [inCache, hu, hcache]
  | some c =>
      have hglobal := h.bound (u, n) c hu
      have hpool : (instanceOf 0 a).pool c.global := hglobal ▸ ⟨rfl, hn⟩
      rw [h.owned.inCache_eq hu hpool, h'.inCache_eq (hcache.trans hu) hpool, hlist]

omit [DecidableEq τ] in
/-- What a call must leave to keep the invariant. -/
private theorem Inv.called (h : Inv a s g l) {w : World (τ × Nat) (Nat × Nat)}
    {live : List Nat} {g' : Nat × Nat → List Nat} {l' : τ × Nat → List Nat}
    (howned : (instanceOf 0 a).Inv w live g' l')
    (hhome : a.Tellable → Home a 0 g l → Home a 0 g' l')
    (htouch : (instanceOf 0 a).OnlyTouches s.world w) (hbinds : Binds 0 t s.world w) :
    Inv a { world := w, live := live } g' l' where
  owned := howned
  bound k c hc := by
    rcases hbinds k with hsame | ⟨-, d, hd, hbound⟩
    · exact h.bound k c (hsame ▸ hc)
    · rw [show w.caches k = some c from hc, Option.some.injEq] at hd
      exact hd ▸ hbound
  home htell := hhome htell (h.home htell)
  together t n ht := by
    show w.exited (t, n) = none
    rw [htouch.exited]
    exact h.together t n (htouch.exited ▸ ht)

/-- Every `alloc` returns, and null only if the thread sees no block. -/
theorem Inv.alloc (ha : a.Placed) (h : Inv a s g l)
    (ht : s.world.exited (t, 0) = none) (currentNode : Nat) :
    ∃ r w' g' l', NumaAllocator.alloc a s.world 0 t currentNode = some (r, w') ∧
      Inv a { world := w', live := granted r s.live } g' l' ∧
      (instanceOf 0 a).OnlyTouches s.world w' ∧ Binds 0 t s.world w' ∧
      (r = 0 → ∀ n, n < a.numNodes → l (t, n) = [] ∧ g (0, n) = []) := by
  obtain ⟨r, w', g', l', hrun, howned, htouch, hbinds, hhome, hempty⟩ :=
    NumaAllocator.alloc_spec ha h.owned (h.usable ht (nodeOrder a currentNode))
  exact ⟨r, w', g', l', hrun, h.called howned (fun _ => hhome) htouch hbinds, htouch,
    hbinds, hempty⟩

/-- So does every `dealloc`. -/
theorem Inv.dealloc (ha : a.Placed) (h : Inv a s g l)
    (ht : s.world.exited (t, 0) = none) {ptr : Nat} (hptr : ptr = 0 ∨ ptr ∈ s.live) :
    ∃ w' g' l', NumaAllocator.dealloc a s.world 0 t ptr = some w' ∧
      Inv a { world := w', live := s.live.erase ptr } g' l' := by
  obtain ⟨w', g', l', hrun, howned, htouch, hbinds, hhome⟩ :=
    NumaAllocator.dealloc_spec ha h.owned hptr (h.available ht (ownerNode a ptr))
  exact ⟨w', g', l', hrun, h.called howned hhome htouch hbinds⟩

theorem Inv.exit (h : Inv a s g l) (t : τ) :
    Inv a { s with world := CacheWorld.exit s.world (fun k => k.1 = t) } g l where
  owned := h.owned.exit _
  bound k c hc := by
    simp only [CacheWorld.exit] at hc
    split at hc
    · cases hc
    · exact h.bound k c hc
  home := h.home
  together u n hu := by
    simp only [CacheWorld.exit] at hu ⊢
    split at hu
    · cases hu
    · next hne =>
        rw [if_neg hne]
        exact h.together u n hu

theorem Inv.step (ha : a.Placed) (h : Inv a s g l) {e : Event τ}
    (hstep : exec a s e = some s') : ∃ g' l', Inv a s' g' l' := by
  cases e with
  | alloc t currentNode =>
      simp only [exec] at hstep
      split at hstep
      · next ht =>
          obtain ⟨r, w', g', l', hrun, hinv, -⟩ := h.alloc ha ht currentNode
          rw [hrun, Option.map_some, Option.some.injEq] at hstep
          exact hstep ▸ ⟨g', l', hinv⟩
      · cases hstep
  | dealloc t ptr =>
      simp only [exec] at hstep
      split at hstep
      · next ht =>
          obtain ⟨w', g', l', hrun, hinv⟩ := h.dealloc ha ht.1 ht.2
          rw [hrun, Option.map_some, Option.some.injEq] at hstep
          exact hstep ▸ ⟨g', l', hinv⟩
      · cases hstep
  | write b v =>
      simp only [exec] at hstep
      split at hstep
      · next hb =>
          cases hstep
          exact ⟨g, l, h.owned.userWrite v fun _ => hb, h.bound, h.home, h.together⟩
      · cases hstep
  | exit t =>
      simp only [exec] at hstep
      split at hstep
      · cases hstep
        exact ⟨g, l, h.exit t⟩
      · cases hstep

theorem Constructed.placed (ha : Constructed blockSz blocksPerNode batch a next heads) :
    a.Placed ∧ ∃ before, (next, heads) = seedNodes a.pools before a.numNodes := by
  obtain ⟨hsizes, hregions, allocOnNode, isNode, before, hmade⟩ := ha
  obtain ⟨hplaced, hseeded⟩ := construct_placed hsizes hmade hregions
  exact ⟨hplaced, before, hseeded⟩

/-- Every run of whole calls keeps the invariant. -/
theorem inv_of_reachable (ha : Constructed blockSz blocksPerNode batch a next heads)
    (hs : Reachable (calls a next heads) s) : ∃ g l, Inv a s g l := by
  obtain ⟨hplaced, before, hseeded⟩ := ha.placed
  refine hs.invariant (P := fun s => ∃ g l, Inv a s g l) ?_ ?_
  · rintro _ rfl
    refine ⟨_, _, constructed_inv hplaced hseeded rfl (fun _ => rfl) ?_ ?_, ?_, ?_, ?_⟩
    · exact fun _ _ hc => nomatch hc
    · exact fun _ _ hk => nomatch hk
    · exact fun _ _ hc => nomatch hc
    · exact fun _ => constructed_home a 0
    · exact fun _ _ _ => rfl
  · rintro s e s' - ⟨g, l, hinv⟩ hstep
    exact hinv.step hplaced hstep

end Runs

/-- Two nodes with three blocks of 64 bytes each, for requests of 48 in batches of 2. -/
def numaPool3 : Allocator × Heap × (Nat → TaggedPtr) :=
  NumaAllocator.construct (fun _ n => 4096 * (n + 1)) (fun n => n < 2) (fun _ => 0)
    48 3 2

theorem numaPool3_constructed :
    Constructed 48 3 2 numaPool3.1 numaPool3.2.1 numaPool3.2.2 where
  sizes := by unfold SizesFit; decide
  regions := by
    intro n hn _
    have hn : n < 2 := hn
    show 64 ∣ 4096 * (n + 1) ∧ 4096 * (n + 1) + 192 < 2 ^ 64 ∧
      ∀ m, m < 2 → m ≠ n → 4096 * (m + 1) ≠ 0 →
        4096 * (n + 1) + 192 ≤ 4096 * (m + 1) ∨ 4096 * (m + 1) + 192 ≤ 4096 * (n + 1)
    refine ⟨by omega, by omega, fun m _ hne _ => by omega⟩
  made := ⟨fun _ n => 4096 * (n + 1), fun n => n < 2, fun _ => 0, rfl⟩

end PoolMemalloc.Ports.NumaCalls
