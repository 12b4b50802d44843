import PoolMemalloc.Ports.CacheWorld

/-!
# Many allocator objects at once

Objects of one class are created and destroyed while threads use them.  `Inv` says
that each object that is alive keeps its own `Instance.Inv`, that no two of them share
a block, and that every cache is on the pool of some object created so far, alive or
not.

The rules below are one for each kind of step.  `Inv.call` is the only one with
something to prove for its caller: that the call has changed no more than its own
object's lists and caches.
-/

namespace PoolMemalloc.Ports.InstanceWorld

open PoolMemalloc.Ports.CacheWorld

/-- `created` are the ids used so far; ids are not reused.  `live i` is what object `i`
has returned and nobody has freed. -/
structure State (κ π α : Type) where
  world : World κ π
  alive : Nat → Option α
  created : List Nat
  live : Nat → List Nat

/-- What the rules need to know about the class: which instance an object is, whose
pool a pool is, and what its constructor makes sure of. -/
structure Class (π α : Type) where
  instanceOf : Nat → α → Instance π
  owner : π → Nat
  good : α → Prop
  owner_eq : ∀ i a p, (instanceOf i a).pool p → owner p = i

/-- Between steps. -/
structure Inv {κ π α : Type} (C : Class π α) (s : State κ π α) : Prop where
  good : ∀ i a, s.alive i = some a → C.good a
  owned : ∀ i a, s.alive i = some a →
    ∃ g l, (C.instanceOf i a).Inv s.world (s.live i) g l
  apart : ∀ i j a b, i ≠ j → s.alive i = some a → s.alive j = some b →
    ∀ x, (C.instanceOf i a).block x → ¬ (C.instanceOf j b).block x
  created : ∀ i a, s.alive i = some a → i ∈ s.created
  bound : ∀ k c, s.world.caches k = some c → C.owner c.global ∈ s.created
  gone : ∀ k held, s.world.exited k = some held → s.world.caches k = none

/-- Nothing is alive at the start. -/
def start {κ π α : Type} (w : World κ π) : State κ π α where
  world := w
  alive := fun _ => none
  created := []
  live := fun _ => []

section Rules

variable {κ π α : Type} {C : Class π α} {s : State κ π α} {w' : World κ π} {i : Nat}
variable {a : α} {live' : List Nat}

theorem start_inv {w : World κ π} (hcaches : ∀ k, w.caches k = none) :
    Inv C (start w : State κ π α) where
  good _ _ h := nomatch h
  owned _ _ h := nomatch h
  apart _ _ _ _ _ h := nomatch h
  created _ _ h := nomatch h
  bound k c hc := by
    have hnone := hcaches k
    rw [show w.caches k = some c from hc] at hnone
    cases hnone
  gone k _ _ := hcaches k

/-- A call on an object that is alive. -/
theorem Inv.call (h : Inv C s) (hi : s.alive i = some a)
    (hnew : ∃ g l, (C.instanceOf i a).Inv w' live' g l)
    (htouch : (C.instanceOf i a).OnlyTouches s.world w') :
    Inv C { s with world := w', live := Function.update s.live i live' } where
  good := h.good
  owned j b hj := by
    show ∃ g l, (C.instanceOf j b).Inv w' (Function.update s.live i live' j) g l
    have hj : s.alive j = some b := hj
    by_cases hij : j = i
    · subst hij
      rw [hi, Option.some.injEq] at hj
      subst hj
      rwa [Function.update_self]
    · rw [Function.update_of_ne hij]
      obtain ⟨g, l, howned⟩ := h.owned j b hj
      refine ⟨g, l, howned.frame htouch (fun p hp hq => hij ?_) ?_⟩
      · rw [← C.owner_eq i a p hp, C.owner_eq j b p hq]
      · exact h.apart i j a b (Ne.symm hij) hi hj
  apart := h.apart
  created := h.created
  bound k c hc := by
    rcases htouch.caches k with hsame | ⟨-, -, d, hd, hp⟩
    · exact h.bound k c (hsame ▸ hc)
    · rw [show w'.caches k = some c from hc, Option.some.injEq] at hd
      rw [hd, C.owner_eq i a _ hp]
      exact h.created i a hi
  gone k held hk := by
    have hexited : s.world.exited k = some held := htouch.exited ▸ hk
    rcases htouch.caches k with hsame | ⟨hrunning, -⟩
    · exact hsame.trans (h.gone k held hexited)
    · rw [hrunning] at hexited
      cases hexited

/-- A new object, with blocks that no other object has. -/
theorem Inv.create [DecidableEq κ] (h : Inv C s) (hfresh : i ∉ s.created)
    (hgood : C.good a) (hnew : ∃ g l, (C.instanceOf i a).Inv w' [] g l)
    (hcaches : w'.caches = s.world.caches) (hexited : w'.exited = s.world.exited)
    (hglobals : ∀ p, C.owner p ≠ i → w'.globals p = s.world.globals p)
    (hlinks : ∀ b, ¬ (C.instanceOf i a).block b → w'.next b = s.world.next b)
    (hapart : ∀ j b, s.alive j = some b → ∀ x, (C.instanceOf i a).block x →
      ¬ (C.instanceOf j b).block x) :
    Inv C
      { world := w'
        alive := Function.update s.alive i (some a)
        created := i :: s.created
        live := Function.update s.live i [] } := by
  have hold : ∀ j b, j ≠ i → Function.update s.alive i (some a) j = some b →
      s.alive j = some b := by
    intro j b hj halive
    rwa [Function.update_of_ne hj] at halive
  have hself : ∀ b, Function.update s.alive i (some a) i = some b → b = a := by
    intro b halive
    rw [Function.update_self, Option.some.injEq] at halive
    exact halive.symm
  refine ⟨fun j b hj => ?_, fun j b hj => ?_, fun j m b c hne hj hm x hx => ?_,
    fun j b hj => ?_, fun k c hc => ?_, fun k held hk => ?_⟩
  · by_cases hji : j = i
    · subst hji
      exact hself b hj ▸ hgood
    · exact h.good j b (hold j b hji hj)
  · show ∃ g l, (C.instanceOf j b).Inv w' (Function.update s.live i [] j) g l
    by_cases hji : j = i
    · subst hji
      obtain rfl := hself b hj
      rwa [Function.update_self]
    · rw [Function.update_of_ne hji]
      obtain ⟨g, l, howned⟩ := h.owned j b (hold j b hji hj)
      refine ⟨g, l, howned.congr (fun x hx _ => hlinks x fun hi => ?_) (fun p hp => ?_)
        fun k => .inl ⟨by rw [hcaches], by rw [hexited]⟩⟩
      · exact hapart j b (hold j b hji hj) x hi hx
      · exact hglobals p fun heq => hji ((C.owner_eq j b p hp).symm.trans heq)
  · by_cases hji : j = i
    · subst hji
      obtain rfl := hself b hj
      exact hapart m c (hold m c (Ne.symm hne) hm) x hx
    · by_cases hmi : m = i
      · subst hmi
        obtain rfl := hself c hm
        exact fun hx' => hapart j b (hold j b hji hj) x hx' hx
      · exact h.apart j m b c hne (hold j b hji hj) (hold m c hmi hm) x hx
  · by_cases hji : j = i
    · exact hji ▸ List.mem_cons_self
    · exact List.mem_cons_of_mem i (h.created j b (hold j b hji hj))
  · exact List.mem_cons_of_mem i (h.bound k c (hcaches ▸ hc))
  · have hcache := h.gone k held (hexited ▸ hk)
    rw [← hcaches] at hcache
    exact hcache

/-- What the users hold of an object that is not alive does not matter. -/
theorem Inv.live_of_dead (h : Inv C s) (hi : s.alive i = none) (items : List Nat) :
    Inv C { s with live := Function.update s.live i items } where
  good := h.good
  owned j b hj := by
    have hji : j ≠ i := by
      rintro rfl
      rw [show s.alive j = some b from hj] at hi
      cases hi
    show ∃ g l, (C.instanceOf j b).Inv s.world (Function.update s.live i items j) g l
    rw [Function.update_of_ne hji]
    exact h.owned j b hj
  apart := h.apart
  created := h.created
  bound := h.bound
  gone := h.gone

/-- The end of an object; its caches stay where they are. -/
theorem Inv.destroy (h : Inv C s) (i : Nat) :
    Inv C { s with alive := Function.update s.alive i none } := by
  have hold : ∀ j b, Function.update s.alive i none j = some b → s.alive j = some b := by
    intro j b halive
    by_cases hji : j = i
    · subst hji
      rw [Function.update_self] at halive
      cases halive
    · rwa [Function.update_of_ne hji] at halive
  exact
    { good := fun j b hj => h.good j b (hold j b hj)
      owned := fun j b hj => h.owned j b (hold j b hj)
      apart := fun j m b c hne hj hm => h.apart j m b c hne (hold j b hj) (hold m c hm)
      created := fun j b hj => h.created j b (hold j b hj)
      bound := h.bound
      gone := h.gone }

theorem Inv.exit [DecidableEq κ] (h : Inv C s) (gone : κ → Bool) :
    Inv C { s with world := CacheWorld.exit s.world gone } where
  good := h.good
  owned j b hj := by
    obtain ⟨g, l, howned⟩ := h.owned j b hj
    exact ⟨g, l, howned.exit gone⟩
  apart := h.apart
  created := h.created
  bound k c hc := by
    simp only [CacheWorld.exit] at hc
    split at hc
    · cases hc
    · exact h.bound k c hc
  gone k held hk := by
    simp only [CacheWorld.exit] at hk ⊢
    split
    · rfl
    · next hgone =>
        rw [if_neg hgone] at hk
        exact h.gone k held hk

/-- A user writes into a live block of object `i`. -/
theorem Inv.userWrite [DecidableEq κ] (h : Inv C s) (hi : s.alive i = some a) {b : Nat}
    (hb : b ∈ s.live i) (v : Nat) :
    Inv C { s with world := CacheWorld.userWrite s.world b v } where
  good := h.good
  owned j c hj := by
    obtain ⟨g, l, howned⟩ := h.owned j c hj
    refine ⟨g, l, howned.userWrite v fun hblock => ?_⟩
    by_cases hij : i = j
    · exact hij ▸ hb
    · obtain ⟨g', l', howned'⟩ := h.owned i a hi
      exact (h.apart i j a c hij hi hj b (howned'.block_of_live hb) hblock).elim
  apart := h.apart
  created := h.created
  bound := h.bound
  gone := h.gone

end Rules

end PoolMemalloc.Ports.InstanceWorld
