import PoolMemalloc.Ports.TlBitmapAllocator

/-!
# One `t_region_index`, many allocators

`ThreadLocalBitmapAllocator::t_region_index` is a single `static thread_local`,
while `m_regions` and `m_max_threads` belong to an instance.  Here threads call
`alloc` and `dealloc` on any of a finite set of instances, in any order, and the
index with which a call selects its region is compared with what the instance's
own `assign_region` gave to the calling thread.

`indexValid_iff_firstUse` is exact: the index is the instance's own precisely
when the thread's first `alloc` was on that instance.
-/

namespace PoolMemalloc.Ports.RegionIndex

open PoolMemalloc.Verified.SizeT
open PoolMemalloc.Verified.Transition
open PoolMemalloc.Ports.BlockArray
open PoolMemalloc.Ports.BitmapRegion
open PoolMemalloc.Ports.TlBitmapAllocator

/-- The instances, every thread's `t_region_index`, and two records of the run:
what each `assign_region` returned to whom, and the instance of each thread's
first `alloc`. -/
structure World where
  instances : List Allocator
  tRegionIndex : Nat → Nat
  assigned : List (Nat × Nat × Nat)
  firstUse : Nat → Option Nat

inductive Call
  | alloc (thread instanceId : Nat)
  | dealloc (instanceId ptr : Nat)
  deriving Repr, DecidableEq

/-- The allocator after `alloc`.  Where the index is out of bounds, which is
undefined behaviour, only the effect of `assign_region` is kept. -/
def allocated (a : Allocator) (tRegionIndex : Nat) : Allocator :=
  ((alloc a tRegionIndex).map fun res => res.2.2).getD
    (selectRegion a tRegionIndex).2

/-- One call on one instance. -/
def exec (w : World) : Call → Option World
  | .alloc t A =>
      w.instances[A]?.map fun a =>
        let index := (selectRegion a (w.tRegionIndex t)).1
        { instances := w.instances.set A (allocated a (w.tRegionIndex t))
          tRegionIndex := fun u => if u = t then index else w.tRegionIndex u
          assigned :=
            if w.tRegionIndex t = sizeMax then (A, t, index) :: w.assigned
            else w.assigned
          firstUse := fun u =>
            if u = t then (w.firstUse t).or (some A) else w.firstUse u }
  | .dealloc A ptr =>
      w.instances[A]?.map fun a =>
        { w with instances := w.instances.set A (dealloc a ptr) }

/-- An allocator with its `max_threads` regions. -/
structure WellFormed (a : Allocator) : Prop where
  threads : 0 < a.maxThreads
  threadsLt : a.maxThreads < 2 ^ 64
  length : a.regions.length = a.maxThreads

/-- `a` came out of the constructor, with at least one region. -/
def Created (a : Allocator) : Prop :=
  ∃ alignedAlloc alignedAllocWords blockSize blocksPerThread maxThreads,
    0 < maxThreads ∧ maxThreads < 2 ^ 64 ∧
    construct alignedAlloc alignedAllocWords blockSize blocksPerThread
      maxThreads = some a

theorem Created.wellFormed {a : Allocator} (h : Created a) : WellFormed a := by
  obtain ⟨_, _, _, _, _, hpos, hlt, hmade⟩ := h
  unfold construct at hmade
  dsimp only at hmade
  split at hmade
  · cases hmade
  · obtain rfl := Option.some.inj hmade
    exact ⟨hpos, hlt, by simp⟩

/-- Runs over newly constructed instances, before any thread has called. -/
def calls (instances : List Allocator) : System World Call :=
  ofExec (fun w => w = ⟨instances, fun _ => sizeMax, [], fun _ => none⟩) exec

/-- The index `alloc` on instance `A` by thread `t` uses is in bounds, and it is
what `A`'s own `assign_region` gave to `t`, earlier or in this very call. -/
def IndexValid (w : World) (t A : Nat) : Prop :=
  ∃ a, w.instances[A]? = some a ∧
    (selectRegion a (w.tRegionIndex t)).1 < a.regions.length ∧
    ((A, t, (selectRegion a (w.tRegionIndex t)).1) ∈ w.assigned ∨
      w.tRegionIndex t = sizeMax ∧ selectRegion a (w.tRegionIndex t) = assignRegion a)

/-! ## What calls preserve -/

theorem deallocIn_length (blockSize ptr : Nat) (regions : List Region) :
    (deallocIn blockSize ptr regions).length = regions.length := by
  induction regions with
  | nil => rfl
  | cons r rest ih =>
      rw [deallocIn]
      split <;> simp [ih]

theorem WellFormed.dealloc {a : Allocator} (h : WellFormed a) (ptr : Nat) :
    WellFormed (dealloc a ptr) where
  threads := h.threads
  threadsLt := h.threadsLt
  length := by
    rw [TlBitmapAllocator.dealloc, deallocIn_length]
    exact h.length

theorem allocated_static (a : Allocator) (t : Nat) :
    (allocated a t).maxThreads = a.maxThreads ∧
      (allocated a t).regions.length = a.regions.length := by
  unfold allocated alloc
  dsimp only
  rw [selectRegion_regions]
  cases a.regions[(selectRegion a t).1]? <;> simp

theorem WellFormed.allocated {a : Allocator} (h : WellFormed a) (t : Nat) :
    WellFormed (allocated a t) := by
  obtain ⟨hthreads, hlength⟩ := allocated_static a t
  exact ⟨hthreads ▸ h.threads, hthreads ▸ h.threadsLt,
    hlength.trans (h.length.trans hthreads.symm)⟩

/-- An assigned index is below the number of regions, so it is never
`SIZE_MAX`. -/
theorem WellFormed.assignRegion_lt {a : Allocator} (h : WellFormed a) :
    (assignRegion a).1 < a.regions.length ∧ (assignRegion a).1 ≠ sizeMax := by
  have hlt : (assignRegion a).1 < a.maxThreads := Nat.mod_lt _ h.threads
  have hmax := h.threadsLt
  refine ⟨h.length ▸ hlt, ?_⟩
  unfold sizeMax
  omega

/-- What holds of the thread-local index over every run. -/
structure Inv (w : World) : Prop where
  wellFormed : ∀ a ∈ w.instances, WellFormed a
  unused : ∀ t, w.tRegionIndex t = sizeMax ↔ w.firstUse t = none
  given : ∀ t A, w.firstUse t = some A → (A, t, w.tRegionIndex t) ∈ w.assigned ∧
    ∃ a, w.instances[A]? = some a ∧ w.tRegionIndex t < a.regions.length
  record : ∀ A t index, (A, t, index) ∈ w.assigned → w.firstUse t = some A

theorem inv_init {instances : List Allocator}
    (h : ∀ a ∈ instances, WellFormed a) :
    Inv ⟨instances, fun _ => sizeMax, [], fun _ => none⟩ where
  wellFormed := h
  unused := by simp
  given := by simp
  record := by simp

/-- Replacing an instance by one of the same shape keeps every bound. -/
private theorem bound_set {instances : List Allocator} {A B : Nat}
    {a a' : Allocator} {index : Nat} (ha : instances[A]? = some a)
    (hlen : a'.regions.length = a.regions.length)
    (h : ∃ b, instances[B]? = some b ∧ index < b.regions.length) :
    ∃ b, (instances.set A a')[B]? = some b ∧ index < b.regions.length := by
  obtain ⟨b, hb, hlt⟩ := h
  by_cases hBA : B = A
  · subst hBA
    obtain rfl : a = b := Option.some.inj (ha.symm.trans hb)
    refine ⟨a', List.getElem?_set_self ?_, hlen ▸ hlt⟩
    exact (List.getElem?_eq_some_iff.mp ha).1
  · exact ⟨b, by rw [List.getElem?_set_ne (Ne.symm hBA), hb], hlt⟩

theorem Inv.dealloc {w w' : World} (h : Inv w) {A ptr : Nat}
    (hstep : exec w (.dealloc A ptr) = some w') : Inv w' := by
  obtain ⟨a, ha, rfl⟩ := Option.map_eq_some_iff.mp hstep
  have hmem := List.mem_of_getElem? ha
  exact
    { wellFormed := fun b hb => by
        rcases List.mem_or_eq_of_mem_set hb with hb | rfl
        · exact h.wellFormed b hb
        · exact (h.wellFormed a hmem).dealloc ptr
      unused := h.unused
      given := fun t B hB => by
        obtain ⟨hrec, hbound⟩ := h.given t B hB
        exact ⟨hrec, bound_set ha (deallocIn_length _ _ _) hbound⟩
      record := h.record }

theorem Inv.alloc {w w' : World} (h : Inv w) {t A : Nat}
    (hstep : exec w (.alloc t A) = some w') : Inv w' := by
  obtain ⟨a, ha, rfl⟩ := Option.map_eq_some_iff.mp hstep
  have hmem := List.mem_of_getElem? ha
  have hwf := h.wellFormed a hmem
  have hlen := (allocated_static a (w.tRegionIndex t)).2
  have hwellFormed : ∀ b ∈ w.instances.set A (allocated a (w.tRegionIndex t)),
      WellFormed b := by
    intro b hb
    rcases List.mem_or_eq_of_mem_set hb with hb | rfl
    · exact h.wellFormed b hb
    · exact hwf.allocated _
  by_cases hnew : w.tRegionIndex t = sizeMax
  · -- the first `alloc` of this thread: `A` assigns the index
    have hfirst := (h.unused t).mp hnew
    have hindex : (selectRegion a (w.tRegionIndex t)).1 = (assignRegion a).1 := by
      rw [selectRegion, if_pos hnew]
    obtain ⟨hlt, hne⟩ := hwf.assignRegion_lt
    exact
      { wellFormed := hwellFormed
        unused := fun u => by
          by_cases hu : u = t
          · simp [hu, hindex, hne, hfirst]
          · simpa [hu] using h.unused u
        given := fun u B hB => by
          by_cases hu : u = t
          · subst hu
            obtain rfl : A = B := by simpa [hfirst] using hB
            refine ⟨by simp [hnew], bound_set ha hlen ⟨a, ha, ?_⟩⟩
            simpa [hindex] using hlt
          · obtain ⟨hrec, hbound⟩ := h.given u B (by simpa [hu] using hB)
            refine ⟨?_, bound_set ha hlen (by simpa [hu] using hbound)⟩
            simpa [hu, hnew] using hrec
        record := fun B u index hrec => by
          simp only [if_pos hnew, List.mem_cons, Prod.mk.injEq] at hrec
          rcases hrec with ⟨rfl, rfl, -⟩ | hrec
          · simp [hfirst]
          · have hold := h.record B u index hrec
            have hu : u ≠ t := by
              rintro rfl
              simp [hfirst] at hold
            simpa [hu] using hold }
  · -- the index was assigned before, possibly by another instance
    have hindex : (selectRegion a (w.tRegionIndex t)).1 = w.tRegionIndex t := by
      rw [selectRegion, if_neg hnew]
    have hindices : ∀ u, (if u = t then (selectRegion a (w.tRegionIndex t)).1
        else w.tRegionIndex u) = w.tRegionIndex u := by
      intro u
      split
      · next hu => rw [hindex, hu]
      · rfl
    have hfirst : ∀ u, (if u = t then (w.firstUse t).or (some A)
        else w.firstUse u) = w.firstUse u := by
      intro u
      split
      · next hu =>
          subst hu
          cases hfu : w.firstUse u with
          | none => exact (hnew ((h.unused u).mpr hfu)).elim
          | some B => rfl
      · rfl
    simp only [hindices, hfirst, if_neg hnew]
    exact
      { wellFormed := hwellFormed
        unused := h.unused
        given := fun u B hB =>
          ⟨(h.given u B hB).1, bound_set ha hlen (h.given u B hB).2⟩
        record := h.record }

theorem inv_of_reachable {instances : List Allocator}
    (hmade : ∀ a ∈ instances, Created a) {w : World}
    (h : Reachable (calls instances) w) : Inv w := by
  refine Reachable.invariant ?_ ?_ h
  · rintro w rfl
    exact inv_init fun a ha => (hmade a ha).wellFormed
  · intro w c w' _ hw hstep
    cases c with
    | alloc t A => exact hw.alloc hstep
    | dealloc A ptr => exact hw.dealloc hstep

/-- In every reachable state, the index that `alloc` on instance `A` by thread
`t` would use is valid exactly when `t` has not called `alloc` before or called
it first on `A`. -/
theorem indexValid_iff_firstUse {instances : List Allocator}
    (hmade : ∀ a ∈ instances, Created a) {w : World}
    (h : Reachable (calls instances) w) (t A : Nat) (hA : A < w.instances.length) :
    IndexValid w t A ↔ w.firstUse t = none ∨ w.firstUse t = some A := by
  have hinv := inv_of_reachable hmade h
  have ha := List.getElem?_eq_getElem hA
  have hwfA := hinv.wellFormed _ (List.getElem_mem hA)
  constructor
  · rintro ⟨a, ha', -, hrec | ⟨hnew, -⟩⟩
    · exact Or.inr (hinv.record _ _ _ hrec)
    · exact Or.inl ((hinv.unused t).mp hnew)
  · rintro (hfirst | hfirst)
    · have hnew := (hinv.unused t).mpr hfirst
      have hsel : selectRegion w.instances[A] (w.tRegionIndex t) =
          assignRegion w.instances[A] := by
        rw [selectRegion, if_pos hnew]
      exact ⟨_, ha, hsel ▸ hwfA.assignRegion_lt.1, Or.inr ⟨hnew, hsel⟩⟩
    · obtain ⟨hrec, b, hb, hlt⟩ := hinv.given t A hfirst
      obtain rfl : w.instances[A] = b := Option.some.inj (ha.symm.trans hb)
      have hnew : w.tRegionIndex t ≠ sizeMax := by
        intro hmax
        rw [(hinv.unused t).mp hmax] at hfirst
        cases hfirst
      have hsel : (selectRegion w.instances[A] (w.tRegionIndex t)).1 =
          w.tRegionIndex t := by
        rw [selectRegion, if_neg hnew]
      refine ⟨_, ha, ?_, Or.inl ?_⟩
      · rw [hsel]
        exact hlt
      · rw [hsel]
        exact hrec

/-! ## Two instances of different sizes -/

/-- An instance with two regions and an instance with one, one block each. -/
def unequal : List Allocator :=
  [⟨64, 1, 2, [fresh 4096 1, fresh 8192 1], 0⟩, ⟨64, 1, 1, [fresh 12288 1], 0⟩]

theorem unequal_created : ∀ a ∈ unequal, Created a := by
  intro a ha
  rcases List.mem_cons.mp ha with rfl | ha
  · exact ⟨fun i _ => 4096 + 4096 * i, fun _ _ => 16384, 64, 1, 2, by decide,
      by decide, by decide⟩
  · obtain rfl := List.mem_singleton.mp ha
    exact ⟨fun _ _ => 12288, fun _ _ => 16384, 64, 1, 1, by decide, by decide,
      by decide⟩

/-- Threads 0 and 1 allocate from the first instance; thread 1 then indexes the
single region of the second instance with 1. -/
theorem index_out_of_bounds :
    ¬ ∀ w, Reachable (calls unequal) w → ∀ t A, A < w.instances.length →
      IndexValid w t A := by
  intro hclaim
  have hrun : (replay exec ⟨unequal, fun _ => sizeMax, [], fun _ => none⟩
      [.alloc 0 0, .alloc 1 0]).any (fun w => w.instances.length == 2 &&
        (w.instances[1]?.map fun a =>
          (selectRegion a (w.tRegionIndex 1)).1) == some 1 &&
        (w.instances[1]?.map fun a => a.regions.length) == some 1) = true := by
    decide +kernel
  obtain ⟨w, hw, hcheck⟩ := (Option.any_eq_true _ _).mp hrun
  simp only [Bool.and_eq_true, beq_iff_eq] at hcheck
  obtain ⟨⟨hlength, hindex⟩, hregions⟩ := hcheck
  obtain ⟨a, ha, hlt, -⟩ := hclaim w (Reachable.replay _ (.init rfl) hw) 1 1
    (by omega)
  rw [ha] at hindex hregions
  simp only [Option.map_some, Option.some.injEq] at hindex hregions
  omega

/-- The exact condition for thread 1 in that run: its index is valid on the first instance
and not on the second. -/
theorem indexValid_unequal : ∃ w,
    replay exec ⟨unequal, fun _ => sizeMax, [], fun _ => none⟩
      [.alloc 0 0, .alloc 1 0] = some w ∧ w.firstUse 1 = some 0 ∧
    (IndexValid w 1 0 ↔ w.firstUse 1 = none ∨ w.firstUse 1 = some 0) ∧
    (IndexValid w 1 1 ↔ w.firstUse 1 = none ∨ w.firstUse 1 = some 1) := by
  have hrun : (replay exec ⟨unequal, fun _ => sizeMax, [], fun _ => none⟩
      [.alloc 0 0, .alloc 1 0]).any (fun w => w.instances.length == 2 &&
        w.firstUse 1 == some 0) = true := by
    decide +kernel
  obtain ⟨w, hw, hcheck⟩ := (Option.any_eq_true _ _).mp hrun
  rw [Bool.and_eq_true, beq_iff_eq, beq_iff_eq] at hcheck
  obtain ⟨hlength, hfirst⟩ := hcheck
  have hreach : Reachable (calls unequal) w := Reachable.replay _ (.init rfl) hw
  exact ⟨w, hw, hfirst, indexValid_iff_firstUse unequal_created hreach 1 0 (by omega),
    indexValid_iff_firstUse unequal_created hreach 1 1 (by omega)⟩

end PoolMemalloc.Ports.RegionIndex
