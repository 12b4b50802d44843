import Mathlib.Data.Finset.Basic
import Mathlib.Logic.Function.Basic
import PoolMemalloc.Verified.SizeT

/-!
# The counters and debug checks of `alloc_stats.hpp`

`ALLOC_INSTRUMENTATION` and `ALLOC_DEBUG` are chosen when the code is compiled; a `Build`
says which of them are defined, and without its macro a hook does nothing.  Both keep
their data in `thread_local` variables, so a hook reads and writes only what belongs to
the thread that runs it.
-/

namespace PoolMemalloc.Ports.Instrumentation

open PoolMemalloc.Verified.SizeT

/-- `ALLOC_INSTRUMENTATION` and `ALLOC_DEBUG`. -/
structure Build where
  instrumentation : Bool
  debug : Bool
  deriving Repr, DecidableEq

/-- The fields of `AllocStats`. -/
inductive Counter
  | allocs
  | deallocs
  | refills
  | flushes
  | refillBlocks
  | flushBlocks
  deriving Repr, DecidableEq

abbrev AllocStats := Counter → Nat

/-- `tl_alloc_stats` and `tl_debug_state.live` of one thread.  `overflowed` is a history
variable: one of the counters has wrapped. -/
structure ThreadVars where
  stats : AllocStats
  overflowed : Bool
  live : Finset Nat

/-- Before the thread's first call. -/
def ThreadVars.initial : ThreadVars where
  stats _ := 0
  overflowed := false
  live := ∅

/-- What the debug checks print. -/
inductive Message
  /-- `WARNING: dealloc(nullptr)` -/
  | deallocNull
  /-- `ERROR: double-free or invalid pointer` and the pointer. -/
  | doubleFree (ptr : Nat)
  deriving Repr, DecidableEq

/-! ## Counters -/

/-- `ALLOC_STAT_ADD`. -/
def allocStatAdd (b : Build) (field : Counter) (n : Nat) (v : ThreadVars) : ThreadVars :=
  if b.instrumentation then
    { v with
      stats := Function.update v.stats field (wrap (v.stats field + n))
      overflowed := v.overflowed || decide (2 ^ 64 ≤ v.stats field + n) }
  else v

/-- `ALLOC_STAT_INC`. -/
def allocStatInc (b : Build) (field : Counter) (v : ThreadVars) : ThreadVars :=
  allocStatAdd b field 1 v

section Counters

variable {b : Build} {field : Counter} {n : Nat} {v : ThreadVars}

@[simp] theorem allocStatAdd_live : (allocStatAdd b field n v).live = v.live := by
  unfold allocStatAdd
  split <;> rfl

@[simp] theorem allocStatInc_live : (allocStatInc b field v).live = v.live :=
  allocStatAdd_live

/-- A counter that has not wrapped has the sum. -/
theorem allocStatAdd_exact (hb : b.instrumentation = true)
    (h : (allocStatAdd b field n v).overflowed = false) :
    v.overflowed = false ∧
      (allocStatAdd b field n v).stats =
        Function.update v.stats field (v.stats field + n) := by
  rw [allocStatAdd, if_pos hb] at h ⊢
  obtain ⟨hbefore, hsum⟩ := Bool.or_eq_false_iff.mp h
  have hlt : v.stats field + n < 2 ^ 64 := Nat.lt_of_not_le (of_decide_eq_false hsum)
  exact ⟨hbefore, by rw [wrap_of_lt hlt]⟩

end Counters

/-! ## Debug checks -/

def allocDebugOnAlloc (live : Finset Nat) (ptr : Nat) : Finset Nat :=
  if ptr ≠ 0 then insert ptr live else live

/-- The result, the message and the set that is left. -/
def allocDebugOnDealloc (live : Finset Nat) (ptr : Nat) :
    Bool × Option Message × Finset Nat :=
  if ptr = 0 then (false, some .deallocNull, live)
  else
    let erased := if ptr ∈ live then 1 else 0
    if erased = 0 then (false, some (.doubleFree ptr), live.erase ptr)
    else (true, none, live.erase ptr)

/-- `ALLOC_DEBUG_ON_ALLOC`. -/
def debugOnAlloc (b : Build) (ptr : Nat) (v : ThreadVars) : ThreadVars :=
  if b.debug then { v with live := allocDebugOnAlloc v.live ptr } else v

/-- `ALLOC_DEBUG_ON_DEALLOC`; the callers drop the result of the check. -/
def debugOnDealloc (b : Build) (ptr : Nat) (v : ThreadVars) :
    Option Message × ThreadVars :=
  if b.debug then
    let checked := allocDebugOnDealloc v.live ptr
    (checked.2.1, { v with live := checked.2.2 })
  else (none, v)

section Checks

variable {b : Build} {ptr : Nat} {v : ThreadVars}

@[simp] theorem debugOnAlloc_stats : (debugOnAlloc b ptr v).stats = v.stats := by
  unfold debugOnAlloc
  split <;> rfl

@[simp] theorem debugOnAlloc_overflowed :
    (debugOnAlloc b ptr v).overflowed = v.overflowed := by
  unfold debugOnAlloc
  split <;> rfl

@[simp] theorem debugOnDealloc_stats : (debugOnDealloc b ptr v).2.stats = v.stats := by
  unfold debugOnDealloc
  split <;> rfl

@[simp] theorem debugOnDealloc_overflowed :
    (debugOnDealloc b ptr v).2.overflowed = v.overflowed := by
  unfold debugOnDealloc
  split <;> rfl

theorem debugOnAlloc_live (hb : b.debug = true) (hne : ptr ≠ 0) :
    (debugOnAlloc b ptr v).live = insert ptr v.live := by
  rw [debugOnAlloc, if_pos hb, allocDebugOnAlloc, if_pos hne]

/-- A pointer is reported just if the thread's own set does not have it. -/
theorem debugOnDealloc_eq (hb : b.debug = true) (hne : ptr ≠ 0) :
    debugOnDealloc b ptr v =
      (if ptr ∈ v.live then none else some (.doubleFree ptr),
        { v with live := v.live.erase ptr }) := by
  rw [debugOnDealloc, if_pos hb, allocDebugOnDealloc, if_neg hne]
  by_cases hmem : ptr ∈ v.live <;> simp [hmem]

end Checks

end PoolMemalloc.Ports.Instrumentation
