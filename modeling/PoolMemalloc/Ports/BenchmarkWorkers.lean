import PoolMemalloc.Ports.AllocatorServices

/-!
# The benchmarks whose threads work for themselves

`alloc_burst`, `same_thread`, `locality_walk`, `alloc_storm` and `random_free` start
`cfg.threads` workers.  A worker asks for a number of blocks, keeps those it gets in a
vector and frees them: in batches, or all at its end, in order or shuffled.  One
`Workload` says which; the workers run on any allocator, interleaved with one another in
the allocator's atomic steps.

A worker fills each block it gets, and `locality_walk` then counts up the first byte of
each of its blocks again and again.  What is written there is not told apart from other
writes of users, but it must not go past the end of the block (`Point.overrun`), which
two of the benchmarks do unless `cfg.size` is large (`classes_fit_iff`).
-/

namespace PoolMemalloc.Ports.BenchmarkWorkers

open PoolMemalloc.Verified.BlockService
open PoolMemalloc.Verified.Conservation
open PoolMemalloc.Verified.Transition
open PoolMemalloc.Ports.AllocatorServices

structure BenchmarkConfig where
  size : Nat := 64
  ops : Nat := 5000000
  threads : Nat := 8
  batch : Nat := 256
  pool : Nat := 1000000
  deriving Repr, DecidableEq

/-- `SIZE_CLASSES`, from which `random_size` takes one. -/
def sizeClasses : List Nat := [16, 32, 64, 128, 256, 512, 1024]

/-- `WALKS`, of `locality_walk`. -/
def walks : Nat := 128

/-- A worker reserves room for `reserved` blocks, calls `alloc` `ops` times and fills each
block with one of the numbers of bytes `fills`.  With `batch` it frees its blocks whenever
it has so many.  Before it frees those it still has it walks over them `walks` times. -/
structure Workload where
  reserved : Nat
  ops : Nat
  fills : List Nat
  filled : fills ≠ []
  batch : Option Nat
  walks : Nat
  shuffled : Bool
  deriving Repr, DecidableEq

def allocBurst (cfg : BenchmarkConfig) : Workload where
  reserved := cfg.batch
  ops := cfg.ops
  fills := [cfg.size]
  filled := by simp
  batch := some cfg.batch
  walks := 0
  shuffled := false

def sameThread (cfg : BenchmarkConfig) : Workload where
  reserved := cfg.batch
  ops := cfg.ops
  fills := [cfg.size]
  filled := by simp
  batch := some cfg.batch
  walks := 0
  shuffled := false

def localityWalk (cfg : BenchmarkConfig) : Workload where
  reserved := cfg.pool
  ops := cfg.pool
  fills := [cfg.size]
  filled := by simp
  batch := none
  walks := BenchmarkWorkers.walks
  shuffled := false

def allocStorm (cfg : BenchmarkConfig) : Workload where
  reserved := cfg.ops
  ops := cfg.ops
  fills := sizeClasses
  filled := by decide
  batch := none
  walks := 0
  shuffled := false

def randomFree (cfg : BenchmarkConfig) : Workload where
  reserved := cfg.ops
  ops := cfg.ops
  fills := sizeClasses
  filled := by decide
  batch := none
  walks := 0
  shuffled := true

/-- Where a worker is. -/
inductive Point
  /-- Head of the `for` loop. -/
  | loop
  /-- In `alloc`. -/
  | allocating
  /-- Before `memset` and `push_back`. -/
  | filling (block : Nat)
  /-- In a walk over `ptrs`, with `rest` to come and `left` more walks after it; after the
  last one, before the loop that frees. -/
  | walking (left : Nat) (rest : List Nat)
  /-- In a loop over `ptrs`, with `rest` to be freed; `last` after the `for` loop. -/
  | freeing (rest : List Nat) (last : Bool)
  /-- In `dealloc`. -/
  | releasing (rest : List Nat) (last : Bool)
  /-- It has written past the end of its block. -/
  | overrun (block : Nat)
  | finished
  deriving Repr, DecidableEq

/-- A worker's `i` and `ptrs`. -/
structure Worker where
  point : Point
  i : Nat
  ptrs : List Nat
  deriving Repr, DecidableEq

def Workload.full (w : Workload) (ptrs : List Nat) : Bool :=
  match w.batch with
  | some batch => ptrs.length ≥ batch
  | none => false

/-- What `std::shuffle` makes of `ptrs`, and what `random_size` returns. -/
structure Choice where
  order : List Nat
  bytes : Nat
  deriving Repr, DecidableEq

/-- The steps between calls; a block has `room` bytes. -/
def Workload.own (w : Workload) (room : Nat) (choice : Choice) (s : Worker) : Option Worker :=
  match s.point with
  | .loop =>
      if s.i < w.ops then none else some { s with point := .walking w.walks [] }
  | .filling block =>
      if choice.bytes ∈ w.fills then
        if choice.bytes > room then some { s with point := .overrun block }
        else
          let ptrs := s.ptrs ++ [block]
          if w.full ptrs then some { s with point := .freeing ptrs false, ptrs := ptrs }
          else some { point := .loop, i := s.i + 1, ptrs := ptrs }
      else none
  | .walking left (block :: rest) =>
      -- `bytes[0]++`
      if 1 > room then some { s with point := .overrun block }
      else some { s with point := .walking left rest }
  | .walking (left + 1) [] => some { s with point := .walking left s.ptrs }
  | .walking 0 [] =>
      if choice.order = s.ptrs ∨ w.shuffled ∧ choice.order.Perm s.ptrs then
        some { s with point := .freeing choice.order true, ptrs := choice.order }
      else none
  | .freeing [] false => some { point := .loop, i := s.i + 1, ptrs := [] }
  | .freeing [] true => some { s with point := .finished }
  | _ => none

/-- The calls and their results. -/
def Workload.hears (w : Workload) (s : Worker) : Notice → Option Worker
  | .callAlloc _ =>
      if s.point = .loop ∧ s.i < w.ops then some { s with point := .allocating } else none
  | .gotBlock _ block =>
      if s.point = .allocating then
        if block = 0 then some { s with point := .loop, i := s.i + 1 }
        else some { s with point := .filling block }
      else none
  | .callDealloc _ block =>
      match s.point with
      | .freeing (x :: rest) last =>
          if x = block then some { s with point := .releasing rest last } else none
      | _ => none
  | .freed _ =>
      match s.point with
      | .releasing rest last => some { s with point := .freeing rest last }
      | _ => none

/-- `threads` workers, with blocks of `room` bytes. -/
def workers (w : Workload) (threads room : Nat) : Program where
  State := Nat → Worker
  Act := Nat × Choice
  init t := { point := if t < threads then .loop else .finished, i := 0, ptrs := [] }
  own k act := (w.own room act.2 (k act.1)).map (Function.update k act.1)
  hears k n := (w.hears (k n.thread) n).map (Function.update k n.thread)

/-! ## What a worker has -/

/-- The blocks a worker has; those of `ptrs` that it has freed it only remembers. -/
def Worker.holds (s : Worker) : List Nat :=
  match s.point with
  | .filling block => block :: s.ptrs
  | .overrun block => block :: s.ptrs
  | .freeing rest _ => rest
  | .releasing rest _ => rest
  | .finished => []
  | _ => s.ptrs

def Point.phase : Point → Phase
  | .allocating => .allocating
  | .releasing _ _ => .freeing
  | _ => .outside

/-- The vector has room for another block. -/
def Workload.Short (w : Workload) (ptrs : List Nat) : Prop :=
  ∀ batch, w.batch = some batch → ptrs = [] ∨ ptrs.length < batch

/-- It has not outgrown what is reserved for it.  With `--batch 0` nothing is reserved, and
it has at most one block. -/
def Workload.Bounded (w : Workload) (ptrs : List Nat) : Prop :=
  ptrs.length ≤ w.reserved ∨ w.batch = some 0 ∧ ptrs.length ≤ 1

/-- A worker reserves what it needs, and blocks of `room` bytes are large enough for all
that it writes there. -/
structure Workload.Suits (w : Workload) (room : Nat) : Prop where
  reserved : w.reserved = w.batch.getD w.ops
  fills : ∀ bytes ∈ w.fills, bytes ≤ room
  first : 0 < room

/-- A worker's loop counter and the length of its vector. -/
def Workload.Counted (w : Workload) (s : Worker) : Prop :=
  match s.point with
  | .loop => s.i ≤ w.ops ∧ s.ptrs.length ≤ s.i ∧ w.Short s.ptrs
  | .allocating => s.i < w.ops ∧ s.ptrs.length ≤ s.i ∧ w.Short s.ptrs
  | .filling _ => s.i < w.ops ∧ s.ptrs.length ≤ s.i ∧ w.Short s.ptrs
  | .freeing _ false => s.i < w.ops ∧ w.Bounded s.ptrs
  | .releasing _ false => s.i < w.ops ∧ w.Bounded s.ptrs
  | .walking _ rest => w.Bounded s.ptrs ∧ rest ⊆ s.ptrs
  | .overrun _ => False
  | _ => w.Bounded s.ptrs

section Workers

variable {w : Workload} {s s' : Worker} {room : Nat} {choice : Choice} {ptrs : List Nat}
variable {n : Notice}

theorem Workload.Short.bounded (h : w.Short ptrs) (hsuits : w.Suits room)
    (hlen : ptrs.length ≤ w.ops) : w.Bounded ptrs := by
  left
  rw [hsuits.reserved]
  cases hbatch : w.batch with
  | none => exact hlen
  | some batch =>
      rcases h batch hbatch with rfl | hlt
      · exact Nat.zero_le _
      · exact Nat.le_of_lt hlt

/-- One more block. -/
theorem Workload.Short.push (h : w.Short ptrs) (hsuits : w.Suits room) {block : Nat}
    (hlen : ptrs.length < w.ops) : w.Bounded (ptrs ++ [block]) := by
  have hlength : (ptrs ++ [block]).length = ptrs.length + 1 := List.length_append
  rw [Workload.Bounded, hlength, hsuits.reserved]
  cases hbatch : w.batch with
  | none => exact .inl hlen
  | some batch =>
      rcases h batch hbatch with rfl | hlt
      · rcases Nat.eq_zero_or_pos batch with rfl | hpos
        · exact .inr ⟨rfl, Nat.le_refl 1⟩
        · exact .inl hpos
      · exact .inl hlt

theorem Workload.short_of_not_full (h : w.full ptrs = false) : w.Short ptrs := by
  intro batch hbatch
  right
  rw [Workload.full, hbatch] at h
  exact Nat.lt_of_not_le (of_decide_eq_false h)

/-- One step of a walk, or the shuffle after the last one. -/
theorem walk_spec {left : Nat} {rest : List Nat} (hsuits : w.Suits room)
    (hpoint : s.point = .walking left rest) (hbounded : w.Bounded s.ptrs)
    (hsub : rest ⊆ s.ptrs) (hown : w.own room choice s = some s') :
    s'.point.phase = .outside ∧ w.Counted s' ∧ s'.holds.Perm s.ptrs := by
  cases rest with
  | cons block rest =>
      simp only [Workload.own, hpoint, if_neg (Nat.not_lt.mpr hsuits.first),
        Option.some.injEq] at hown
      subst hown
      exact ⟨rfl, ⟨hbounded, (List.cons_subset.mp hsub).2⟩, List.Perm.refl _⟩
  | nil =>
      cases left with
      | succ left =>
          simp only [Workload.own, hpoint, Option.some.injEq] at hown
          subst hown
          exact ⟨rfl, ⟨hbounded, List.Subset.refl _⟩, List.Perm.refl _⟩
      | zero =>
          simp only [Workload.own, hpoint, Option.ite_none_right_eq_some,
            Option.some.injEq] at hown
          obtain ⟨horder, rfl⟩ := hown
          have hperm : choice.order.Perm s.ptrs := by
            rcases horder with horder | horder
            · rw [horder]
            · exact horder.2
          refine ⟨rfl, ?_, hperm⟩
          show w.Bounded choice.order
          rw [Workload.Bounded, hperm.length_eq]
          exact hbounded

/-- A step between calls keeps the blocks, and is made outside. -/
theorem own_spec (hsuits : w.Suits room) (hcounted : w.Counted s)
    (hown : w.own room choice s = some s') :
    s.point.phase = .outside ∧ s'.point.phase = .outside ∧ w.Counted s' ∧
      s'.holds.Perm s.holds := by
  cases hpoint : s.point with
  | loop =>
      rw [Workload.Counted, hpoint] at hcounted
      obtain ⟨hi, hlen, hshort⟩ := hcounted
      simp only [Workload.own, hpoint, Option.ite_none_left_eq_some, Option.some.injEq] at hown
      obtain ⟨-, rfl⟩ := hown
      have hbounded : w.Bounded s.ptrs := hshort.bounded hsuits (Nat.le_trans hlen hi)
      refine ⟨rfl, rfl, ⟨hbounded, List.nil_subset _⟩, ?_⟩
      rw [Worker.holds, Worker.holds, hpoint]
  | filling block =>
      rw [Workload.Counted, hpoint] at hcounted
      obtain ⟨hi, hlen, hshort⟩ := hcounted
      have hlength : (s.ptrs ++ [block]).length = s.ptrs.length + 1 := List.length_append
      simp only [Workload.own, hpoint, Option.ite_none_right_eq_some] at hown
      obtain ⟨hbytes, hown⟩ := hown
      rw [if_neg (Nat.not_lt.mpr (hsuits.fills _ hbytes))] at hown
      split at hown
      · next hfull =>
          cases hown
          refine ⟨rfl, rfl, ⟨hi, hshort.push hsuits (by omega)⟩, ?_⟩
          rw [Worker.holds, Worker.holds, hpoint]
          exact List.perm_append_singleton block s.ptrs
      · next hfull =>
          cases hown
          have hlen' : (s.ptrs ++ [block]).length ≤ s.i + 1 := by omega
          refine ⟨rfl, rfl, ⟨hi, hlen', ?_⟩, ?_⟩
          · exact Workload.short_of_not_full (by simpa using hfull)
          · rw [Worker.holds, Worker.holds, hpoint]
            exact List.perm_append_singleton block s.ptrs
  | walking left rest =>
      rw [Workload.Counted, hpoint] at hcounted
      obtain ⟨hafter, hcounted', hperm⟩ :=
        walk_spec hsuits hpoint hcounted.1 hcounted.2 hown
      have hholds : s.holds = s.ptrs := by rw [Worker.holds, hpoint]
      rw [hholds]
      exact ⟨rfl, hafter, hcounted', hperm⟩
  | freeing rest last =>
      rw [Workload.Counted, hpoint] at hcounted
      cases rest with
      | cons x rest => simp [Workload.own, hpoint] at hown
      | nil =>
          cases last with
          | false =>
              obtain ⟨hi, -⟩ := hcounted
              simp only [Workload.own, hpoint, Option.some.injEq] at hown
              subst hown
              refine ⟨rfl, rfl, ⟨hi, Nat.zero_le _, fun batch _ => .inl rfl⟩, ?_⟩
              rw [Worker.holds, Worker.holds, hpoint]
          | true =>
              simp only [Workload.own, hpoint, Option.some.injEq] at hown
              subst hown
              refine ⟨rfl, rfl, hcounted, ?_⟩
              rw [Worker.holds, Worker.holds, hpoint]
  | allocating => simp [Workload.own, hpoint] at hown
  | releasing rest last => simp [Workload.own, hpoint] at hown
  | overrun block => simp [Workload.own, hpoint] at hown
  | finished => simp [Workload.own, hpoint] at hown

/-- What a notice does to the blocks of the worker it is for. -/
def Passes (n : Notice) (s s' : Worker) : Prop :=
  match n with
  | .callAlloc _ => s'.point.phase = .allocating ∧ s'.holds = s.holds
  | .gotBlock _ block => s'.point.phase = .outside ∧
      s'.holds = if block = 0 then s.holds else block :: s.holds
  | .callDealloc _ block => s'.point.phase = .freeing ∧ s.holds = block :: s'.holds
  | .freed _ => s'.point.phase = .outside ∧ s'.holds = s.holds

theorem hears_spec (hcounted : w.Counted s) (hhears : w.hears s n = some s') :
    w.Counted s' ∧ Passes n s s' := by
  cases n with
  | callAlloc t =>
      simp only [Workload.hears, Option.ite_none_right_eq_some, Option.some.injEq] at hhears
      obtain ⟨⟨hpoint, hi⟩, rfl⟩ := hhears
      rw [Workload.Counted, hpoint] at hcounted
      refine ⟨⟨hi, hcounted.2⟩, rfl, ?_⟩
      rw [Worker.holds, Worker.holds, hpoint]
  | gotBlock t block =>
      simp only [Workload.hears, Option.ite_none_right_eq_some] at hhears
      obtain ⟨hpoint, hhears⟩ := hhears
      rw [Workload.Counted, hpoint] at hcounted
      obtain ⟨hi, hlen, hshort⟩ := hcounted
      have hholds : s.holds = s.ptrs := by rw [Worker.holds, hpoint]
      split at hhears
      · next hnull =>
          cases hhears
          refine ⟨⟨hi, Nat.le_succ_of_le hlen, hshort⟩, rfl, ?_⟩
          rw [if_pos hnull, hholds]
          rfl
      · next hne =>
          cases hhears
          refine ⟨⟨hi, hlen, hshort⟩, rfl, ?_⟩
          rw [if_neg hne, hholds]
          rfl
  | callDealloc t block =>
      cases hpoint : s.point with
      | freeing rest last =>
          rw [Workload.Counted, hpoint] at hcounted
          cases rest with
          | nil => simp [Workload.hears, hpoint] at hhears
          | cons x rest =>
              simp only [Workload.hears, hpoint, Option.ite_none_right_eq_some,
                Option.some.injEq] at hhears
              obtain ⟨rfl, rfl⟩ := hhears
              refine ⟨?_, rfl, ?_⟩
              · cases last with
                | false => exact hcounted
                | true => exact hcounted
              · rw [Worker.holds, hpoint]
                rfl
      | _ => simp [Workload.hears, hpoint] at hhears
  | freed t =>
      cases hpoint : s.point with
      | releasing rest last =>
          rw [Workload.Counted, hpoint] at hcounted
          simp only [Workload.hears, hpoint, Option.some.injEq] at hhears
          subst hhears
          refine ⟨?_, rfl, ?_⟩
          · cases last with
            | false => exact hcounted
            | true => exact hcounted
          · rw [Worker.holds, Worker.holds, hpoint]
      | _ => simp [Workload.hears, hpoint] at hhears

end Workers

/-! ## All workers -/

/-- The threads are where they think they are. -/
def Fits (w : Workload) (k : Nat → Worker) (phase : Nat → Phase) : Prop :=
  ∀ t, phase t = (k t).point.phase ∧ w.Counted (k t)

section Custody

variable {w : Workload} {threads room t : Nat} {k k' : Nat → Worker} {s : Worker} {n : Notice}
variable {v v' : View} {phase : Nat → Phase}

theorem fits_update (h : Fits w k phase) (hcounted : w.Counted s) :
    Fits w (Function.update k t s) (Function.update phase t s.point.phase) := by
  intro u
  by_cases hu : u = t
  · subst hu
    simp only [Function.update_self]
    exact ⟨trivial, hcounted⟩
  · simp only [Function.update_of_ne hu]
    exact h u

theorem holds_update {u : Nat} (hu : u ≠ t) :
    ((Function.update k t s) u).holds = (k u).holds := by
  rw [Function.update_of_ne hu]

/-- A worker that has the blocks it had. -/
theorem holds_same (hholds : s.holds = (k t).holds) :
    (fun u => ((Function.update k t s) u).holds) = fun u => (k u).holds := by
  funext u
  by_cases hu : u = t
  · subst hu
    rw [Function.update_self, hholds]
  · rw [holds_update hu]

theorem hears_kept (hfits : Fits w k v.phase) (hnodup : v.live.Nodup)
    (hheld : Ledger (· ∈ v.live) fun t => (k t).holds) (htells : Tells v n v')
    (hhears : (workers w threads room).hears k n = some k') :
    Fits w k' v'.phase ∧ Ledger (· ∈ v'.live) fun t => (k' t).holds := by
  obtain ⟨s, hs, rfl⟩ := Option.map_eq_some_iff.mp hhears
  obtain ⟨hcounted, hpasses⟩ := hears_spec (hfits n.thread).2 hs
  have hfits' := fits_update (t := n.thread) hfits hcounted
  cases htells with
  | callAlloc hphase =>
      obtain ⟨hafter, hholds⟩ := hpasses
      rw [hafter] at hfits'
      rw [holds_same hholds]
      exact ⟨hfits', hheld⟩
  | refused hphase =>
      obtain ⟨hafter, hholds⟩ := hpasses
      rw [hafter] at hfits'
      rw [if_pos rfl] at hholds
      rw [holds_same hholds]
      exact ⟨hfits', hheld⟩
  | @granted t block hphase hne hnew =>
      obtain ⟨hafter, hholds⟩ := hpasses
      rw [hafter] at hfits'
      rw [if_neg hne] at hholds
      refine ⟨hfits', hheld.insert (k := t) hnew (fun _ => List.mem_cons) ?_ fun u hu =>
        holds_update hu⟩
      rw [Notice.thread, Function.update_self, hholds]
      rfl
  | @callDealloc t block hphase hmem =>
      obtain ⟨hafter, hholds⟩ := hpasses
      rw [hafter] at hfits'
      refine ⟨hfits', hheld.remove (k := t) (fun _ => hnodup.mem_erase_iff) ?_ fun u hu =>
        holds_update hu⟩
      rw [Notice.thread, Function.update_self]
      exact hholds
  | freed hphase =>
      obtain ⟨hafter, hholds⟩ := hpasses
      rw [hafter] at hfits'
      rw [holds_same hholds]
      exact ⟨hfits', hheld⟩

theorem own_kept (hsuits : w.Suits room) {act : Nat × Choice} (hfits : Fits w k phase)
    (hown : (workers w threads room).own k act = some k') :
    Fits w k' phase ∧ ∀ Q, Ledger Q (fun t => (k t).holds) →
      Ledger Q fun t => (k' t).holds := by
  obtain ⟨s, hs, rfl⟩ := Option.map_eq_some_iff.mp hown
  obtain ⟨hphase, hcounted⟩ := hfits act.1
  obtain ⟨hbefore, hafter, hcounted', hperm⟩ := own_spec hsuits hcounted hs
  constructor
  · have hfits' := fits_update (t := act.1) hfits hcounted'
    rw [hafter, ← hbefore, ← hphase, Function.update_eq_self] at hfits'
    exact hfits'
  · intro Q hledger
    apply hledger.permute (k := act.1)
    · rw [Function.update_self]
      exact hperm
    · exact fun u hu => holds_update hu

theorem fits_start (w : Workload) (threads room : Nat) :
    Fits w (workers w threads room).init View.blank.phase := by
  intro t
  by_cases ht : t < threads
  · simp only [workers, if_pos ht]
    exact ⟨rfl, Nat.zero_le _, Nat.le_refl _, fun batch _ => .inl rfl⟩
  · simp only [workers, if_neg ht]
    exact ⟨rfl, .inl (Nat.zero_le _)⟩

theorem holds_start (w : Workload) (threads room t : Nat) :
    Worker.holds ((workers w threads room).init t) = [] := by
  by_cases ht : t < threads
  · simp only [workers, Worker.holds, if_pos ht]
  · simp only [workers, Worker.holds, if_neg ht]

/-- Workers keep account of their blocks. -/
def custody {w : Workload} {room : Nat} (hsuits : w.Suits room) (threads : Nat) :
    Custody (workers w threads room) where
  Holder := Nat
  cell k t := (k t).holds
  fits := Fits w
  start := ⟨fits_start w threads room, holds_start w threads room⟩
  own _ _ _ _ hfits hown := own_kept hsuits hfits hown
  hears _ _ _ _ _ hfits hnodup hheld htells hhears := hears_kept hfits hnodup hheld htells hhears

end Custody

/-! ## Runs -/

/-- What holds of `threads` workers and the service they run on, between any two steps. -/
structure Orderly (w : Workload) (threads room : Nat) (S : Service)
    (s : (Nat → Worker) × S.State) : Prop where
  /-- The blocks that are live are those the workers have, each of them once. -/
  held : Ledger (· ∈ (S.view s.2).live) fun t => (s.1 t).holds
  /-- Nobody has written past the end of a block. -/
  within : ∀ t block, (s.1 t).point ≠ .overrun block
  /-- A vector does not outgrow what is reserved for it, but for the one block that it gets
  with `--batch 0`. -/
  bounded : ∀ t, w.Bounded (s.1 t).ptrs
  /-- What a worker is about to write to in a walk it still has. -/
  walks : ∀ t left x rest, (s.1 t).point = .walking left (x :: rest) → x ∈ (s.1 t).holds
  /-- What a worker is about to free is live, and the allocator takes it. -/
  frees : ∀ t x rest last, (s.1 t).point = .freeing (x :: rest) last →
    x ∈ (S.view s.2).live ∧ ∃ e d, S.exec s.2 e = some d ∧
      S.notice s.2 e d = some (.callDealloc t x)
  /-- A worker that has not finished is in a call, or can go on. -/
  goes : ∀ t, (s.1 t).point ≠ .finished → (S.view s.2).phase t = .outside →
    ∃ e s', stepBoth (workers w threads room) S s e = some s' ∧ s'.1 t ≠ s.1 t
  /-- When all have finished, no block is live. -/
  finished : (∀ t, (s.1 t).point = .finished) → (S.view s.2).live = []

section Runs

variable {w : Workload} {threads room t : Nat} {S : Service} {s : (Nat → Worker) × S.State}
variable {k : Worker}

/-- A worker outside either takes a step of its own or makes a call. -/
theorem worker_goes (hsuits : w.Suits room) (hcounted : w.Counted k)
    (hphase : k.point.phase = .outside) (hbusy : k.point ≠ .finished) :
    (∃ choice k', w.own room choice k = some k' ∧ k' ≠ k) ∨
      (∃ k', w.hears k (.callAlloc t) = some k' ∧ k' ≠ k) ∨
      ∃ x rest last k', k.point = .freeing (x :: rest) last ∧
        w.hears k (.callDealloc t x) = some k' ∧ k' ≠ k := by
  have hmoved : ∀ k' : Worker, k'.point ≠ k.point → k' ≠ k := fun k' hne heq =>
    hne (congrArg Worker.point heq)
  cases hpoint : k.point with
  | loop =>
      by_cases hi : k.i < w.ops
      · refine .inr (.inl ⟨{ k with point := .allocating }, ?_, hmoved _ (by simp [hpoint])⟩)
        rw [Workload.hears, if_pos ⟨hpoint, hi⟩]
      · refine .inl ⟨⟨[], 0⟩, { k with point := .walking w.walks [] }, ?_,
          hmoved _ (by simp [hpoint])⟩
        simp only [Workload.own, hpoint, if_neg hi]
  | filling block =>
      obtain ⟨bytes, hbytes⟩ := List.exists_mem_of_ne_nil w.fills w.filled
      have hroom : ¬ bytes > room := Nat.not_lt.mpr (hsuits.fills bytes hbytes)
      by_cases hfull : w.full (k.ptrs ++ [block]) = true
      · refine .inl ⟨⟨[], bytes⟩, { k with
          point := .freeing (k.ptrs ++ [block]) false, ptrs := k.ptrs ++ [block] }, ?_,
          hmoved _ (by simp [hpoint])⟩
        simp only [Workload.own, hpoint, if_pos hbytes, if_neg hroom, if_pos hfull]
      · refine .inl ⟨⟨[], bytes⟩, { point := .loop, i := k.i + 1, ptrs := k.ptrs ++ [block] }, ?_,
          hmoved _ (by simp [hpoint])⟩
        simp only [Workload.own, hpoint, if_pos hbytes, if_neg hroom, if_neg hfull]
  | walking left rest =>
      cases rest with
      | cons block rest =>
          refine .inl ⟨⟨[], 0⟩, { k with point := .walking left rest }, ?_,
            hmoved _ (by simp [hpoint])⟩
          simp only [Workload.own, hpoint, if_neg (Nat.not_lt.mpr hsuits.first)]
      | nil =>
          cases left with
          | succ left =>
              refine .inl ⟨⟨[], 0⟩, { k with point := .walking left k.ptrs }, ?_,
                hmoved _ (by simp [hpoint])⟩
              simp only [Workload.own, hpoint]
          | zero =>
              refine .inl ⟨⟨k.ptrs, 0⟩, { k with point := .freeing k.ptrs true }, ?_,
                hmoved _ (by simp [hpoint])⟩
              simp only [Workload.own, hpoint, true_or, if_true]
  | freeing rest last =>
      cases rest with
      | cons x rest =>
          refine .inr (.inr ⟨x, rest, last, { k with point := .releasing rest last }, rfl, ?_,
            hmoved _ (by simp [hpoint])⟩)
          simp only [Workload.hears, hpoint, if_true]
      | nil =>
          cases last with
          | false =>
              refine .inl ⟨⟨[], 0⟩, { point := .loop, i := k.i + 1, ptrs := [] }, ?_,
                hmoved _ (by simp [hpoint])⟩
              simp only [Workload.own, hpoint]
          | true =>
              refine .inl ⟨⟨[], 0⟩, { k with point := .finished }, ?_,
                hmoved _ (by simp [hpoint])⟩
              simp only [Workload.own, hpoint]
  | allocating =>
      rw [hpoint] at hphase
      cases hphase
  | releasing rest last =>
      rw [hpoint] at hphase
      cases hphase
  | overrun block =>
      rw [Workload.Counted, hpoint] at hcounted
      exact hcounted.elim
  | finished => exact (hbusy hpoint).elim

theorem update_ne {k : Nat → Worker} {k' : Worker} (hne : k' ≠ k t) :
    Function.update k t k' t ≠ k t := by
  rw [Function.update_self]
  exact hne

theorem counted_bounded (hsuits : w.Suits room) (h : w.Counted k) : w.Bounded k.ptrs := by
  cases hpoint : k.point with
  | loop =>
      rw [Workload.Counted, hpoint] at h
      exact h.2.2.bounded hsuits (Nat.le_trans h.2.1 h.1)
  | allocating =>
      rw [Workload.Counted, hpoint] at h
      exact h.2.2.bounded hsuits (Nat.le_trans h.2.1 (Nat.le_of_lt h.1))
  | filling block =>
      rw [Workload.Counted, hpoint] at h
      exact h.2.2.bounded hsuits (Nat.le_trans h.2.1 (Nat.le_of_lt h.1))
  | walking left rest =>
      rw [Workload.Counted, hpoint] at h
      exact h.1
  | freeing rest last =>
      rw [Workload.Counted, hpoint] at h
      cases last with
      | false => exact h.2
      | true => exact h
  | releasing rest last =>
      rw [Workload.Counted, hpoint] at h
      cases last with
      | false => exact h.2
      | true => exact h
  | overrun block =>
      rw [Workload.Counted, hpoint] at h
      exact h.elim
  | finished =>
      rw [Workload.Counted, hpoint] at h
      exact h

/-- On any service the workers never give back what they have not got, and in the end
nothing is lent. -/
theorem orderly_of_reachable (hsuits : w.Suits room)
    (h : Reachable (together (workers w threads room) S) s) : Orderly w threads room S s := by
  have hkept := (custody hsuits threads).kept h
  have hfits : Fits w s.1 (S.view s.2).phase := hkept.fits
  have hheld : Ledger (· ∈ (S.view s.2).live) fun t => (s.1 t).holds := hkept.held
  have hlive : ∀ t x rest last, (s.1 t).point = .freeing (x :: rest) last →
      x ∈ (S.view s.2).live := by
    intro t x rest last hpoint
    apply hheld.mem_of (k := t)
    rw [Worker.holds, hpoint]
    exact List.mem_cons_self
  exact
    { held := hheld
      within := fun t block hpoint => by
        have hcounted := (hfits t).2
        rw [Workload.Counted, hpoint] at hcounted
        exact hcounted
      bounded := fun t => counted_bounded hsuits (hfits t).2
      walks := fun t left x rest hpoint => by
        have hcounted := (hfits t).2
        rw [Workload.Counted, hpoint] at hcounted
        rw [Worker.holds, hpoint]
        exact (List.cons_subset.mp hcounted.2).1
      frees := fun t x rest last hpoint => by
        have hmem := hlive t x rest last hpoint
        have hphase : (S.view s.2).phase t = .outside := by
          rw [(hfits t).1, hpoint]
          rfl
        exact ⟨hmem, S.takes _ _ _ hkept.inv hphase hmem⟩
      goes := fun t hbusy hphase => by
        have hpoint : (s.1 t).point.phase = .outside := (hfits t).1.symm.trans hphase
        rcases worker_goes (t := t) hsuits (hfits t).2 hpoint hbusy with
          ⟨choice, k', hown, hne⟩ | ⟨k', hhears, hne⟩ | ⟨x, rest, last, k', hat, hhears, hne⟩
        · refine ⟨.inl (t, choice), (Function.update s.1 t k', s.2), ?_, ?_⟩
          · simp only [stepBoth, workers, hown, Option.map_some]
          · exact update_ne hne
        · obtain ⟨e, d, hexec, hnotice⟩ := S.asks _ _ hkept.inv hphase
          refine ⟨.inr e, (Function.update s.1 t k', d), ?_, ?_⟩
          · apply stepBoth_notice hexec hnotice
            simp only [workers, Notice.thread, hhears, Option.map_some]
          · exact update_ne hne
        · have hmem := hlive t x rest last hat
          obtain ⟨e, d, hexec, hnotice⟩ := S.takes _ _ _ hkept.inv hphase hmem
          refine ⟨.inr e, (Function.update s.1 t k', d), ?_, ?_⟩
          · apply stepBoth_notice hexec hnotice
            simp only [workers, Notice.thread, hhears, Option.map_some]
          · exact update_ne hne
      finished := fun hall => by
        apply List.eq_nil_iff_forall_not_mem.mpr
        intro b hb
        obtain ⟨t, ht⟩ := (hheld.mem b).mp hb
        rw [Worker.holds, hall t] at ht
        cases ht }

/-- The largest class is 1024. -/
theorem classes_le_iff : (∀ bytes ∈ sizeClasses, bytes ≤ room) ↔ 1024 ≤ room := by
  constructor
  · intro h
    exact h 1024 (by decide)
  · intro h bytes hbytes
    have hle : ∀ n ∈ sizeClasses, n ≤ 1024 := by decide
    exact Nat.le_trans (hle bytes hbytes) h

theorem classes_fit_iff (b : Backend) :
    (∀ bytes ∈ sizeClasses, bytes ≤ b.blockSize) ↔ 960 < b.requested :=
  classes_le_iff.trans b.le_blockSize_iff

/-- The benchmarks that fill a block with the bytes they have asked for. -/
def sized (cfg : BenchmarkConfig) : List Workload :=
  [allocBurst cfg, sameThread cfg, localityWalk cfg]

/-- Those that fill it with `random_size` bytes. -/
def classed (cfg : BenchmarkConfig) : List Workload := [allocStorm cfg, randomFree cfg]

theorem sized_suits {cfg : BenchmarkConfig} (hw : w ∈ sized cfg) (hsize : cfg.size ≤ room)
    (hroom : 0 < room) : w.Suits room := by
  simp only [sized, List.mem_cons, List.not_mem_nil, or_false] at hw
  have hfills : ∀ bytes ∈ [cfg.size], bytes ≤ room := fun bytes hbytes => by
    rw [List.mem_singleton.mp hbytes]
    exact hsize
  rcases hw with rfl | rfl | rfl
  · exact ⟨rfl, hfills, hroom⟩
  · exact ⟨rfl, hfills, hroom⟩
  · exact ⟨rfl, hfills, hroom⟩

theorem classed_fills {cfg : BenchmarkConfig} (hw : w ∈ classed cfg) :
    w.fills = sizeClasses := by
  simp only [classed, List.mem_cons, List.not_mem_nil, or_false] at hw
  rcases hw with rfl | rfl <;> rfl

theorem classed_suits {cfg : BenchmarkConfig} (hw : w ∈ classed cfg)
    (hclasses : ∀ bytes ∈ sizeClasses, bytes ≤ room) : w.Suits room := by
  have hlarge : 1024 ≤ room := classes_le_iff.mp hclasses
  refine ⟨?_, (classed_fills hw).symm ▸ hclasses, by omega⟩
  simp only [classed, List.mem_cons, List.not_mem_nil, or_false] at hw
  rcases hw with rfl | rfl <;> rfl

/-- Any of these benchmarks on any of the allocators, made for `cfg.size`; two of them
only for a large `cfg.size`.  No worker writes past the end of a block or frees one twice
or one that it has not got, and when all have finished every block is back. -/
theorem workers_orderly (cfg : BenchmarkConfig) (b : Backend) (hsize : b.requested = cfg.size)
    (w : Workload) (hw : w ∈ sized cfg ∨ w ∈ classed cfg ∧ 960 < cfg.size)
    (s : (Nat → Worker) × b.service.State)
    (h : Reachable (together (workers w cfg.threads b.blockSize) b.service) s) :
    Orderly w cfg.threads b.blockSize b.service s := by
  apply orderly_of_reachable ?_ h
  rcases hw with hw | ⟨hw, hlarge⟩
  · exact sized_suits hw (hsize ▸ b.requested_le) b.blockSize_pos
  · apply classed_suits hw
    rw [classes_fit_iff, hsize]
    exact hlarge

/-- With a smaller `cfg.size` each worker that has got a block may write past its end. -/
theorem overrun_of_small {cfg : BenchmarkConfig} {b : Backend} (hsize : b.requested = cfg.size)
    (hsmall : cfg.size ≤ 960) (hw : w ∈ classed cfg) {block : Nat}
    (hpoint : k.point = .filling block) :
    ∃ choice, w.own b.blockSize choice k = some { k with point := .overrun block } := by
  have hmem : 1024 ∈ w.fills := by
    rw [classed_fills hw]
    decide
  have hover : 1024 > b.blockSize := by
    have hiff := b.le_blockSize_iff
    omega
  refine ⟨⟨[], 1024⟩, ?_⟩
  simp only [Workload.own, hpoint, if_pos hmem, if_pos hover]

def walkConfig : BenchmarkConfig := { size := 48, threads := 1, pool := 1 }

/-- The one worker gets a block, walks over it 128 times and frees it. -/
def walkRun : List (Nat × Choice ⊕ TlFreelistInterleaving.Event) :=
  .inr (.callAlloc 0) :: List.replicate 15 (.inr (.step 0)) ++ .inl (0, ⟨[], 48⟩) ::
    List.replicate 257 (.inl (0, ⟨[], 0⟩)) ++
    [.inl (0, ⟨[4224], 0⟩), .inr (.callDealloc 0 4224), .inr (.step 0), .inr (.step 0),
      .inl (0, ⟨[], 0⟩)]

theorem workers_orderly_walkRun : ∃ s,
    replay (stepBoth (workers (localityWalk walkConfig) 1 64) smallPool.service)
      ((workers (localityWalk walkConfig) 1 64).init, smallPool.service.init) walkRun =
        some s ∧
    (s.1 0).point = .finished ∧
    Orderly (localityWalk walkConfig) 1 64 smallPool.service s := by
  have hrun : (replay (stepBoth (workers (localityWalk walkConfig) 1 64) smallPool.service)
      ((workers (localityWalk walkConfig) 1 64).init, smallPool.service.init) walkRun).any
        (fun s => decide ((s.1 0).point = .finished)) = true := by
    decide +kernel
  obtain ⟨s, hs, hfinished⟩ := (Option.any_eq_true _ _).mp hrun
  refine ⟨s, hs, of_decide_eq_true hfinished, ?_⟩
  exact workers_orderly walkConfig smallPool rfl _ (.inl (by simp [sized])) _
    (Reachable.replay walkRun (.init rfl) hs)

end Runs

end PoolMemalloc.Ports.BenchmarkWorkers
