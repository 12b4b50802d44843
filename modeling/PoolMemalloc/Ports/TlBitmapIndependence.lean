import Mathlib.Data.List.Basic
import Mathlib.Data.List.Perm.Subperm
import PoolMemalloc.Ports.RegionSession

/-!
# Threads of `ThreadLocalBitmapAllocator` do not see each other

At most `max_threads` threads, each freeing only pointers that its own calls of `alloc`
returned.  `assign_region` then gives no region to two threads, in whatever order they
come; the address search of `dealloc` ends in the caller's own region; and every step
reads and writes one region only.  So at each moment the words and the hint of a thread's
region are those of a sequential run of its own calls (`Midway`), whatever the other
threads do.

The machine is that of `PoolMemalloc.Ports.TlBitmapInterleaving`, with a record of the
calls (`observed`).  It need not be told which pointers are live: a thread may also free
a block twice, or pass a null result on to `dealloc`.
-/

namespace PoolMemalloc.Ports.TlBitmapIndependence

open PoolMemalloc.Verified.SizeT
open PoolMemalloc.Verified.WordBitmap
open PoolMemalloc.Verified.Transition
open PoolMemalloc.Ports.BlockArray
open PoolMemalloc.Ports.BitmapRegion
open PoolMemalloc.Ports.TlBitmapAllocator (Allocator Constructed selectRegion assignRegion
  owns tlPool65 tlPool65_constructed)
open PoolMemalloc.Ports.RegionInterleaving (Layout LayoutOk Event Pc Step step_of_exec exec_pc)
open PoolMemalloc.Ports.TlBitmapInterleaving
open PoolMemalloc.Ports.RegionSession

/-- What has happened since the beginning: for each thread its finished calls of `alloc`
and its calls of `dealloc`, and the pointers `alloc` has returned, both the earliest
first; for each region the threads that have written its hint. -/
structure Record where
  calls : Nat → List (Call Nat)
  results : Nat → List Nat
  writers : Nat → List Nat

/-- `dealloc` knows nothing of live pointers, so its argument counts as one. -/
def asked (s : State) : Event → State
  | .callDealloc _ ptr => { s with core := { s.core with live := s.core.live.insert ptr } }
  | _ => s

/-- One step. -/
def exec (a : Allocator) (s : State) (e : Event) : Option State :=
  TlBitmapInterleaving.exec a (asked s e) e

/-- What `alloc` returns in this step, if it returns. -/
def returned (L : Layout) (s : RegionInterleaving.State) (e : Event)
    (s' : RegionInterleaving.State) : List Nat :=
  match e with
  | .ret t =>
      match s.pc t with
      | .done k index => [indexToPtr L.blockSize (L.base k) index]
      | _ => []
  | .loadWord t => if s'.pc t = .idle then [0] else []
  | .settle t => if s'.pc t = .idle then [0] else []
  | _ => []

/-- The calls that a step adds to the record. -/
def made (e : Event) (results : List Nat) : List (Call Nat) :=
  match e with
  | .callDealloc _ ptr => [.dealloc ptr]
  | _ => results.map fun _ => .alloc

def note (a : Allocator) (s : State) (e : Event) (s' : State) (h : Record) : Record where
  calls t :=
    if t = e.thread then
      h.calls t ++ made e (returned (layout a) s.core e s'.core)
    else h.calls t
  results t :=
    if t = e.thread then h.results t ++ returned (layout a) s.core e s'.core
    else h.results t
  writers k :=
    if s'.core.hints k = s.core.hints k then h.writers k else e.thread :: h.writers k

/-- All interleavings of the threads' steps on a newly constructed allocator, recorded. -/
def observed (a : Allocator) : System (State × Record) Event :=
  recorded (fun s => s = ⟨RegionInterleaving.start (layout a), fun _ => sizeMax,
    a.threadCounter⟩) (exec a) ⟨fun _ => [], fun _ => [], fun _ => []⟩ (note a)

/-- The region a thread is working on. -/
def regionOf : Pc → Option Nat
  | .idle => none
  | .loadHint k => some k
  | .loadWord k _ _ => some k
  | .exchange k _ _ _ => some k
  | .settle k _ _ => some k
  | .done k _ => some k
  | .fetchAnd k _ => some k
  | .storeHint k _ => some k

/-- The value a load of a hint returns. -/
def loads : Event → Option Nat
  | .loadHint _ value => some value
  | _ => none

/-- The argument of a call of `dealloc`. -/
def freed : Event → Option Nat
  | .callDealloc _ ptr => some ptr
  | _ => none

/-- A plain member that no other thread has written reads as it was written last. -/
def Coherent (sh : State × Record) (e : Event) : Prop :=
  ∀ value ∈ loads e, ∀ k ∈ regionOf (sh.1.core.pc e.thread),
    (∀ u ∈ sh.2.writers k, u = e.thread) → (sh.1.core.hints k).head? = some value

/-- Only `users` call, and they free only what their own calls of `alloc` returned. -/
def Allowed (users : List Nat) (sh : State × Record) (e : Event) : Prop :=
  e.thread ∈ users ∧ ∀ ptr ∈ freed e, ptr ∈ sh.2.results e.thread

instance (sh : State × Record) (e : Event) : Decidable (Coherent sh e) :=
  inferInstanceAs (Decidable (∀ value ∈ loads e, _))

instance (users : List Nat) (sh : State × Record) (e : Event) :
    Decidable (Allowed users sh e) :=
  inferInstanceAs (Decidable (_ ∧ _))

/-- The runs in which each thread keeps to its own pointers. -/
def runs (a : Allocator) (users : List Nat) : System (State × Record) Event :=
  restrict (observed a) fun sh e => Coherent sh e ∧ Allowed users sh e

/-- The calls of thread `t`, with blocks named by their index in its region. -/
def callsOf (a : Allocator) (sh : State × Record) (t : Nat) : List (Call (Option Nat)) :=
  (sh.2.calls t).map
    (Call.map (blockOf a.blockSize (memoryOf a (sh.1.tRegionIndex t))))

/-- What thread `t` has got from its calls of `alloc`: null, or a block of its region. -/
def outcomesOf (a : Allocator) (sh : State × Record) (t : Nat) : List (Option Nat) :=
  (sh.2.results t).map (blockOf a.blockSize (memoryOf a (sh.1.tRegionIndex t)))

theorem exec_of_live {a : Allocator} {s s' : State} {e : Event}
    (h : TlBitmapInterleaving.exec a s e = some s') : exec a s e = some s' := by
  cases e with
  | callDealloc t ptr =>
      have hcore := exec_core h
      have hlive : ptr ∈ s.core.live := by
        generalize s'.core = core at hcore
        cases step_of_exec hcore with
        | callDealloc _ hlive => exact hlive
        | ignored _ hlive => exact hlive
      rw [exec, asked, List.insert_of_mem hlive]
      exact h
  | _ => exact h

/-- The runs of `TlBitmapInterleaving` are among the runs here. -/
theorem observed_of_steps {a : Allocator} {s : State} (h : Reachable (steps a) s) :
    ∃ hist, Reachable (observed a) (s, hist) := by
  have hsimulated := Reachable.simulate (T := observed a) (fun s sh => sh.1 = s)
    (fun s hs => ⟨(s, ⟨fun _ => [], fun _ => [], fun _ => []⟩), ⟨hs, rfl⟩, rfl⟩)
    (fun s sh e s' hsh hstep => by
      subst hsh
      refine ⟨e, (s', note a sh.1 e s' sh.2), ?_, rfl⟩
      have hexec : exec a sh.1 e = some s' := exec_of_live hstep
      show record (exec a) (note a) sh e = some (s', note a sh.1 e s' sh.2)
      rw [record, hexec, Option.map_some]) h
  obtain ⟨⟨s, hist⟩, hreach, rfl⟩ := hsimulated
  exact ⟨hist, hreach⟩

section Asked

variable (s : State) (e : Event)

@[simp] theorem asked_bitmap : (asked s e).core.bitmap = s.core.bitmap := by
  cases e <;> rfl

@[simp] theorem asked_hints : (asked s e).core.hints = s.core.hints := by
  cases e <;> rfl

@[simp] theorem asked_pc : (asked s e).core.pc = s.core.pc := by
  cases e <;> rfl

end Asked

/-! ## One region under its own thread's steps -/

/-- The words and the values written to the hint are those of `r`. -/
structure Mirrors (L : Layout) (r : Region) (words : List Word) (written : List Nat) :
    Prop where
  bitmap : words = r.bitmap
  hint : written.head? = some r.hint
  blockCount : r.blockCount = L.blockCount
  wordCount : r.wordCount = L.wordCount

/-- `r` is region `k` after the calls recorded so far of a thread that is at a program
counter; the words and the hint are what the call on its way has made of it. -/
def Midway (L : Layout) (k : Nat) (r : Region) (words : List Word) (written : List Nat) :
    Pc → Prop
  | .idle => Mirrors L r words written
  | .loadHint j => j = k ∧ Mirrors L r words written
  | .loadWord j start probe => j = k ∧ Mirrors L r words written ∧
      allocIndex r = allocLoop start (L.wordCount - probe) probe r
  | .exchange j start probe word => j = k ∧ Mirrors L r words written ∧
      word = wordAt r.bitmap (probeIndex L.wordCount start probe) ∧ word ≠ FULL ∧
      allocIndex r = claim r (probeIndex L.wordCount start probe)
  | .settle j wordIndex freeBit => j = k ∧ ∃ q, Mirrors L q words written ∧
      allocIndex r = settle q wordIndex freeBit
  | .done j index => j = k ∧ (allocIndex r).1 = some index ∧
      Mirrors L (allocIndex r).2 words written
  | .fetchAnd j ptr => j = k ∧ ∃ q, Mirrors L q words written ∧
      r = deallocIndex q (ptrToIndex L.blockSize (L.base k) ptr)
  | .storeHint j wordIndex => j = k ∧ Mirrors L r words [wordIndex]

section Region

variable {L : Layout} {k : Nat} {r : Region} {words : List Word} {written : List Nat}
variable {s s' : RegionInterleaving.State} {e : Event} {t : Nat}

theorem Midway.regionOf {pc : Pc} (h : Midway L k r words written pc) {j : Nat}
    (hj : TlBitmapIndependence.regionOf pc = some j) : j = k := by
  cases pc with
  | idle => cases hj
  | _ =>
      cases hj
      exact h.1

/-- A step changes no region but the one its thread works on. -/
theorem exec_frame (hstep : RegionInterleaving.exec L s e = some s')
    (hother : ∀ j, regionOf (s.pc e.thread) = some j → j ≠ k) :
    s'.bitmap k = s.bitmap k ∧ s'.hints k = s.hints k := by
  have hword : ∀ j w word, j ≠ k → (s.writeWord j w word).bitmap k = s.bitmap k :=
    fun j w word hj => Function.update_of_ne (Ne.symm hj) _ _
  have hhint : ∀ j value, j ≠ k → (s.writeHint j value).hints k = s.hints k :=
    fun j value hj => Function.update_of_ne (Ne.symm hj) _ _
  cases step_of_exec hstep with
  | claimed hpc => exact ⟨hword _ _ _ (hother _ (by rw [Event.thread, hpc]; rfl)), rfl⟩
  | undone hpc => exact ⟨hword _ _ _ (hother _ (by rw [Event.thread, hpc]; rfl)), rfl⟩
  | fetchAnd hpc => exact ⟨hword _ _ _ (hother _ (by rw [Event.thread, hpc]; rfl)), rfl⟩
  | kept hpc => exact ⟨rfl, hhint _ _ (hother _ (by rw [Event.thread, hpc]; rfl))⟩
  | storeHint hpc => exact ⟨rfl, hhint _ _ (hother _ (by rw [Event.thread, hpc]; rfl))⟩
  | _ => exact ⟨rfl, rfl⟩

theorem Mirrors.writeWord (h : Mirrors L r (s.bitmap k) (s.hints k)) (wordIndex : Nat)
    (word : Word) :
    Mirrors L { r with bitmap := r.bitmap.set wordIndex word }
      ((s.writeWord k wordIndex word).bitmap k) (s.hints k) where
  bitmap := by simp [RegionInterleaving.State.writeWord, h.bitmap]
  hint := h.hint
  blockCount := h.blockCount
  wordCount := h.wordCount

theorem Mirrors.writeHint (h : Mirrors L r (s.bitmap k) written) (value : Nat) :
    Mirrors L { r with hint := value } (s.bitmap k)
      ((s.writeHint k value).hints k) where
  bitmap := h.bitmap
  hint := by simp [RegionInterleaving.State.writeHint]
  blockCount := h.blockCount
  wordCount := h.wordCount

/-- A step of the thread goes on with its call, or the call returns as it does when made
alone. -/
def Carried (L : Layout) (k : Nat) (r : Region) (s : RegionInterleaving.State) (e : Event)
    (s' : RegionInterleaving.State) : Prop :=
  (returned L s e s' = [] ∧ Midway L k r (s'.bitmap k) (s'.hints k) (s'.pc e.thread)) ∨
    (returned L s e s' = [ptrOf L.blockSize (L.base k) (allocIndex r).1] ∧
      Midway L k (allocIndex r).2 (s'.bitmap k) (s'.hints k) (s'.pc e.thread))

/-- Nobody else has written the hint, so the load returns it. -/
theorem Midway.loadHint {value : Nat}
    (h : Midway L k r (s.bitmap k) (s.hints k) (s.pc t))
    (hread : (s.hints k).head? = some value)
    (hstep : RegionInterleaving.exec L s (.loadHint t value) = some s') :
    Carried L k r s (.loadHint t value) s' := by
  cases step_of_exec hstep with
  | loadHint hpc _ =>
      rw [hpc] at h
      obtain ⟨rfl, hmirrors⟩ := h
      have hvalue : value = r.hint := by
        rw [hmirrors.hint] at hread
        exact (Option.some.inj hread).symm
      refine Or.inl ⟨rfl, ?_⟩
      rw [Event.thread, RegionInterleaving.State.goto_pc]
      refine ⟨rfl, hmirrors, ?_⟩
      rw [hvalue, Nat.sub_zero, allocIndex, hmirrors.wordCount]

theorem Midway.loadWord (h : Midway L k r (s.bitmap k) (s.hints k) (s.pc t))
    (hstep : RegionInterleaving.exec L s (.loadWord t) = some s') :
    Carried L k r s (.loadWord t) s' := by
  cases step_of_exec hstep with
  | @full _ _ start probe hpc hprobe hword =>
      rw [hpc] at h
      obtain ⟨rfl, hmirrors, halloc⟩ := h
      rw [hmirrors.bitmap, ← hmirrors.wordCount] at hword
      rw [allocLoop_of_full hprobe hword] at halloc
      refine Or.inl ⟨by simp [returned], ?_⟩
      rw [Event.thread, RegionInterleaving.State.goto_pc]
      exact ⟨rfl, hmirrors, halloc⟩
  | @loaded _ _ start probe hpc hprobe hword =>
      rw [hpc] at h
      obtain ⟨rfl, hmirrors, halloc⟩ := h
      rw [hmirrors.bitmap] at hword
      rw [allocLoop_of_open hprobe (by rw [hmirrors.wordCount]; exact hword),
        hmirrors.wordCount] at halloc
      refine Or.inl ⟨by simp [returned], ?_⟩
      rw [Event.thread, RegionInterleaving.State.goto_pc]
      refine ⟨rfl, hmirrors, ?_, ?_, halloc⟩
      · rw [hmirrors.bitmap]
      · rw [hmirrors.bitmap]
        exact hword
  | exhausted hpc hprobe =>
      rw [hpc] at h
      obtain ⟨rfl, hmirrors, halloc⟩ := h
      rw [Nat.sub_eq_zero_of_le hprobe, allocLoop] at halloc
      refine Or.inr ⟨by simp [returned, halloc, ptrOf], ?_⟩
      rw [Event.thread, RegionInterleaving.State.goto_pc, halloc]
      exact hmirrors

/-- An exchange can only fail spuriously: the word is still as it was loaded. -/
theorem Midway.exchange {spurious : Bool}
    (h : Midway L k r (s.bitmap k) (s.hints k) (s.pc t))
    (hstep : RegionInterleaving.exec L s (.exchange t spurious) = some s') :
    Carried L k r s (.exchange t spurious) s' := by
  cases step_of_exec hstep with
  | claimed hpc _ =>
      rw [hpc] at h
      obtain ⟨rfl, hmirrors, hloaded, -, halloc⟩ := h
      refine Or.inl ⟨rfl, ?_⟩
      rw [Event.thread, RegionInterleaving.State.goto_pc]
      refine ⟨rfl, _, hmirrors.writeWord _ _, halloc.trans ?_⟩
      rw [claim, ← hloaded]
  | overtaken hpc hword _ =>
      rw [hpc] at h
      obtain ⟨rfl, hmirrors, hloaded, hopen, -⟩ := h
      rw [hmirrors.bitmap, ← hloaded] at hword
      exact (hopen hword).elim
  | reloaded hpc hword =>
      rw [hpc] at h
      obtain ⟨rfl, hmirrors, -, -, halloc⟩ := h
      refine Or.inl ⟨rfl, ?_⟩
      rw [Event.thread, RegionInterleaving.State.goto_pc]
      exact ⟨rfl, hmirrors, by rw [hmirrors.bitmap], hword, halloc⟩

theorem Midway.settle (h : Midway L k r (s.bitmap k) (s.hints k) (s.pc t))
    (hstep : RegionInterleaving.exec L s (.settle t) = some s') :
    Carried L k r s (.settle t) s' := by
  cases step_of_exec hstep with
  | undone hpc hpad =>
      rw [hpc] at h
      obtain ⟨rfl, q, hmirrors, halloc⟩ := h
      rw [BitmapRegion.settle, if_pos (by rw [hmirrors.blockCount]; exact hpad)] at halloc
      refine Or.inr ⟨by simp [returned, halloc, ptrOf], ?_⟩
      rw [Event.thread, RegionInterleaving.State.goto_pc, halloc, hmirrors.bitmap]
      exact hmirrors.writeWord _ _
  | kept hpc hin =>
      rw [hpc] at h
      obtain ⟨rfl, q, hmirrors, halloc⟩ := h
      rw [BitmapRegion.settle, if_neg (by rw [hmirrors.blockCount]; omega)] at halloc
      refine Or.inl ⟨by simp [returned], ?_⟩
      rw [Event.thread, RegionInterleaving.State.goto_pc]
      refine ⟨rfl, by rw [halloc], ?_⟩
      rw [halloc]
      exact hmirrors.writeHint _

theorem Midway.ret (h : Midway L k r (s.bitmap k) (s.hints k) (s.pc t))
    (hstep : RegionInterleaving.exec L s (.ret t) = some s') :
    Carried L k r s (.ret t) s' := by
  cases step_of_exec hstep with
  | ret hpc =>
      rw [hpc] at h
      obtain ⟨rfl, hindex, hmirrors⟩ := h
      refine Or.inr ⟨?_, ?_⟩
      · rw [returned, hpc, hindex]
        rfl
      · have hidle := RegionInterleaving.State.goto_pc s t .idle
        simp only [Event.thread, hidle]
        exact hmirrors

theorem Midway.fetchAnd (h : Midway L k r (s.bitmap k) (s.hints k) (s.pc t))
    (hstep : RegionInterleaving.exec L s (.fetchAnd t) = some s') :
    Carried L k r s (.fetchAnd t) s' := by
  cases step_of_exec hstep with
  | fetchAnd hpc =>
      rw [hpc] at h
      obtain ⟨rfl, q, hmirrors, rfl⟩ := h
      refine Or.inl ⟨rfl, ?_⟩
      rw [Event.thread, RegionInterleaving.State.goto_pc, hmirrors.bitmap]
      exact ⟨rfl, (hmirrors.writeWord _ _).bitmap, rfl, hmirrors.blockCount,
        hmirrors.wordCount⟩

theorem Midway.storeHint (h : Midway L k r (s.bitmap k) (s.hints k) (s.pc t))
    (hstep : RegionInterleaving.exec L s (.storeHint t) = some s') :
    Carried L k r s (.storeHint t) s' := by
  cases step_of_exec hstep with
  | storeHint hpc =>
      rw [hpc] at h
      obtain ⟨rfl, hmirrors⟩ := h
      refine Or.inl ⟨rfl, ?_⟩
      rw [Event.thread, RegionInterleaving.State.goto_pc]
      have hhint := Option.some.inj hmirrors.hint
      exact hhint ▸ hmirrors.writeHint _

/-- What one step of the thread does to its region. -/
theorem Midway.step (h : Midway L k r (s.bitmap k) (s.hints k) (s.pc e.thread))
    (hstep : RegionInterleaving.exec L s e = some s') (hbusy : s.pc e.thread ≠ .idle)
    (hread : ∀ t value, e = .loadHint t value → (s.hints k).head? = some value) :
    Carried L k r s e s' := by
  cases e with
  | callAlloc t j =>
      cases step_of_exec hstep with
      | callAlloc hpc => exact (hbusy hpc).elim
  | loadHint t value => exact h.loadHint (hread t value rfl) hstep
  | loadWord t => exact h.loadWord hstep
  | exchange t spurious => exact h.exchange hstep
  | settle t => exact h.settle hstep
  | ret t => exact h.ret hstep
  | callDealloc t ptr =>
      cases step_of_exec hstep with
      | callDealloc hpc => exact (hbusy hpc).elim
      | ignored hpc => exact (hbusy hpc).elim
  | fetchAnd t => exact h.fetchAnd hstep
  | storeHint t => exact h.storeHint hstep

/-- An idle thread can only make a call. -/
theorem calls_of_idle (hstep : RegionInterleaving.exec L s e = some s')
    (hidle : s.pc e.thread = .idle) :
    (∃ t j, e = .callAlloc t j) ∨ ∃ t ptr, e = .callDealloc t ptr := by
  cases step_of_exec hstep with
  | callAlloc => exact Or.inl ⟨_, _, rfl⟩
  | callDealloc => exact Or.inr ⟨_, _, rfl⟩
  | ignored => exact Or.inr ⟨_, _, rfl⟩
  | _ => simp_all [Event.thread]

end Region

/-! ## The calls of one thread -/

/-- Region `k` after the recorded calls of its thread, but for its address. -/
def regionAfter (L : Layout) (k : Nat) (calls : List (Call Nat)) : Region :=
  (performAll (fresh 0 L.blockCount)
    (calls.map (Call.map (blockOf L.blockSize (L.base k))))).2

/-- The recorded calls and results of a thread on region `k` are those of a sequential
run, and what the thread is doing now goes on from there. -/
structure Session (L : Layout) (k : Nat) (calls : List (Call Nat)) (results : List Nat)
    (words : List Word) (written : List Nat) (pc : Pc) : Prop where
  blocks : ∀ ptr ∈ results, ∃ block : Option Nat,
    ptr = ptrOf L.blockSize (L.base k) block ∧ ∀ i, block = some i → i < L.blockCount
  frees : ∀ ptr, Call.dealloc ptr ∈ calls → ptr ∈ results
  seen : results.map (blockOf L.blockSize (L.base k)) =
    (performAll (fresh 0 L.blockCount)
      (calls.map (Call.map (blockOf L.blockSize (L.base k))))).1
  midway : Midway L k (regionAfter L k calls) words written pc

section Session

variable {L : Layout} {k : Nat} {calls : List (Call Nat)} {results : List Nat}
variable {s s' : RegionInterleaving.State} {e : Event} {t : Nat}

/-- Before its first call a thread's region is as the constructor left it. -/
theorem session_nil (L : Layout) (k : Nat) :
    Session L k [] [] (List.replicate L.wordCount 0) [0] .idle where
  blocks := by simp
  frees := by simp
  seen := rfl
  midway := ⟨rfl, rfl, rfl, rfl⟩

/-- One more call in the record is one more call in the sequential run. -/
theorem Session.concat {words words' : List Word} {written written' : List Nat}
    {pc pc' : Pc} (h : Session L k calls results words written pc) {call : Call Nat}
    {answers : List Nat}
    (hblocks : ∀ ptr ∈ answers, ∃ block : Option Nat,
      ptr = ptrOf L.blockSize (L.base k) block ∧ ∀ i, block = some i → i < L.blockCount)
    (hfrees : ∀ ptr, call = .dealloc ptr → ptr ∈ results)
    (hanswers : answers.map (blockOf L.blockSize (L.base k)) =
      (perform (regionAfter L k calls)
        (call.map (blockOf L.blockSize (L.base k)))).1)
    (hmidway : Midway L k (perform (regionAfter L k calls)
      (call.map (blockOf L.blockSize (L.base k)))).2 words' written' pc') :
    Session L k (calls ++ [call]) (results ++ answers) words' written' pc' := by
  constructor
  · intro ptr hptr
    rcases List.mem_append.mp hptr with hold | hnew
    · exact h.blocks ptr hold
    · exact hblocks ptr hnew
  · intro ptr hptr
    rcases List.mem_append.mp hptr with hold | hnew
    · exact List.mem_append_left _ (h.frees ptr hold)
    · exact List.mem_append_left _ (hfrees ptr (List.mem_singleton.mp hnew).symm)
  · rw [List.map_append, List.map_append, List.map_singleton, performAll_concat, h.seen,
      hanswers]
    rfl
  · rw [regionAfter, List.map_append, List.map_singleton, performAll_concat]
    exact hmidway

/-- A step on the way of a call, or the one by which an `alloc` returns. -/
theorem Session.step (hplaced : Placed L.blockSize (L.base k) L.blockCount)
    (h : Session L k calls results (s.bitmap k) (s.hints k) (s.pc e.thread))
    (hstep : RegionInterleaving.exec L s e = some s') (hbusy : s.pc e.thread ≠ .idle)
    (hread : ∀ t value, e = .loadHint t value → (s.hints k).head? = some value) :
    Session L k (calls ++ made e (returned L s e s')) (results ++ returned L s e s')
      (s'.bitmap k) (s'.hints k) (s'.pc e.thread) := by
  have hmade : made e (returned L s e s') = (returned L s e s').map fun _ => .alloc := by
    cases step_of_exec hstep with
    | callDealloc hpc => exact (hbusy hpc).elim
    | ignored hpc => exact (hbusy hpc).elim
    | _ => rfl
  rw [hmade]
  rcases h.midway.step hstep hbusy hread with ⟨hnothing, hmidway⟩ | ⟨hresult, hmidway⟩
  · rw [hnothing, List.map_nil, List.append_nil, List.append_nil]
    exact ⟨h.blocks, h.frees, h.seen, hmidway⟩
  · have hrange : ∀ i, (allocIndex (regionAfter L k calls)).1 = some i →
        i < L.blockCount := by
      intro i hi
      have hlt := allocIndex_lt hi
      rwa [regionAfter, performAll_counts] at hlt
    rw [hresult, List.map_singleton]
    apply h.concat
    · intro ptr hptr
      exact ⟨_, List.mem_singleton.mp hptr, hrange⟩
    · intro ptr hcall
      cases hcall
    · rw [List.map_singleton, blockOf_ptrOf hplaced hrange]
      rfl
    · exact hmidway

theorem Session.callAlloc
    (h : Session L k calls results (s.bitmap k) (s.hints k) (s.pc t))
    (hstep : RegionInterleaving.exec L s (.callAlloc t k) = some s') :
    Session L k calls results (s'.bitmap k) (s'.hints k) (s'.pc t) := by
  cases step_of_exec hstep with
  | callAlloc hpc _ =>
      have hmidway := h.midway
      rw [hpc] at hmidway
      refine ⟨h.blocks, h.frees, h.seen, ?_⟩
      simp only [RegionInterleaving.State.goto, Function.update_self]
      exact ⟨rfl, hmidway⟩

theorem Session.freed {words words' : List Word} {written written' : List Nat} {pc pc' : Pc}
    (h : Session L k calls results words written pc) {ptr : Nat} (hptr : ptr ∈ results)
    (hmidway : Midway L k (perform (regionAfter L k calls)
      (.dealloc (blockOf L.blockSize (L.base k) ptr))).2 words' written' pc') :
    Session L k (calls ++ [.dealloc ptr]) results words' written' pc' := by
  have hconcat : Session L k (calls ++ [.dealloc ptr]) (results ++ []) words' written' pc' := by
    apply h.concat
    · intro q hq
      cases hq
    · intro q hq
      exact Call.dealloc.inj hq ▸ hptr
    · cases hblock : blockOf L.blockSize (L.base k) ptr <;> simp [Call.map, perform, hblock]
    · exact hmidway
  rwa [List.append_nil] at hconcat

/-- `dealloc` of a pointer the thread has got goes to the thread's own region, or
nowhere if the pointer is null. -/
theorem Session.callDealloc (hL : LayoutOk L) (hnull : L.locate 0 = none)
    (hk : k < L.regionCount)
    (h : Session L k calls results (s.bitmap k) (s.hints k) (s.pc t)) {ptr : Nat}
    (hptr : ptr ∈ results)
    (hstep : RegionInterleaving.exec L s (.callDealloc t ptr) = some s') :
    Session L k (calls ++ [.dealloc ptr]) results (s'.bitmap k) (s'.hints k) (s'.pc t) := by
  have hplaced := hL.arena.placed k hk
  have hmidway := h.midway
  obtain ⟨block, rfl, hrange⟩ := h.blocks ptr hptr
  apply h.freed hptr
  rw [blockOf_ptrOf hplaced hrange]
  cases block with
  | none =>
      cases step_of_exec hstep with
      | callDealloc _ _ hlocate =>
          rw [ptrOf, Option.elim_none, hnull] at hlocate
          cases hlocate
      | ignored hpc _ _ =>
          rw [hpc] at hmidway
          simp only [hpc]
          exact hmidway
  | some i =>
      have hi := hrange i rfl
      have hfound : L.locate (ptrOf L.blockSize (L.base k) (some i)) = some k :=
        hL.locate k i hk hi
      cases step_of_exec hstep with
      | callDealloc hpc _ hlocate =>
          obtain rfl := Option.some.inj (hfound.symm.trans hlocate)
          rw [hpc] at hmidway
          simp only [RegionInterleaving.State.goto, Function.update_self]
          refine ⟨rfl, _, hmidway, ?_⟩
          rw [ptrOf, Option.elim_some, hplaced.ptrToIndex_indexToPtr hi, perform]
      | ignored _ _ hlocate =>
          rw [hfound] at hlocate
          cases hlocate

end Session

/-! ## No region for two threads -/

/-- The threads that have called `alloc` are `order`, in the order of their first calls;
each has the region of its place in it. -/
def Allotted (users : List Nat) (tRegionIndex : Nat → Nat) (threadCounter : Nat) : Prop :=
  ∃ order : List Nat, order.Nodup ∧ order ⊆ users ∧ threadCounter = order.length ∧
    ∀ t, tRegionIndex t = if t ∈ order then order.idxOf t else sizeMax

section Allotted

variable {users : List Nat} {tRegionIndex : Nat → Nat} {threadCounter : Nat}

theorem allotted_nil (users : List Nat) : Allotted users (fun _ => sizeMax) 0 :=
  ⟨[], List.nodup_nil, List.nil_subset users, rfl, fun _ => rfl⟩

theorem Allotted.counter_le (h : Allotted users tRegionIndex threadCounter) :
    threadCounter ≤ users.length := by
  obtain ⟨order, hnodup, hsub, rfl, -⟩ := h
  exact (List.subperm_of_subset hnodup hsub).length_le

theorem Allotted.lt (h : Allotted users tRegionIndex threadCounter) {t : Nat}
    (ht : tRegionIndex t ≠ sizeMax) : tRegionIndex t < threadCounter := by
  obtain ⟨order, -, -, rfl, hindex⟩ := h
  rw [hindex] at ht ⊢
  split at ht
  · next hmem =>
      rw [if_pos hmem]
      exact List.idxOf_lt_length_iff.mpr hmem
  · exact (ht rfl).elim

/-- Two threads with one index are the same thread. -/
theorem Allotted.injective (h : Allotted users tRegionIndex threadCounter) {t u : Nat}
    (hcounter : threadCounter ≤ sizeMax) (ht : tRegionIndex t ≠ sizeMax)
    (heq : tRegionIndex u = tRegionIndex t) : u = t := by
  obtain ⟨order, -, -, rfl, hindex⟩ := h
  have hmem : ∀ v, tRegionIndex v ≠ sizeMax → v ∈ order ∧ tRegionIndex v = order.idxOf v := by
    intro v hv
    rw [hindex] at hv ⊢
    split at hv
    · next hv' => exact ⟨hv', if_pos hv'⟩
    · exact (hv rfl).elim
  obtain ⟨htmem, htindex⟩ := hmem t ht
  obtain ⟨humem, huindex⟩ := hmem u (heq ▸ ht)
  exact (List.idxOf_inj humem).mp (by omega)

/-- The next thread gets a region nobody has. -/
theorem Allotted.assign (h : Allotted users tRegionIndex threadCounter) {t : Nat}
    (huser : t ∈ users) (hnew : tRegionIndex t = sizeMax) (hlen : users.length ≤ sizeMax) :
    threadCounter < users.length ∧ (∀ u, tRegionIndex u ≠ threadCounter) ∧
      Allotted users (Function.update tRegionIndex t threadCounter) (threadCounter + 1) := by
  have hle := h.counter_le
  have hbelow : ∀ u, tRegionIndex u ≠ sizeMax → tRegionIndex u < threadCounter :=
    fun u hu => h.lt hu
  obtain ⟨order, hnodup, hsub, rfl, hindex⟩ := h
  have hfresh : t ∉ order := by
    intro hmem
    have hlt := List.idxOf_lt_length_iff.mpr hmem
    rw [hindex, if_pos hmem] at hnew
    omega
  have hmore : order.length + 1 ≤ users.length := by
    have hcons := (List.subperm_of_subset (List.nodup_cons.mpr ⟨hfresh, hnodup⟩)
      (List.cons_subset.mpr ⟨huser, hsub⟩)).length_le
    simpa using hcons
  refine ⟨by omega, fun u hu => ?_, order ++ [t], ?_, ?_, by simp, fun u => ?_⟩
  · have hlt := hbelow u (by omega)
    omega
  · simpa [List.nodup_append] using ⟨hnodup, fun u hu heq => hfresh (heq ▸ hu)⟩
  · simpa using ⟨hsub, huser⟩
  · by_cases hu : u = t
    · subst hu
      rw [Function.update_self, if_pos (by simp), List.idxOf_append_of_notMem hfresh]
      simp
    · rw [Function.update_of_ne hu, hindex]
      by_cases hmem : u ∈ order
      · rw [if_pos hmem, if_pos (List.mem_append_left _ hmem),
          List.idxOf_append_of_mem hmem]
      · rw [if_neg hmem, if_neg (by simp [hmem, hu])]

end Allotted

/-! ## The invariant -/

/-- Every thread with a region is in a session on it; the other regions are as the
constructor left them. -/
structure Inv (a : Allocator) (users : List Nat) (sh : State × Record) : Prop where
  allotted : Allotted users sh.1.tRegionIndex sh.1.threadCounter
  unassigned : ∀ t, sh.1.tRegionIndex t = sizeMax →
    sh.1.core.pc t = .idle ∧ sh.2.calls t = [] ∧ sh.2.results t = []
  session : ∀ t, sh.1.tRegionIndex t ≠ sizeMax →
    Session (layout a) (sh.1.tRegionIndex t) (sh.2.calls t) (sh.2.results t)
      (sh.1.core.bitmap (sh.1.tRegionIndex t)) (sh.1.core.hints (sh.1.tRegionIndex t))
      (sh.1.core.pc t)
  untouched : ∀ k, k ≠ sizeMax → (∀ t, sh.1.tRegionIndex t ≠ k) →
    sh.1.core.bitmap k = List.replicate (layout a).wordCount 0 ∧ sh.1.core.hints k = [0]
  writers : ∀ k, ∀ u ∈ sh.2.writers k, sh.1.tRegionIndex u = k ∧ k ≠ sizeMax

section Steps

variable {a : Allocator} {users : List Nat} {s s' : State} {hist : Record} {e : Event}

theorem inv_start (a : Allocator) (users : List Nat) (hcounter : a.threadCounter = 0) :
    Inv a users (⟨RegionInterleaving.start (layout a), fun _ => sizeMax, a.threadCounter⟩,
      ⟨fun _ => [], fun _ => [], fun _ => []⟩) where
  allotted := by
    rw [hcounter]
    exact allotted_nil users
  unassigned _ _ := ⟨rfl, rfl, rfl⟩
  session _ ht := (ht rfl).elim
  untouched _ _ _ := ⟨rfl, rfl⟩
  writers k u hu := by cases hu

/-- A step moves no other thread and changes no other region. -/
theorem exec_elsewhere (hstep : exec a s e = some s') {k : Nat}
    (hregion : ∀ j, regionOf (s.core.pc e.thread) = some j → j = k) :
    (∀ u, u ≠ e.thread → s'.core.pc u = s.core.pc u) ∧
      ∀ j, j ≠ k → s'.core.bitmap j = s.core.bitmap j ∧ s'.core.hints j = s.core.hints j := by
  have hcore := exec_core hstep
  constructor
  · intro u hu
    rw [exec_pc hcore hu, asked_pc]
  · intro j hj
    have hother : ∀ i, regionOf ((asked s e).core.pc e.thread) = some i → i ≠ j := by
      intro i hi heq
      rw [asked_pc] at hi
      exact hj (heq ▸ hregion i hi)
    have hframe := exec_frame hcore hother
    rwa [asked_bitmap, asked_hints] at hframe

theorem mem_writers_note {j u : Nat} (hu : u ∈ (note a s e s' hist).writers j) :
    u ∈ hist.writers j ∨ (u = e.thread ∧ s'.core.hints j ≠ s.core.hints j) := by
  simp only [note] at hu
  split at hu
  · exact Or.inl hu
  · next hchanged =>
      rcases List.mem_cons.mp hu with rfl | hold
      · exact Or.inr ⟨rfl, hchanged⟩
      · exact Or.inl hold

/-- A step of a thread that has, or has just got, region `k` keeps the invariant if it
carries the thread's own session on: no other thread's region changes. -/
theorem Inv.move (h : Inv a users (s, hist)) (hlen : users.length ≤ sizeMax) {k : Nat}
    (hstep : exec a s e = some s')
    (hallotted : Allotted users s'.tRegionIndex s'.threadCounter)
    (hindex : s'.tRegionIndex = Function.update s.tRegionIndex e.thread k)
    (hassigned : k ≠ sizeMax)
    (hbefore : s.tRegionIndex e.thread = sizeMax ∨ s.tRegionIndex e.thread = k)
    (hregion : ∀ j, regionOf (s.core.pc e.thread) = some j → j = k)
    (hsession : Session (layout a) k
      (hist.calls e.thread ++ made e (returned (layout a) s.core e s'.core))
      (hist.results e.thread ++ returned (layout a) s.core e s'.core)
      (s'.core.bitmap k) (s'.core.hints k) (s'.core.pc e.thread)) :
    Inv a users (s', note a s e s' hist) := by
  have hself : s'.tRegionIndex e.thread = k := by rw [hindex, Function.update_self]
  have hkept : ∀ u, u ≠ e.thread → s'.tRegionIndex u = s.tRegionIndex u := by
    intro u hu
    rw [hindex, Function.update_of_ne hu]
  obtain ⟨hpc, hframe⟩ := exec_elsewhere hstep hregion
  have hcounter : s'.threadCounter ≤ sizeMax := Nat.le_trans hallotted.counter_le hlen
  refine ⟨hallotted, fun u hu => ?_, fun u hu => ?_, fun j hj hnobody => ?_,
    fun j u hu => ?_⟩
  · have hne : u ≠ e.thread := by
      rintro rfl
      exact hassigned (hself.symm.trans hu)
    simp only [note, if_neg hne, hpc u hne]
    exact h.unassigned u (hkept u hne ▸ hu)
  · by_cases hne : u = e.thread
    · subst hne
      simp only [note, hself]
      exact hsession
    · have hother : s'.tRegionIndex u ≠ k := fun heq =>
        hne (hallotted.injective hcounter (hself ▸ hassigned) (heq.trans hself.symm))
      obtain ⟨hwords, hhints⟩ := hframe _ hother
      simp only [note, if_neg hne, hpc u hne, hwords, hhints]
      rw [hkept u hne] at hu ⊢
      exact h.session u hu
  · have hjk : j ≠ k := fun heq => hnobody e.thread (hself.trans heq.symm)
    have hold : ∀ u, s.tRegionIndex u ≠ j := by
      intro u heq
      by_cases hne : u = e.thread
      · subst hne
        rcases hbefore with hnone | hsame
        · exact hj (heq.symm.trans hnone)
        · exact hjk (heq.symm.trans hsame)
      · exact hnobody u ((hkept u hne).trans heq)
    obtain ⟨hwords, hhints⟩ := hframe j hjk
    rw [hwords, hhints]
    exact h.untouched j hj hold
  · rcases mem_writers_note hu with hold | ⟨rfl, hchanged⟩
    · obtain ⟨hindexed, hj⟩ := h.writers j u hold
      by_cases hne : u = e.thread
      · subst hne
        rcases hbefore with hnone | hsame
        · exact (hj (hindexed.symm.trans hnone)).elim
        · exact ⟨hself.trans (hsame.symm.trans hindexed), hj⟩
      · exact ⟨(hkept u hne).trans hindexed, hj⟩
    · obtain rfl : j = k := Decidable.byContradiction fun hj => hchanged (hframe j hj).2
      exact ⟨hself, hassigned⟩

/-- Only a call of `alloc` gives a region to a thread. -/
theorem exec_index_eq (hstep : exec a s e = some s') (hcall : ∀ t k, e ≠ .callAlloc t k) :
    s'.tRegionIndex = s.tRegionIndex ∧ s'.threadCounter = s.threadCounter := by
  cases e with
  | callAlloc t k => exact (hcall t k rfl).elim
  | _ =>
      simp only [exec, TlBitmapInterleaving.exec, Option.map_eq_some_iff] at hstep
      obtain ⟨core, -, rfl⟩ := hstep
      exact ⟨rfl, rfl⟩

/-- A first call of `alloc` takes the next region, a later one the thread's own. -/
theorem Allotted.callAlloc (h : Allotted users s.tRegionIndex s.threadCounter)
    (hlen : users.length ≤ a.maxThreads) (hmax : a.maxThreads < 2 ^ 64) {t k : Nat}
    (huser : t ∈ users) (hstep : exec a s (.callAlloc t k) = some s') :
    Allotted users s'.tRegionIndex s'.threadCounter ∧
      s'.tRegionIndex = Function.update s.tRegionIndex t k ∧ k ≠ sizeMax ∧
      (s.tRegionIndex t = sizeMax ∧ (∀ u, s.tRegionIndex u ≠ k) ∨
        s.tRegionIndex t = k) := by
  have hexec : TlBitmapInterleaving.exec a s (.callAlloc t k) = some s' := hstep
  simp only [TlBitmapInterleaving.exec, Option.ite_none_right_eq_some,
    Option.map_eq_some_iff] at hexec
  obtain ⟨hselected, core, -, rfl⟩ := hexec
  by_cases hnew : s.tRegionIndex t = sizeMax
  · obtain ⟨hlt, hfree, hassign⟩ := h.assign huser hnew (by unfold sizeMax; omega)
    have hk : k = s.threadCounter := by
      rw [hselected, selected, selectRegion, if_pos hnew, assignRegion]
      exact Nat.mod_eq_of_lt (Nat.lt_of_lt_of_le hlt hlen)
    have hcounter : (selected a s t).2.threadCounter = s.threadCounter + 1 := by
      have hnowrap : wrap (s.threadCounter + 1) = s.threadCounter + 1 :=
        wrap_of_lt (by omega)
      rw [selected, selectRegion, if_pos hnew, assignRegion]
      exact hnowrap
    subst hk
    refine ⟨?_, rfl, ?_, Or.inl ⟨hnew, hfree⟩⟩
    · simp only [hcounter]
      exact hassign
    · unfold sizeMax
      omega
  · have hk : k = s.tRegionIndex t := by
      rw [hselected, selected, selectRegion, if_neg hnew]
    have hcounter : (selected a s t).2.threadCounter = s.threadCounter := by
      rw [selected, selectRegion, if_neg hnew]
    subst hk
    refine ⟨?_, rfl, hnew, Or.inr rfl⟩
    simp only [hcounter, Function.update_eq_self]
    exact h

/-- No region contains null. -/
theorem locate_zero (hL : LayoutOk (layout a)) : (layout a).locate 0 = none := by
  simp only [layout, List.findIdx?_eq_none_iff]
  intro r hr
  obtain ⟨j, hj, rfl⟩ := List.mem_iff_getElem.mp hr
  have hpos := (hL.arena.placed j hj).memoryPos
  have hmemory : memoryOf a j = a.regions[j].memory := by simp [memoryOf, hj]
  simp only [layout, hmemory] at hpos
  simp only [owns, Bool.and_eq_false_iff, decide_eq_false_iff_not]
  omega

/-- What has to be said of the allocator and the number of its users. -/
structure Enough (a : Allocator) (users : List Nat) : Prop where
  layoutOk : LayoutOk (layout a)
  regions : a.regions.length = a.maxThreads
  users : users.length ≤ a.maxThreads
  size : a.maxThreads < 2 ^ 64

theorem Enough.users_le (hL : Enough a users) : users.length ≤ sizeMax := by
  have husers := hL.users
  have hsize := hL.size
  unfold sizeMax
  omega

theorem Inv.region_lt (h : Inv a users (s, hist)) (hL : Enough a users) {t : Nat}
    (ht : s.tRegionIndex t ≠ sizeMax) : s.tRegionIndex t < (layout a).regionCount := by
  have hlt : s.tRegionIndex t < s.threadCounter := h.allotted.lt ht
  have hle : s.threadCounter ≤ users.length := h.allotted.counter_le
  have husers := hL.users
  have hregions := hL.regions
  simp only [layout]
  omega

theorem Inv.callAlloc (h : Inv a users (s, hist)) (hL : Enough a users) {t k : Nat}
    (huser : t ∈ users) (hstep : exec a s (.callAlloc t k) = some s') :
    Inv a users (s', note a s (.callAlloc t k) s' hist) := by
  have hcore := exec_core hstep
  obtain ⟨hallotted, hindex, hassigned, hbefore⟩ :=
    h.allotted.callAlloc hL.users hL.size huser hstep
  have hidle : s.core.pc t = .idle := by
    generalize s'.core = core at hcore
    cases step_of_exec hcore with
    | callAlloc hpc _ => exact hpc
  have hsession : Session (layout a) k (hist.calls t) (hist.results t)
      (s.core.bitmap k) (s.core.hints k) (s.core.pc t) := by
    rcases hbefore with ⟨hnew, hfree⟩ | hsame
    · -- the region has not been used yet
      obtain ⟨hpc, hcalls, hresults⟩ := h.unassigned t hnew
      obtain ⟨hwords, hhints⟩ := h.untouched k hassigned hfree
      simp only at hpc hcalls hresults hwords hhints
      rw [hpc, hcalls, hresults, hwords, hhints]
      exact session_nil (layout a) k
    · subst hsame
      exact h.session t hassigned
  refine h.move hL.users_le hstep hallotted hindex hassigned
    (hbefore.imp And.left id) (fun j hj => ?_) ?_
  · rw [Event.thread, hidle] at hj
    cases hj
  · simp only [Event.thread, made, returned, List.map_nil, List.append_nil]
    exact hsession.callAlloc hcore

theorem Inv.callDealloc (h : Inv a users (s, hist)) (hL : Enough a users) {t ptr : Nat}
    (hown : ptr ∈ hist.results t) (hstep : exec a s (.callDealloc t ptr) = some s') :
    Inv a users (s', note a s (.callDealloc t ptr) s' hist) := by
  have hcore := exec_core hstep
  obtain ⟨hindex, hcounter⟩ := exec_index_eq hstep fun _ _ heq => by cases heq
  have hassigned : s.tRegionIndex t ≠ sizeMax := by
    intro hnone
    have hresults : hist.results t = [] := (h.unassigned t hnone).2.2
    rw [hresults] at hown
    cases hown
  have hold := h.session t hassigned
  refine h.move hL.users_le hstep (by rw [hindex, hcounter]; exact h.allotted)
    (by rw [Event.thread, Function.update_eq_self, hindex]) hassigned (Or.inr rfl)
    (fun j hj => hold.midway.regionOf hj) ?_
  simp only [Event.thread, made, returned, List.append_nil]
  exact Session.callDealloc (s := (asked s (.callDealloc t ptr)).core) hL.layoutOk
    (locate_zero hL.layoutOk) (h.region_lt hL hassigned) hold hown hcore

/-- The other steps: a call of the thread is on its way. -/
theorem Inv.onTheWay (h : Inv a users (s, hist)) (hL : Enough a users)
    (hbusy : s.core.pc e.thread ≠ .idle) (hcoherent : Coherent (s, hist) e)
    (hstep : exec a s e = some s') : Inv a users (s', note a s e s' hist) := by
  have hcore := exec_core hstep
  have hcall : ∀ t k, e ≠ .callAlloc t k := by
    rintro t k rfl
    generalize s'.core = core at hcore
    cases step_of_exec hcore with
    | callAlloc hpc _ => exact hbusy hpc
  obtain ⟨hindex, hcounter⟩ := exec_index_eq hstep hcall
  have hassigned : s.tRegionIndex e.thread ≠ sizeMax :=
    fun hnone => hbusy (h.unassigned e.thread hnone).1
  have hold := h.session e.thread hassigned
  have hread : ∀ t value, e = .loadHint t value →
      (s.core.hints (s.tRegionIndex e.thread)).head? = some value := by
    rintro t value rfl
    simp only [Event.thread] at hassigned hold hbusy ⊢
    generalize s'.core = core at hcore
    cases step_of_exec hcore with
    | @loadHint _ k _ hpc _ =>
        simp only [asked] at hpc
        have hk : k = s.tRegionIndex t :=
          hold.midway.regionOf (by rw [hpc]; rfl)
        rw [← hk]
        refine hcoherent value rfl k (by rw [Event.thread, hpc]; rfl) fun u hu => ?_
        obtain ⟨hwriter, -⟩ := h.writers k u hu
        exact h.allotted.injective (Nat.le_trans h.allotted.counter_le hL.users_le)
          hassigned (hwriter.trans hk)
  refine h.move hL.users_le hstep (by rw [hindex, hcounter]; exact h.allotted)
    (by rw [Function.update_eq_self, hindex]) hassigned (Or.inr rfl)
    (fun j hj => hold.midway.regionOf hj) ?_
  have hplaced := hL.layoutOk.arena.placed _ (h.region_lt hL hassigned)
  have hasked : returned (layout a) s.core e s'.core =
      returned (layout a) (asked s e).core e s'.core := by
    cases e <;> rfl
  rw [hasked]
  exact Session.step hplaced (by simpa using hold) hcore (by simpa using hbusy)
    (by simpa using hread)

theorem inv_of_reachable (hL : Enough a users) (hcounter : a.threadCounter = 0)
    {sh : State × Record} (h : Reachable (runs a users) sh) : Inv a users sh := by
  refine Reachable.invariant ?_ ?_ h
  · rintro ⟨s, hist⟩ ⟨hs, hhist⟩
    obtain rfl : s = _ := hs
    obtain rfl : hist = _ := hhist
    exact inv_start a users hcounter
  · rintro ⟨s, hist⟩ e ⟨s', hist'⟩ - hinv ⟨⟨hcoherent, huser, hown⟩, hstep⟩
    obtain ⟨hexec, hnote⟩ := record_eq hstep
    simp only at hexec hnote huser
    subst hnote
    by_cases hidle : s.core.pc e.thread = .idle
    · rcases calls_of_idle (exec_core hexec) (by rw [asked_pc, hidle]) with
        ⟨t, k, rfl⟩ | ⟨t, ptr, rfl⟩
      · exact hinv.callAlloc hL huser hexec
      · exact hinv.callDealloc hL (hown ptr rfl) hexec
    · exact hinv.onTheWay hL hidle hcoherent hexec

end Steps

/-! ## Independence -/

/-- What thread `t` can tell about its region. -/
structure Independent (blockSize blocksPerThread : Nat) (a : Allocator)
    (sh : State × Record) (t : Nat) : Prop where
  /-- No other thread has its region. -/
  region : sh.1.tRegionIndex t ≠ sizeMax →
    ∀ u, sh.1.tRegionIndex u = sh.1.tRegionIndex t → u = t
  /-- Every pointer it has got is a block of its region. -/
  blocks : ∀ ptr ∈ sh.2.results t, ptr ≠ 0 → ∃ i,
    BlockAt a (sh.1.tRegionIndex t) i ptr ∧
      blockOf a.blockSize (memoryOf a (sh.1.tRegionIndex t)) ptr = some i
  /-- It has got what it would get from the same calls alone on a new allocator. -/
  alone : ∀ maxThreads b tRegionIndex,
    Constructed blockSize blocksPerThread maxThreads b →
    tRegionIndex = sizeMax ∨ tRegionIndex < maxThreads →
    RegionSession.alone b tRegionIndex (callsOf a sh t) = outcomesOf a sh t

section Independence

variable {blockSize blocksPerThread maxThreads : Nat} {a : Allocator} {users : List Nat}

theorem enough_of_constructed (ha : Constructed blockSize blocksPerThread maxThreads a)
    (hsize : maxThreads < 2 ^ 64) (husers : users.length ≤ maxThreads) :
    Enough a users ∧ a.threadCounter = 0 ∧ a.blocksPerThread = blocksPerThread := by
  obtain ⟨hL, hlen, hthreads⟩ := layout_ok ha
  obtain ⟨base, -, -, heq⟩ := ha.arena
  exact ⟨⟨hL, hlen.trans hthreads.symm, hthreads ▸ husers, hthreads ▸ hsize⟩,
    by rw [heq], by rw [heq]⟩

/-- What a thread has seen is what its calls do to a fresh region. -/
theorem Inv.seen {s : State} {hist : Record} (h : Inv a users (s, hist))
    (hL : Enough a users) (t : Nat) :
    outcomesOf a (s, hist) t =
        (performAll (fresh 0 a.blocksPerThread) (callsOf a (s, hist) t)).1 ∧
      ∀ i, Call.dealloc (some i) ∈ callsOf a (s, hist) t → i < a.blocksPerThread := by
  by_cases hassigned : s.tRegionIndex t = sizeMax
  · obtain ⟨-, hcalls, hresults⟩ := h.unassigned t hassigned
    simp only at hcalls hresults
    simp [outcomesOf, callsOf, hcalls, hresults, performAll]
  · have hsession := h.session t hassigned
    have hplaced := hL.layoutOk.arena.placed _ (h.region_lt hL hassigned)
    refine ⟨hsession.seen, fun i hi => ?_⟩
    obtain ⟨call, hcall, heq⟩ := List.mem_map.mp hi
    cases call with
    | alloc => cases heq
    | dealloc ptr =>
        obtain ⟨block, rfl, hrange⟩ := hsession.blocks ptr (hsession.frees ptr hcall)
        have hblock := blockOf_ptrOf hplaced hrange
        rw [Call.map, show blockOf a.blockSize (memoryOf a (s.tRegionIndex t))
          (ptrOf (layout a).blockSize ((layout a).base (s.tRegionIndex t)) block) = block
          from hblock] at heq
        exact hrange i (Call.dealloc.inj heq)

theorem Inv.blocks {s : State} {hist : Record} (h : Inv a users (s, hist))
    (hL : Enough a users) {t ptr : Nat} (hptr : ptr ∈ hist.results t) (hne : ptr ≠ 0) :
    ∃ i, BlockAt a (s.tRegionIndex t) i ptr ∧
      blockOf a.blockSize (memoryOf a (s.tRegionIndex t)) ptr = some i := by
  have hassigned : s.tRegionIndex t ≠ sizeMax := by
    intro hnone
    have hresults : hist.results t = [] := (h.unassigned t hnone).2.2
    rw [hresults] at hptr
    cases hptr
  have hk := h.region_lt hL hassigned
  have hplaced := hL.layoutOk.arena.placed _ hk
  obtain ⟨block, rfl, hrange⟩ := (h.session t hassigned).blocks ptr hptr
  cases block with
  | none => exact (hne rfl).elim
  | some i =>
      have hi := hrange i rfl
      have haddress : ptrOf (layout a).blockSize ((layout a).base (s.tRegionIndex t))
          (some i) = memoryOf a (s.tRegionIndex t) + i * a.blockSize :=
        hplaced.indexToPtr_eq hi
      exact ⟨i, (congrArg (BlockAt a (s.tRegionIndex t) i) haddress).mpr
        (blockAt_of_lt hL.layoutOk hk hi), blockOf_indexToPtr hplaced hi⟩

/-- Independence of the threads of `ThreadLocalBitmapAllocator`: in every interleaving
each thread gets what it would get alone, and two runs in which it makes the same calls
look the same to it but for the addresses. -/
theorem threads_independent (blockSize blocksPerThread maxThreads : Nat) (a : Allocator)
    (ha : Constructed blockSize blocksPerThread maxThreads a) (hsize : maxThreads < 2 ^ 64)
    (users : List Nat) (husers : users.length ≤ maxThreads) (sh : State × Record)
    (h : Reachable (runs a users) sh) (t : Nat) :
    Independent blockSize blocksPerThread a sh t ∧
      ∀ maxThreads' b users' sh',
        Constructed blockSize blocksPerThread maxThreads' b → maxThreads' < 2 ^ 64 →
        users'.length ≤ maxThreads' → Reachable (runs b users') sh' →
        callsOf b sh' t = callsOf a sh t → outcomesOf b sh' t = outcomesOf a sh t := by
  obtain ⟨hL, hcounter, hblocks⟩ := enough_of_constructed ha hsize husers
  have hinv := inv_of_reachable hL hcounter h
  obtain ⟨hseen, hrange⟩ := hinv.seen hL t
  rw [hblocks] at hseen hrange
  refine ⟨⟨fun hassigned u hu => ?_, fun ptr hptr hne => hinv.blocks hL hptr hne,
    fun n b tRegionIndex hb hindex => ?_⟩, ?_⟩
  · exact hinv.allotted.injective (Nat.le_trans hinv.allotted.counter_le hL.users_le)
      hassigned hu
  · rw [alone_eq hb hindex _ hrange, hseen]
  · intro n b users' sh' hb hn husers' h' hcalls
    obtain ⟨hL', hcounter', hblocks'⟩ := enough_of_constructed hb hn husers'
    obtain ⟨hseen', -⟩ := (inv_of_reachable hL' hcounter' h').seen hL' t
    rw [hseen', hblocks', hcalls, hseen]

/-- Thread 3 gets, frees and gets again a block of region 0, step by step in turn with
thread 7. -/
def threeFirst : List Event :=
  [.callAlloc 3 0, .callAlloc 7 1, .loadHint 7 0, .loadHint 3 0, .loadWord 3, .loadWord 7,
    .exchange 3 false, .exchange 7 true, .settle 3, .ret 3, .callDealloc 3 4096,
    .exchange 7 false, .fetchAnd 3, .settle 7, .storeHint 3, .ret 7, .callAlloc 3 0,
    .loadHint 3 0, .loadWord 3, .exchange 3 false, .settle 3, .ret 3]

/-- The same calls of thread 3 when thread 7 has called first and has stopped. -/
def sevenFirst : List Event :=
  [.callAlloc 7 0, .callAlloc 3 1, .loadHint 3 0, .loadWord 3, .exchange 3 true,
    .exchange 3 false, .settle 3, .ret 3, .callDealloc 3 16384, .fetchAnd 3, .storeHint 3,
    .callAlloc 3 1, .loadHint 3 0, .loadWord 3, .exchange 3 false, .settle 3, .ret 3]

private theorem runs_of_labels (labels : List Event) (calls : List (Call (Option Nat)))
    (hmeet : Along (record (exec tlPool65) (note tlPool65))
      (fun sh e => Coherent sh e ∧ Allowed [3, 7] sh e)
      (⟨RegionInterleaving.start (layout tlPool65), fun _ => sizeMax, 0⟩,
        ⟨fun _ => [], fun _ => [], fun _ => []⟩) labels)
    (hrun : (replay (record (exec tlPool65) (note tlPool65))
      (⟨RegionInterleaving.start (layout tlPool65), fun _ => sizeMax, 0⟩,
        ⟨fun _ => [], fun _ => [], fun _ => []⟩) labels).any
          (fun sh => decide (callsOf tlPool65 sh 3 = calls)) = true) :
    ∃ sh, Reachable (runs tlPool65 [3, 7]) sh ∧ callsOf tlPool65 sh 3 = calls := by
  obtain ⟨sh, hsh, hcalls⟩ := (Option.any_eq_true _ _).mp hrun
  exact ⟨sh, .replay_restrict labels (.init ⟨rfl, rfl⟩) hmeet hsh, of_decide_eq_true hcalls⟩

theorem threads_independent_threeFirst_sevenFirst : ∃ sh sh',
    Reachable (runs tlPool65 [3, 7]) sh ∧ Reachable (runs tlPool65 [3, 7]) sh' ∧
    callsOf tlPool65 sh 3 = [.alloc, .dealloc (some 0), .alloc] ∧
    Independent 64 65 tlPool65 sh 3 ∧ outcomesOf tlPool65 sh' 3 = outcomesOf tlPool65 sh 3 := by
  obtain ⟨sh, hsh, hcalls⟩ := runs_of_labels threeFirst [.alloc, .dealloc (some 0), .alloc]
    (by decide +kernel) (by decide +kernel)
  obtain ⟨sh', hsh', hcalls'⟩ := runs_of_labels sevenFirst [.alloc, .dealloc (some 0), .alloc]
    (by decide +kernel) (by decide +kernel)
  obtain ⟨halone, hruns⟩ := threads_independent 64 65 2 tlPool65 tlPool65_constructed
    (by decide) [3, 7] (by decide) sh hsh 3
  exact ⟨sh, sh', hsh, hsh', hcalls, halone, hruns 2 tlPool65 [3, 7] sh'
    tlPool65_constructed (by decide) (by decide) hsh' (hcalls'.trans hcalls.symm)⟩

end Independence

end PoolMemalloc.Ports.TlBitmapIndependence
