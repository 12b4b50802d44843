import Mathlib.Logic.Function.Basic
import PoolMemalloc.Ports.BitmapRegion
import PoolMemalloc.Verified.Transition

/-!
# Interleaved `alloc` and `dealloc` on bitmap regions

Any number of threads run the loops of `PoolMemalloc.Ports.BitmapRegion` one
atomic step at a time: load or store of a hint, load of a word,
`compare_exchange_weak` (which may fail spuriously), `fetch_and`.  A `Layout`
holds what does not change during a run; `readable` says which of the values
ever written to a hint a load may return, so that one machine serves both the
atomic `m_hint` of `BitmapAllocator` and the plain `hint` of a shared
`ThreadLocalBitmapAllocator::Region`.

`owned` names the bit a thread is answerable for between the step that takes it
and the step that gives it up.  The invariant `Inv` says that a bit is set
exactly when its block is live or some thread owns the bit, and that owners are
unique; each of the five ways a step can move a bit between owners is one lemma.
`Step` lists what a step can be, once for all proofs about steps.
-/

namespace PoolMemalloc.Ports.RegionInterleaving

open PoolMemalloc.Verified.SizeT
open PoolMemalloc.Verified.WordBitmap
open PoolMemalloc.Verified.Transition
open PoolMemalloc.Ports.BlockArray
open PoolMemalloc.Ports.BitmapRegion

/-- The members that no call changes, and the two things in which the allocators
differ: how `dealloc` finds the region of a pointer, and what a hint load may
return. -/
structure Layout where
  blockSize : Nat
  blockCount : Nat
  regionCount : Nat
  base : Nat → Nat
  locate : Nat → Option Nat
  readable : List Nat → Nat → Bool

def Layout.wordCount (L : Layout) : Nat := wordsFor L.blockCount

/-- Where a thread is between two of its steps. -/
inductive Pc
  | idle
  /-- `alloc` on region `k`, before the load of the hint. -/
  | loadHint (k : Nat)
  /-- Head of the probing loop. -/
  | loadWord (k start probe : Nat)
  /-- Before `compare_exchange_weak` on a word that is not `FULL`. -/
  | exchange (k start probe : Nat) (word : Word)
  /-- The exchange has set `freeBit` of word `wordIndex`. -/
  | settle (k wordIndex freeBit : Nat)
  /-- The hint is stored; `alloc` is about to return block `index`. -/
  | done (k index : Nat)
  /-- `dealloc(ptr)` on region `k`, before its `fetch_and`. -/
  | fetchAnd (k ptr : Nat)
  /-- `dealloc` before its store of the hint. -/
  | storeHint (k wordIndex : Nat)
  deriving Repr, DecidableEq

/-- Every region's words and the values written to its hint, latest first; where
each thread is; the pointers the users hold. -/
structure State where
  bitmap : Nat → List Word
  hints : Nat → List Nat
  pc : Nat → Pc
  live : List Nat

inductive Event
  | callAlloc (thread region : Nat)
  | loadHint (thread value : Nat)
  | loadWord (thread : Nat)
  | exchange (thread : Nat) (spurious : Bool)
  | settle (thread : Nat)
  | ret (thread : Nat)
  | callDealloc (thread ptr : Nat)
  | fetchAnd (thread : Nat)
  | storeHint (thread : Nat)
  deriving Repr, DecidableEq

def State.goto (s : State) (t : Nat) (pc : Pc) : State :=
  { s with pc := Function.update s.pc t pc }

@[simp] theorem State.goto_pc (s : State) (t : Nat) (pc : Pc) : (s.goto t pc).pc t = pc :=
  Function.update_self _ _ _

def State.writeWord (s : State) (k wordIndex : Nat) (word : Word) : State :=
  { s with bitmap :=
      Function.update s.bitmap k ((s.bitmap k).set wordIndex word) }

def State.writeHint (s : State) (k value : Nat) : State :=
  { s with hints := Function.update s.hints k (value :: s.hints k) }

/-- One atomic step; `none` where it is not the thread's next step. -/
def exec (L : Layout) (s : State) : Event → Option State
  | .callAlloc t k =>
      if s.pc t = .idle ∧ k < L.regionCount then some (s.goto t (.loadHint k))
      else none
  | .loadHint t value =>
      match s.pc t with
      | .loadHint k =>
          if L.readable (s.hints k) value then
            some (s.goto t (.loadWord k value 0))
          else none
      | _ => none
  | .loadWord t =>
      match s.pc t with
      | .loadWord k start probe =>
          if probe < L.wordCount then
            let word := wordAt (s.bitmap k) (probeIndex L.wordCount start probe)
            if word = FULL then some (s.goto t (.loadWord k start (probe + 1)))
            else some (s.goto t (.exchange k start probe word))
          else some (s.goto t .idle)
      | _ => none
  | .exchange t spurious =>
      match s.pc t with
      | .exchange k start probe word =>
          let wordIndex := probeIndex L.wordCount start probe
          let current := wordAt (s.bitmap k) wordIndex
          if current = word ∧ spurious = false then
            let freeBit := findFreeBit word
            some ((s.writeWord k wordIndex (word ||| (1#64 <<< freeBit))).goto t
              (.settle k wordIndex freeBit))
          else if current = FULL then
            some (s.goto t (.loadWord k start (probe + 1)))
          else some (s.goto t (.exchange k start probe current))
      | _ => none
  | .settle t =>
      match s.pc t with
      | .settle k wordIndex freeBit =>
          let globalIndex := wrap (wordIndex * wordBits + freeBit)
          if globalIndex ≥ L.blockCount then
            some ((s.writeWord k wordIndex
              (wordAt (s.bitmap k) wordIndex &&& ~~~(1#64 <<< freeBit))).goto t .idle)
          else some ((s.writeHint k wordIndex).goto t (.done k globalIndex))
      | _ => none
  | .ret t =>
      match s.pc t with
      | .done k index =>
          some { s.goto t .idle with
            live := indexToPtr L.blockSize (L.base k) index :: s.live }
      | _ => none
  | .callDealloc t ptr =>
      if s.pc t = .idle ∧ ptr ∈ s.live then
        match L.locate ptr with
        | some k =>
            some { s.goto t (.fetchAnd k ptr) with live := s.live.erase ptr }
        | none => some { s with live := s.live.erase ptr }
      else none
  | .fetchAnd t =>
      match s.pc t with
      | .fetchAnd k ptr =>
          let index := ptrToIndex L.blockSize (L.base k) ptr
          let wordIndex := index / wordBits
          let bitIndex := index % wordBits
          some ((s.writeWord k wordIndex
            (wordAt (s.bitmap k) wordIndex &&& ~~~(1#64 <<< bitIndex))).goto t
            (.storeHint k wordIndex))
      | _ => none
  | .storeHint t =>
      match s.pc t with
      | .storeHint k wordIndex => some ((s.writeHint k wordIndex).goto t .idle)
      | _ => none

/-- Every word zero, every hint zero, every thread idle. -/
def start (L : Layout) : State where
  bitmap _ := List.replicate L.wordCount 0
  hints _ := [0]
  pc _ := .idle
  live := []

/-- All interleavings of the threads' steps. -/
def steps (L : Layout) : System State Event :=
  ofExec (fun s => s = start L) (exec L)

/-! ## What a step can be -/

/-- The branches of `exec`, each with what it has found in the state. -/
inductive Step (L : Layout) (s : State) : Event → State → Prop
  | callAlloc {t k : Nat} (hpc : s.pc t = .idle) (hk : k < L.regionCount) :
      Step L s (.callAlloc t k) (s.goto t (.loadHint k))
  | loadHint {t k value : Nat} (hpc : s.pc t = .loadHint k)
      (hread : L.readable (s.hints k) value = true) :
      Step L s (.loadHint t value) (s.goto t (.loadWord k value 0))
  | full {t k start probe : Nat} (hpc : s.pc t = .loadWord k start probe)
      (hprobe : probe < L.wordCount)
      (hword : wordAt (s.bitmap k) (probeIndex L.wordCount start probe) = FULL) :
      Step L s (.loadWord t) (s.goto t (.loadWord k start (probe + 1)))
  | loaded {t k start probe : Nat} (hpc : s.pc t = .loadWord k start probe)
      (hprobe : probe < L.wordCount)
      (hword : wordAt (s.bitmap k) (probeIndex L.wordCount start probe) ≠ FULL) :
      Step L s (.loadWord t) (s.goto t (.exchange k start probe
        (wordAt (s.bitmap k) (probeIndex L.wordCount start probe))))
  | exhausted {t k start probe : Nat} (hpc : s.pc t = .loadWord k start probe)
      (hprobe : L.wordCount ≤ probe) : Step L s (.loadWord t) (s.goto t .idle)
  | claimed {t k start probe : Nat} {word : Word}
      (hpc : s.pc t = .exchange k start probe word)
      (hword : wordAt (s.bitmap k) (probeIndex L.wordCount start probe) = word) :
      Step L s (.exchange t false)
        ((s.writeWord k (probeIndex L.wordCount start probe)
          (word ||| (1#64 <<< findFreeBit word))).goto t
          (.settle k (probeIndex L.wordCount start probe) (findFreeBit word)))
  | overtaken {t k start probe : Nat} {word : Word} {spurious : Bool}
      (hpc : s.pc t = .exchange k start probe word)
      (hword : wordAt (s.bitmap k) (probeIndex L.wordCount start probe) = FULL)
      (hfail : ¬ (FULL = word ∧ spurious = false)) :
      Step L s (.exchange t spurious) (s.goto t (.loadWord k start (probe + 1)))
  | reloaded {t k start probe : Nat} {word : Word} {spurious : Bool}
      (hpc : s.pc t = .exchange k start probe word)
      (hword : wordAt (s.bitmap k) (probeIndex L.wordCount start probe) ≠ FULL) :
      Step L s (.exchange t spurious) (s.goto t (.exchange k start probe
        (wordAt (s.bitmap k) (probeIndex L.wordCount start probe))))
  | undone {t k wordIndex freeBit : Nat} (hpc : s.pc t = .settle k wordIndex freeBit)
      (hpad : L.blockCount ≤ wrap (wordIndex * wordBits + freeBit)) :
      Step L s (.settle t) ((s.writeWord k wordIndex
        (wordAt (s.bitmap k) wordIndex &&& ~~~(1#64 <<< freeBit))).goto t .idle)
  | kept {t k wordIndex freeBit : Nat} (hpc : s.pc t = .settle k wordIndex freeBit)
      (hin : wrap (wordIndex * wordBits + freeBit) < L.blockCount) :
      Step L s (.settle t) ((s.writeHint k wordIndex).goto t
        (.done k (wrap (wordIndex * wordBits + freeBit))))
  | ret {t k index : Nat} (hpc : s.pc t = .done k index) :
      Step L s (.ret t) { s.goto t .idle with
        live := indexToPtr L.blockSize (L.base k) index :: s.live }
  | callDealloc {t ptr k : Nat} (hpc : s.pc t = .idle) (hlive : ptr ∈ s.live)
      (hlocate : L.locate ptr = some k) :
      Step L s (.callDealloc t ptr)
        { s.goto t (.fetchAnd k ptr) with live := s.live.erase ptr }
  | ignored {t ptr : Nat} (hpc : s.pc t = .idle) (hlive : ptr ∈ s.live)
      (hlocate : L.locate ptr = none) :
      Step L s (.callDealloc t ptr) { s with live := s.live.erase ptr }
  | fetchAnd {t k ptr : Nat} (hpc : s.pc t = .fetchAnd k ptr) :
      Step L s (.fetchAnd t)
        ((s.writeWord k (ptrToIndex L.blockSize (L.base k) ptr / wordBits)
          (wordAt (s.bitmap k) (ptrToIndex L.blockSize (L.base k) ptr / wordBits) &&&
            ~~~(1#64 <<< (ptrToIndex L.blockSize (L.base k) ptr % wordBits)))).goto t
          (.storeHint k (ptrToIndex L.blockSize (L.base k) ptr / wordBits)))
  | storeHint {t k wordIndex : Nat} (hpc : s.pc t = .storeHint k wordIndex) :
      Step L s (.storeHint t) ((s.writeHint k wordIndex).goto t .idle)

theorem step_of_exec {L : Layout} {s s' : State} {e : Event} (h : exec L s e = some s') :
    Step L s e s' := by
  cases e with
  | callAlloc t k =>
      simp only [exec, Option.ite_none_right_eq_some, Option.some.injEq] at h
      obtain ⟨⟨hpc, hk⟩, rfl⟩ := h
      exact .callAlloc hpc hk
  | loadHint t value =>
      cases hpc : s.pc t with
      | loadHint k =>
          simp only [exec, hpc, Option.ite_none_right_eq_some, Option.some.injEq] at h
          obtain ⟨hread, rfl⟩ := h
          exact .loadHint hpc hread
      | _ => simp [exec, hpc] at h
  | loadWord t =>
      cases hpc : s.pc t with
      | loadWord k start probe =>
          simp only [exec, hpc] at h
          split at h
          · next hprobe =>
              split at h
              · next hword =>
                  cases h
                  exact .full hpc hprobe hword
              · next hword =>
                  cases h
                  exact .loaded hpc hprobe hword
          · next hprobe =>
              cases h
              exact .exhausted hpc (Nat.le_of_not_lt hprobe)
      | _ => simp [exec, hpc] at h
  | exchange t spurious =>
      cases hpc : s.pc t with
      | exchange k start probe word =>
          simp only [exec, hpc] at h
          split at h
          · next hsame =>
              obtain ⟨hword, rfl⟩ := hsame
              cases h
              exact .claimed hpc hword
          · next hfail =>
              split at h
              · next hword =>
                  cases h
                  exact .overtaken hpc hword (hword ▸ hfail)
              · next hword =>
                  cases h
                  exact .reloaded hpc hword
      | _ => simp [exec, hpc] at h
  | settle t =>
      cases hpc : s.pc t with
      | settle k wordIndex freeBit =>
          simp only [exec, hpc] at h
          split at h
          · next hpad =>
              cases h
              exact .undone hpc hpad
          · next hin =>
              cases h
              exact .kept hpc (Nat.lt_of_not_le hin)
      | _ => simp [exec, hpc] at h
  | ret t =>
      cases hpc : s.pc t with
      | done k index =>
          simp only [exec, hpc] at h
          cases h
          exact .ret hpc
      | _ => simp [exec, hpc] at h
  | callDealloc t ptr =>
      simp only [exec, Option.ite_none_right_eq_some] at h
      obtain ⟨⟨hpc, hlive⟩, h⟩ := h
      split at h
      · next hlocate =>
          cases h
          exact .callDealloc hpc hlive hlocate
      · next hlocate =>
          cases h
          exact .ignored hpc hlive hlocate
  | fetchAnd t =>
      cases hpc : s.pc t with
      | fetchAnd k ptr =>
          simp only [exec, hpc] at h
          cases h
          exact .fetchAnd hpc
      | _ => simp [exec, hpc] at h
  | storeHint t =>
      cases hpc : s.pc t with
      | storeHint k wordIndex =>
          simp only [exec, hpc] at h
          cases h
          exact .storeHint hpc
      | _ => simp [exec, hpc] at h

/-! ## Ownership of bits -/

/-- The bit a thread at `pc` has set and not yet handed over or cleared. -/
def owned (L : Layout) : Pc → Option (Nat × Nat)
  | .settle k wordIndex freeBit => some (k, wordIndex * 64 + freeBit)
  | .done k index => some (k, index)
  | .fetchAnd k ptr => some (k, ptrToIndex L.blockSize (L.base k) ptr)
  | _ => none

/-- The local values of a thread at `pc` are in range. -/
def PcOk (L : Layout) : Pc → Prop
  | .idle => True
  | .loadHint k => k < L.regionCount
  | .loadWord k start _ =>
      k < L.regionCount ∧ (start < L.wordCount ∨ start = 0)
  | .exchange k start probe word =>
      k < L.regionCount ∧ (start < L.wordCount ∨ start = 0) ∧
        probe < L.wordCount ∧ word ≠ FULL
  | .settle k wordIndex freeBit =>
      k < L.regionCount ∧ wordIndex < L.wordCount ∧ freeBit < 64
  | .done k index => k < L.regionCount ∧ index < L.blockCount
  | .fetchAnd k ptr => k < L.regionCount ∧
      ∃ i, i < L.blockCount ∧ ptr = indexToPtr L.blockSize (L.base k) i
  | .storeHint k wordIndex => k < L.regionCount ∧ wordIndex < L.wordCount

/-- Block `i` of region `k` is held by a user. -/
def Live (L : Layout) (s : State) (k i : Nat) : Prop :=
  LiveIn L.blockSize (L.base k) L.blockCount s.live i

structure Inv (L : Layout) (s : State) : Prop where
  length : ∀ k, (s.bitmap k).length = L.wordCount
  hints : ∀ k, ∀ value ∈ s.hints k, value < L.wordCount ∨ value = 0
  nodup : s.live.Nodup
  blocks : ∀ p ∈ s.live, ∃ k i, k < L.regionCount ∧ i < L.blockCount ∧
    p = indexToPtr L.blockSize (L.base k) i
  bit : ∀ k, k < L.regionCount → ∀ i, testBit (s.bitmap k) i = true ↔
    Live L s k i ∨ ∃ t, owned L (s.pc t) = some (k, i)
  unique : ∀ t u c, owned L (s.pc t) = some c → owned L (s.pc u) = some c → t = u
  notLive : ∀ t k i, owned L (s.pc t) = some (k, i) → ¬ Live L s k i
  pcOk : ∀ t, PcOk L (s.pc t)

/-- What the machine needs of a layout. -/
structure LayoutOk (L : Layout) : Prop where
  arena : Arena L.blockSize L.base L.blockCount L.regionCount
  count : L.blockCount + 63 < 2 ^ 64
  locate : ∀ k i, k < L.regionCount → i < L.blockCount →
    L.locate (indexToPtr L.blockSize (L.base k) i) = some k
  readable : ∀ written value, L.readable written value = true → value ∈ written

theorem inv_start (L : Layout) : Inv L (start L) where
  length _ := by simp [start]
  hints k value hvalue := by
    right
    simpa [start] using hvalue
  nodup := List.nodup_nil
  blocks := by simp [start]
  bit k _ i := by
    have hzero := testBit_replicate_zero (w := 64) L.wordCount i
    simpa [start, Live, LiveIn, owned] using hzero
  unique t u c h := by simp [start, owned] at h
  notLive t k i h := by simp [start, owned] at h
  pcOk _ := trivial

section Moves

variable {L : Layout} {s s' : State} {t : Nat} {q : Pc}

/-- An owned bit lies in its region's words. -/
theorem owned_bounds (hL : LayoutOk L) {k i : Nat} (hok : PcOk L q)
    (howned : owned L q = some (k, i)) :
    k < L.regionCount ∧ i < L.wordCount * 64 := by
  have hfit : L.blockCount ≤ L.wordCount * 64 := le_wordsFor hL.count
  cases q with
  | settle k' wordIndex freeBit =>
      obtain ⟨hk, hword, hbit⟩ := hok
      simp only [owned, Option.some.injEq, Prod.mk.injEq] at howned
      obtain ⟨rfl, rfl⟩ := howned
      exact ⟨hk, by omega⟩
  | done k' index =>
      obtain ⟨hk, hindex⟩ := hok
      simp only [owned, Option.some.injEq, Prod.mk.injEq] at howned
      obtain ⟨rfl, rfl⟩ := howned
      exact ⟨hk, by omega⟩
  | fetchAnd k' ptr =>
      obtain ⟨hk, j, hj, rfl⟩ := hok
      rw [owned, (hL.arena.placed k' hk).ptrToIndex_indexToPtr hj,
        Option.some.injEq, Prod.mk.injEq] at howned
      obtain ⟨rfl, rfl⟩ := howned
      exact ⟨hk, by omega⟩
  | _ => simp [owned] at howned

/-- Who owns what after thread `t` has moved. -/
private theorem owned_update (L : Layout) (f : Nat → Pc) (t u : Nat) (q : Pc) :
    owned L (Function.update f t q u) =
      if u = t then owned L q else owned L (f u) := by
  by_cases h : u = t
  · subst h
    simp
  · simp [h]

private theorem pcOk_update (h : Inv L s) (hpc : PcOk L q) (u : Nat) :
    PcOk L (Function.update s.pc t q u) := by
  by_cases hu : u = t
  · subst hu
    simpa using hpc
  · simpa [hu] using h.pcOk u

/-- A step that moves no bit. -/
theorem Inv.quiet (h : Inv L s) (hpcs : s'.pc = Function.update s.pc t q)
    (howned : owned L q = owned L (s.pc t)) (hok : PcOk L q)
    (hbitmap : s'.bitmap = s.bitmap) (hlive : s'.live = s.live)
    (hhints : ∀ k, ∀ value ∈ s'.hints k, value < L.wordCount ∨ value = 0) :
    Inv L s' := by
  have hsame : ∀ u, owned L (s'.pc u) = owned L (s.pc u) := by
    intro u
    rw [hpcs, owned_update]
    split
    · next hu => rw [hu, howned]
    · rfl
  exact
    { length := fun k => hbitmap ▸ h.length k
      hints := hhints
      nodup := hlive ▸ h.nodup
      blocks := fun p hp => h.blocks p (hlive ▸ hp)
      bit := fun k hk i => by
        simp only [hsame, hbitmap, Live, hlive]
        exact h.bit k hk i
      unique := fun u v c hu hv => h.unique u v c (hsame u ▸ hu) (hsame v ▸ hv)
      notLive := fun u k i hu => by
        rw [Live, hlive]
        exact h.notLive u k i (hsame u ▸ hu)
      pcOk := fun u => hpcs ▸ pcOk_update h hok u }

/-- Giving thread `t` a bit nobody owned keeps the owners unique. -/
private theorem unique_of_new {c : Nat × Nat}
    (howned : ∀ u, owned L (s'.pc u) =
      if u = t then some c else owned L (s.pc u))
    (hnone : ∀ u, owned L (s.pc u) ≠ some c)
    (hunique : ∀ u v d, owned L (s.pc u) = some d → owned L (s.pc v) = some d →
      u = v) :
    ∀ u v d, owned L (s'.pc u) = some d → owned L (s'.pc v) = some d → u = v := by
  intro u v d hu hv
  rw [howned] at hu hv
  by_cases hut : u = t
  · by_cases hvt : v = t
    · rw [hut, hvt]
    · rw [if_pos hut] at hu
      rw [if_neg hvt, ← hu] at hv
      exact (hnone v hv).elim
  · by_cases hvt : v = t
    · rw [if_pos hvt] at hv
      rw [if_neg hut, ← hv] at hu
      exact (hnone u hu).elim
    · rw [if_neg hut] at hu
      rw [if_neg hvt] at hv
      exact hunique u v d hu hv

/-- An exchange that sets a clear bit: thread `t` becomes its owner. -/
theorem Inv.acquire (h : Inv L s) {k i : Nat}
    (hpcs : s'.pc = Function.update s.pc t q) (hok : PcOk L q)
    (hbefore : owned L (s.pc t) = none) (hafter : owned L q = some (k, i))
    (hk : k < L.regionCount) (hclear : testBit (s.bitmap k) i = false)
    (hlen : ∀ j, (s'.bitmap j).length = (s.bitmap j).length)
    (hbits : ∀ j b, testBit (s'.bitmap j) b =
      (testBit (s.bitmap j) b || decide (j = k ∧ b = i)))
    (hlive : s'.live = s.live) (hhints : s'.hints = s.hints) : Inv L s' := by
  have hfree : ¬ (Live L s k i ∨ ∃ u, owned L (s.pc u) = some (k, i)) :=
    fun hheld => absurd ((h.bit k hk i).mpr hheld) (by simp [hclear])
  have hne : ∀ u, owned L (s.pc u) ≠ some (k, i) :=
    fun u hu => hfree (Or.inr ⟨u, hu⟩)
  have howned : ∀ u, owned L (s'.pc u) =
      if u = t then some (k, i) else owned L (s.pc u) := by
    intro u
    rw [hpcs, owned_update, hafter]
  exact
    { length := fun j => (hlen j).trans (h.length j)
      hints := fun j value hvalue => h.hints j value (hhints ▸ hvalue)
      nodup := hlive ▸ h.nodup
      blocks := fun p hp => h.blocks p (hlive ▸ hp)
      bit := fun j hj b => by
        rw [hbits, Bool.or_eq_true, decide_eq_true_eq, h.bit j hj b]
        simp only [howned, Live, hlive]
        constructor
        · rintro ((hheld | ⟨u, hu⟩) | ⟨rfl, rfl⟩)
          · exact Or.inl hheld
          · refine Or.inr ⟨u, ?_⟩
            have hut : u ≠ t := by
              rintro rfl
              simp [hbefore] at hu
            rwa [if_neg hut]
          · exact Or.inr ⟨t, if_pos rfl⟩
        · rintro (hheld | ⟨u, hu⟩)
          · exact Or.inl (Or.inl hheld)
          · by_cases hut : u = t
            · rw [if_pos hut] at hu
              right
              simpa [eq_comm] using hu
            · rw [if_neg hut] at hu
              exact Or.inl (Or.inr ⟨u, hu⟩)
      unique := unique_of_new howned hne h.unique
      notLive := fun u j b hu => by
        rw [Live, hlive]
        rw [howned] at hu
        by_cases hut : u = t
        · rw [if_pos hut, Option.some.injEq, Prod.mk.injEq] at hu
          obtain ⟨rfl, rfl⟩ := hu
          exact fun hheld => hfree (Or.inl hheld)
        · rw [if_neg hut] at hu
          exact h.notLive u j b hu
      pcOk := fun u => hpcs ▸ pcOk_update h hok u }

/-- After a step by which thread `t` gives its bit up, the other threads own what
they owned. -/
private theorem owned_of_dropped (hpcs : s'.pc = Function.update s.pc t q)
    (hafter : owned L q = none) {u : Nat} {c : Nat × Nat}
    (hu : owned L (s'.pc u) = some c) : u ≠ t ∧ owned L (s.pc u) = some c := by
  rw [hpcs, owned_update, hafter] at hu
  by_cases hut : u = t
  · simp [hut] at hu
  · exact ⟨hut, by rwa [if_neg hut] at hu⟩

private theorem owned_of_ne (hpcs : s'.pc = Function.update s.pc t q) {u : Nat}
    (hut : u ≠ t) : owned L (s'.pc u) = owned L (s.pc u) := by
  rw [hpcs, owned_update, if_neg hut]

/-- A `fetch_and` that clears the bit thread `t` owns. -/
theorem Inv.release (h : Inv L s) {k i : Nat}
    (hpcs : s'.pc = Function.update s.pc t q) (hok : PcOk L q)
    (hbefore : owned L (s.pc t) = some (k, i)) (hafter : owned L q = none)
    (hlen : ∀ j, (s'.bitmap j).length = (s.bitmap j).length)
    (hbits : ∀ j b, testBit (s'.bitmap j) b =
      (testBit (s.bitmap j) b && !decide (j = k ∧ b = i)))
    (hlive : s'.live = s.live) (hhints : s'.hints = s.hints) : Inv L s' where
  length j := (hlen j).trans (h.length j)
  hints j value hvalue := h.hints j value (hhints ▸ hvalue)
  nodup := hlive ▸ h.nodup
  blocks p hp := h.blocks p (hlive ▸ hp)
  bit j hj b := by
    rw [hbits, Bool.and_eq_true, Bool.not_eq_true', decide_eq_false_iff_not,
      h.bit j hj b]
    simp only [Live, hlive]
    constructor
    · rintro ⟨hheld | ⟨u, hu⟩, hne⟩
      · exact Or.inl hheld
      · refine Or.inr ⟨u, ?_⟩
        rw [owned_of_ne hpcs, hu]
        rintro rfl
        rw [hbefore, Option.some.injEq, Prod.mk.injEq] at hu
        exact hne ⟨hu.1.symm, hu.2.symm⟩
    · rintro (hheld | ⟨u, hu⟩)
      · refine ⟨Or.inl hheld, ?_⟩
        rintro ⟨rfl, rfl⟩
        exact h.notLive t _ _ hbefore hheld
      · obtain ⟨hut, hold⟩ := owned_of_dropped hpcs hafter hu
        refine ⟨Or.inr ⟨u, hold⟩, ?_⟩
        rintro ⟨rfl, rfl⟩
        exact hut (h.unique u t _ hold hbefore)
  unique u v c hu hv := h.unique u v c (owned_of_dropped hpcs hafter hu).2
    (owned_of_dropped hpcs hafter hv).2
  notLive u j b hu := by
    rw [Live, hlive]
    exact h.notLive u j b (owned_of_dropped hpcs hafter hu).2
  pcOk u := hpcs ▸ pcOk_update h hok u

/-- Returning block `i` of region `k` hands the bit from thread `t` to the user. -/
theorem Inv.handOut (hL : LayoutOk L) (h : Inv L s) {k i : Nat}
    (hpcs : s'.pc = Function.update s.pc t q) (hok : PcOk L q)
    (hbefore : owned L (s.pc t) = some (k, i)) (hafter : owned L q = none)
    (hk : k < L.regionCount) (hi : i < L.blockCount)
    (hbitmap : s'.bitmap = s.bitmap)
    (hlive : s'.live = indexToPtr L.blockSize (L.base k) i :: s.live)
    (hhints : s'.hints = s.hints) : Inv L s' where
  length j := hbitmap ▸ h.length j
  hints j value hvalue := h.hints j value (hhints ▸ hvalue)
  nodup := hlive ▸ List.nodup_cons.mpr
    ⟨fun hmem => h.notLive t k i hbefore ⟨hi, hmem⟩, h.nodup⟩
  blocks p hp := by
    rw [hlive] at hp
    rcases List.mem_cons.mp hp with rfl | hp
    · exact ⟨k, i, hk, hi, rfl⟩
    · exact h.blocks p hp
  bit j hj b := by
    rw [hbitmap, h.bit j hj b, Live, Live, hlive,
      hL.arena.liveIn_cons s.live hk hi hj b]
    constructor
    · rintro (hheld | ⟨u, hu⟩)
      · exact Or.inl (Or.inl hheld)
      · by_cases hut : u = t
        · rw [hut, hbefore, Option.some.injEq, Prod.mk.injEq] at hu
          exact Or.inl (Or.inr ⟨hu.1.symm, hu.2.symm⟩)
        · exact Or.inr ⟨u, (owned_of_ne hpcs hut).trans hu⟩
    · rintro ((hheld | ⟨rfl, rfl⟩) | ⟨u, hu⟩)
      · exact Or.inl hheld
      · exact Or.inr ⟨t, hbefore⟩
      · exact Or.inr ⟨u, (owned_of_dropped hpcs hafter hu).2⟩
  unique u v c hu hv := h.unique u v c (owned_of_dropped hpcs hafter hu).2
    (owned_of_dropped hpcs hafter hv).2
  notLive u j b hu := by
    obtain ⟨hut, hold⟩ := owned_of_dropped hpcs hafter hu
    have hj := (owned_bounds hL (h.pcOk u) hold).1
    rw [Live, hlive, hL.arena.liveIn_cons s.live hk hi hj b]
    rintro (hheld | ⟨rfl, rfl⟩)
    · exact h.notLive u j b hold hheld
    · exact hut (h.unique u t _ hold hbefore)
  pcOk u := hpcs ▸ pcOk_update h hok u

/-- A `dealloc` call takes block `i` of region `k` from the user to thread `t`. -/
theorem Inv.takeBack (hL : LayoutOk L) (h : Inv L s) {k i : Nat}
    (hpcs : s'.pc = Function.update s.pc t q) (hok : PcOk L q)
    (hbefore : owned L (s.pc t) = none) (hafter : owned L q = some (k, i))
    (hk : k < L.regionCount) (hheld : Live L s k i)
    (hbitmap : s'.bitmap = s.bitmap)
    (hlive : s'.live = s.live.erase (indexToPtr L.blockSize (L.base k) i))
    (hhints : s'.hints = s.hints) : Inv L s' := by
  have hi := hheld.1
  have hnone : ∀ u, owned L (s.pc u) ≠ some (k, i) :=
    fun u hu => h.notLive u k i hu hheld
  have howned : ∀ u, owned L (s'.pc u) =
      if u = t then some (k, i) else owned L (s.pc u) := by
    intro u
    rw [hpcs, owned_update, hafter]
  exact
    { length := fun j => hbitmap ▸ h.length j
      hints := fun j value hvalue => h.hints j value (hhints ▸ hvalue)
      nodup := hlive ▸ h.nodup.erase _
      blocks := fun p hp => h.blocks p (List.mem_of_mem_erase (hlive ▸ hp))
      bit := fun j hj b => by
        rw [hbitmap, h.bit j hj b, Live, Live, hlive,
          hL.arena.liveIn_erase h.nodup hk hi hj b]
        constructor
        · rintro (hlv | ⟨u, hu⟩)
          · by_cases hc : j = k ∧ b = i
            · exact Or.inr ⟨t, by rw [howned, if_pos rfl, hc.1, hc.2]⟩
            · exact Or.inl ⟨hlv, hc⟩
          · refine Or.inr ⟨u, ?_⟩
            rw [owned_of_ne hpcs, hu]
            rintro rfl
            simp [hbefore] at hu
        · rintro (⟨hlv, -⟩ | ⟨u, hu⟩)
          · exact Or.inl hlv
          · rw [howned] at hu
            by_cases hut : u = t
            · rw [if_pos hut, Option.some.injEq, Prod.mk.injEq] at hu
              obtain ⟨rfl, rfl⟩ := hu
              exact Or.inl hheld
            · rw [if_neg hut] at hu
              exact Or.inr ⟨u, hu⟩
      unique := unique_of_new howned hnone h.unique
      notLive := fun u j b hu => by
        rw [howned] at hu
        by_cases hut : u = t
        · rw [if_pos hut, Option.some.injEq, Prod.mk.injEq] at hu
          obtain ⟨rfl, rfl⟩ := hu
          rw [Live, hlive, hL.arena.liveIn_erase h.nodup hk hi hk i]
          exact fun hlv => hlv.2 ⟨rfl, rfl⟩
        · rw [if_neg hut] at hu
          have hj := (owned_bounds hL (h.pcOk u) hu).1
          rw [Live, hlive, hL.arena.liveIn_erase h.nodup hk hi hj b]
          exact fun hlv => h.notLive u j b hu hlv.1
      pcOk := fun u => hpcs ▸ pcOk_update h hok u }

end Moves

/-! ## One lemma for each step -/

section Steps

variable {L : Layout} {s s' : State} {t : Nat}

/-- Setting a bit through `writeWord`. -/
theorem testBit_writeWord_or {k wordIndex freeBit : Nat}
    (hword : wordIndex < (s.bitmap k).length) (hbit : freeBit < 64) (j b : Nat) :
    testBit ((s.writeWord k wordIndex
        (wordAt (s.bitmap k) wordIndex ||| (1#64 <<< freeBit))).bitmap j) b =
      (testBit (s.bitmap j) b ||
        decide (j = k ∧ b = wordIndex * 64 + freeBit)) := by
  by_cases hj : j = k
  · subst hj
    have hset := testBit_setBit (s.bitmap j) wordIndex freeBit b hword hbit
    simpa [State.writeWord, setBit, oneBit] using hset
  · simp [State.writeWord, hj]

/-- Clearing a bit through `writeWord`. -/
theorem testBit_writeWord_and {k wordIndex freeBit : Nat}
    (hword : wordIndex < (s.bitmap k).length) (hbit : freeBit < 64) (j b : Nat) :
    testBit ((s.writeWord k wordIndex
        (wordAt (s.bitmap k) wordIndex &&& ~~~(1#64 <<< freeBit))).bitmap j) b =
      (testBit (s.bitmap j) b &&
        !decide (j = k ∧ b = wordIndex * 64 + freeBit)) := by
  by_cases hj : j = k
  · subst hj
    have hset := testBit_clearBit (s.bitmap j) wordIndex freeBit b hword hbit
    simpa [State.writeWord, clearBit, oneBit] using hset
  · simp [State.writeWord, hj]

theorem length_writeWord (k wordIndex : Nat) (word : Word) (j : Nat) :
    ((s.writeWord k wordIndex word).bitmap j).length = (s.bitmap j).length := by
  by_cases hj : j = k
  · subst hj
    simp [State.writeWord]
  · simp [State.writeWord, hj]

private theorem hints_writeHint (h : Inv L s) {k value : Nat}
    (hvalue : value < L.wordCount) (j v : Nat)
    (hv : v ∈ (s.writeHint k value).hints j) : v < L.wordCount ∨ v = 0 := by
  by_cases hj : j = k
  · subst hj
    simp only [State.writeHint, Function.update_self, List.mem_cons] at hv
    rcases hv with rfl | hv
    · exact Or.inl hvalue
    · exact h.hints j v hv
  · simp only [State.writeHint, Function.update_of_ne hj] at hv
    exact h.hints j v hv

theorem Inv.callAlloc (h : Inv L s) {k : Nat}
    (hstep : exec L s (.callAlloc t k) = some s') : Inv L s' := by
  cases step_of_exec hstep with
  | callAlloc hpc hk =>
      exact h.quiet (t := t) (q := .loadHint _) rfl (by rw [hpc]; rfl) hk rfl rfl
        h.hints

theorem Inv.loadHint (hL : LayoutOk L) (h : Inv L s) {value : Nat}
    (hstep : exec L s (.loadHint t value) = some s') : Inv L s' := by
  cases step_of_exec hstep with
  | @loadHint _ k _ hpc hread =>
      have hk : PcOk L (.loadHint k) := hpc ▸ h.pcOk t
      have hstart := h.hints k value (hL.readable _ _ hread)
      exact h.quiet (t := t) (q := .loadWord k value 0) rfl (by rw [hpc]; rfl)
        ⟨hk, hstart⟩ rfl rfl h.hints

theorem Inv.loadWord (h : Inv L s)
    (hstep : exec L s (.loadWord t) = some s') : Inv L s' := by
  have hok := h.pcOk t
  cases step_of_exec hstep with
  | @full _ k start probe hpc hprobe hword =>
      rw [hpc] at hok
      exact h.quiet (t := t) (q := .loadWord k start (probe + 1)) rfl
        (by rw [hpc]; rfl) hok rfl rfl h.hints
  | @loaded _ k start probe hpc hprobe hopen =>
      rw [hpc] at hok
      obtain ⟨hk, hstart⟩ := hok
      exact h.quiet (t := t) (q := .exchange k start probe _) rfl
        (by rw [hpc]; rfl) ⟨hk, hstart, hprobe, hopen⟩ rfl rfl h.hints
  | exhausted hpc hprobe =>
      exact h.quiet (t := t) (q := .idle) rfl (by rw [hpc]; rfl) trivial rfl rfl
        h.hints

theorem Inv.exchange (h : Inv L s) {spurious : Bool}
    (hstep : exec L s (.exchange t spurious) = some s') : Inv L s' := by
  have hok := h.pcOk t
  cases step_of_exec hstep with
  | @claimed _ k start probe word hpc hsame =>
      -- the exchange succeeds on the word the thread has loaded
      rw [hpc] at hok
      obtain ⟨hk, -, hprobe, hopen⟩ := hok
      have hfree := findFreeBit_lt hopen
      have hword : probeIndex L.wordCount start probe < L.wordCount :=
        probeIndex_lt (Nat.zero_lt_of_lt hprobe)
      have hlen : probeIndex L.wordCount start probe < (s.bitmap k).length := by
        rw [h.length]
        exact hword
      rw [← hsame] at hopen hfree ⊢
      refine h.acquire (t := t) (k := k)
        (i := probeIndex L.wordCount start probe * 64 + findFreeBit _)
        rfl ⟨hk, hword, hfree⟩ (by rw [hpc]; rfl) rfl hk ?_
        (fun j => length_writeWord _ _ _ j)
        (testBit_writeWord_or hlen hfree) rfl rfl
      rw [testBit_index _ _ _ hfree]
      exact getLsbD_findFreeBit hopen
  | @overtaken _ k start probe word _ hpc _ _ =>
      rw [hpc] at hok
      obtain ⟨hk, hstart, -, -⟩ := hok
      exact h.quiet (t := t) (q := .loadWord k start (probe + 1)) rfl
        (by rw [hpc]; rfl) ⟨hk, hstart⟩ rfl rfl h.hints
  | @reloaded _ k start probe word _ hpc hcurrent =>
      rw [hpc] at hok
      obtain ⟨hk, hstart, hprobe, -⟩ := hok
      exact h.quiet (t := t) (q := .exchange k start probe _) rfl
        (by rw [hpc]; rfl) ⟨hk, hstart, hprobe, hcurrent⟩ rfl rfl h.hints

/-- The index of a claimed bit is computed without wrapping. -/
theorem wrap_claimed {wordIndex freeBit : Nat} (hword : wordIndex < L.wordCount)
    (hbit : freeBit < 64) :
    wrap (wordIndex * wordBits + freeBit) = wordIndex * 64 + freeBit := by
  have hwords := wordsFor_lt L.blockCount
  unfold Layout.wordCount at hword
  apply wrap_of_lt
  unfold wordBits
  omega

theorem Inv.settle (h : Inv L s)
    (hstep : exec L s (.settle t) = some s') : Inv L s' := by
  have hok := h.pcOk t
  cases step_of_exec hstep with
  | @undone _ k wordIndex freeBit hpc hpad =>
      rw [hpc] at hok
      obtain ⟨-, hword, hbit⟩ := hok
      have hlen : wordIndex < (s.bitmap k).length := by rw [h.length]; exact hword
      exact h.release (t := t) (q := .idle) (k := k) rfl trivial
        (by rw [hpc]; rfl) rfl (fun j => length_writeWord _ _ _ j)
        (testBit_writeWord_and hlen hbit) rfl rfl
  | @kept _ k wordIndex freeBit hpc hin =>
      rw [hpc] at hok
      obtain ⟨hk, hword, hbit⟩ := hok
      refine h.quiet (t := t) (q := .done k (wrap (wordIndex * wordBits + freeBit))) rfl
        ?_ ⟨hk, hin⟩ rfl rfl (hints_writeHint h hword)
      rw [wrap_claimed hword hbit, hpc]
      rfl

theorem Inv.ret (hL : LayoutOk L) (h : Inv L s)
    (hstep : exec L s (.ret t) = some s') : Inv L s' := by
  have hok := h.pcOk t
  cases step_of_exec hstep with
  | @ret _ k index hpc =>
      rw [hpc] at hok
      obtain ⟨hk, hindex⟩ := hok
      exact h.handOut hL (t := t) (q := .idle) (k := k) (i := index) rfl trivial
        (by rw [hpc]; rfl) rfl hk hindex rfl rfl rfl

/-- The address search of a `dealloc` finds the region of its block. -/
theorem Inv.callDealloc_eq (hL : LayoutOk L) (h : Inv L s) {ptr : Nat}
    (hstep : exec L s (.callDealloc t ptr) = some s') :
    ∃ k i, k < L.regionCount ∧ i < L.blockCount ∧
      ptr = indexToPtr L.blockSize (L.base k) i ∧ ptr ∈ s.live ∧
      s.pc t = .idle ∧
      s' = { s.goto t (.fetchAnd k ptr) with live := s.live.erase ptr } := by
  cases step_of_exec hstep with
  | callDealloc hpc hlive hlocate =>
      obtain ⟨k, i, hk, hi, rfl⟩ := h.blocks ptr hlive
      rw [hL.locate k i hk hi] at hlocate
      cases hlocate
      exact ⟨_, i, hk, hi, rfl, hlive, hpc, rfl⟩
  | ignored hpc hlive hlocate =>
      obtain ⟨k, i, hk, hi, rfl⟩ := h.blocks ptr hlive
      rw [hL.locate k i hk hi] at hlocate
      cases hlocate

theorem Inv.callDealloc (hL : LayoutOk L) (h : Inv L s) {ptr : Nat}
    (hstep : exec L s (.callDealloc t ptr) = some s') : Inv L s' := by
  obtain ⟨k, i, hk, hi, rfl, hmem, hidle, rfl⟩ := h.callDealloc_eq hL hstep
  have hindex := (hL.arena.placed k hk).ptrToIndex_indexToPtr hi
  exact h.takeBack hL (t := t) (q := .fetchAnd k _) (k := k) (i := i) rfl
    ⟨hk, i, hi, rfl⟩ (by rw [hidle]; rfl) (by rw [owned, hindex]) hk ⟨hi, hmem⟩
    rfl rfl rfl

/-- The `fetch_and` of a `dealloc` clears the bit of its block and no other. -/
theorem Inv.fetchAnd_eq (hL : LayoutOk L) (h : Inv L s)
    (hstep : exec L s (.fetchAnd t) = some s') :
    ∃ k i, k < L.regionCount ∧ i < L.blockCount ∧
      s.pc t = .fetchAnd k (indexToPtr L.blockSize (L.base k) i) ∧
      (∀ j, (s'.bitmap j).length = (s.bitmap j).length) ∧
      (∀ j b, testBit (s'.bitmap j) b =
        (testBit (s.bitmap j) b && !decide (j = k ∧ b = i))) ∧
      s'.pc = Function.update s.pc t (.storeHint k (i / wordBits)) ∧
      s'.hints = s.hints ∧ s'.live = s.live := by
  have hok := h.pcOk t
  cases step_of_exec hstep with
  | @fetchAnd _ k ptr hpc =>
      rw [hpc] at hok
      obtain ⟨hk, i, hi, rfl⟩ := hok
      have hindex := (hL.arena.placed k hk).ptrToIndex_indexToPtr hi
      have hfit : L.blockCount ≤ L.wordCount * 64 := le_wordsFor hL.count
      have hbit : i % wordBits < 64 := Nat.mod_lt _ (by decide)
      have hlen : i / wordBits < (s.bitmap k).length := by
        rw [h.length, wordBits]
        omega
      have hsplit : i / wordBits * 64 + i % wordBits = i := by
        unfold wordBits
        omega
      rw [hindex]
      refine ⟨k, i, hk, hi, hpc, fun j => length_writeWord _ _ _ j, ?_, rfl, rfl, rfl⟩
      intro j b
      have hwrite := testBit_writeWord_and (s := s) (k := k) hlen hbit j b
      rwa [hsplit] at hwrite

theorem Inv.fetchAnd (hL : LayoutOk L) (h : Inv L s)
    (hstep : exec L s (.fetchAnd t) = some s') : Inv L s' := by
  obtain ⟨k, i, hk, hi, hpc, hlen, hbits, hpcs, hhints, hlive⟩ :=
    h.fetchAnd_eq hL hstep
  have hfit : L.blockCount ≤ L.wordCount * 64 := le_wordsFor hL.count
  have hword : i / wordBits < L.wordCount := by
    unfold wordBits
    omega
  have hindex := (hL.arena.placed k hk).ptrToIndex_indexToPtr hi
  exact h.release hpcs ⟨hk, hword⟩ (by rw [hpc, owned, hindex]) rfl hlen hbits
    hlive hhints

theorem Inv.storeHint (h : Inv L s)
    (hstep : exec L s (.storeHint t) = some s') : Inv L s' := by
  have hok := h.pcOk t
  cases step_of_exec hstep with
  | storeHint hpc =>
      rw [hpc] at hok
      obtain ⟨-, hword⟩ := hok
      exact h.quiet (t := t) (q := .idle) rfl (by rw [hpc]; rfl) trivial rfl rfl
        (hints_writeHint h hword)

/-- The thread that takes the step. -/
def Event.thread : Event → Nat
  | .callAlloc t _ => t
  | .loadHint t _ => t
  | .loadWord t => t
  | .exchange t _ => t
  | .settle t => t
  | .ret t => t
  | .callDealloc t _ => t
  | .fetchAnd t => t
  | .storeHint t => t

/-- A step moves no other thread. -/
theorem exec_pc {e : Event} {u : Nat} (hstep : exec L s e = some s') (hu : u ≠ e.thread) :
    s'.pc u = s.pc u := by
  have hgoto : ∀ (r : State) (pc : Pc), r.pc = s.pc → (r.goto e.thread pc).pc u = s.pc u := by
    intro r pc hr
    rw [State.goto, hr]
    exact Function.update_of_ne hu _ _
  cases step_of_exec hstep with
  | ignored => rfl
  | _ => exact hgoto _ _ rfl

/-- The region an `alloc` is working on. -/
def servedBy : Pc → Option Nat
  | .loadHint k => some k
  | .loadWord k _ _ => some k
  | .exchange k _ _ _ => some k
  | .settle k _ _ => some k
  | .done k _ => some k
  | _ => none

private theorem servedBy_update {f : Nat → Pc} {u k : Nat} {pc : Pc}
    (hpc : servedBy pc = none ∨ servedBy pc = servedBy (f t))
    (h : servedBy (Function.update f t pc u) = some k) : servedBy (f u) = some k := by
  by_cases hu : u = t
  · subst hu
    rw [Function.update_self] at h
    rcases hpc with hnone | hsame
    · rw [hnone] at h
      cases h
    · rwa [hsame] at h
  · rwa [Function.update_of_ne hu] at h

/-- An `alloc` stays on the region it was called on. -/
theorem servedBy_exec {e : Event} {u k : Nat} (hstep : exec L s e = some s')
    (h : servedBy (s'.pc u) = some k) :
    servedBy (s.pc u) = some k ∨ e = .callAlloc u k := by
  cases step_of_exec hstep with
  | @callAlloc t r _ _ =>
      by_cases hu : u = t
      · subst hu
        simp only [State.goto, Function.update_self, servedBy,
          Option.some.injEq] at h
        exact Or.inr (by rw [h])
      · simp only [State.goto, Function.update_of_ne hu] at h
        exact Or.inl h
  | ignored => exact Or.inl h
  | loadHint hpc | full hpc | loaded hpc | claimed hpc | overtaken hpc | reloaded hpc
  | kept hpc =>
      -- still in the `alloc`
      exact Or.inl (servedBy_update (Or.inr (by rw [hpc]; rfl)) h)
  | exhausted | undone | ret | callDealloc | fetchAnd | storeHint =>
      -- in no `alloc` any more
      exact Or.inl (servedBy_update (Or.inl rfl) h)

theorem Inv.step (hL : LayoutOk L) (h : Inv L s) {e : Event}
    (hstep : exec L s e = some s') : Inv L s' := by
  cases e with
  | callAlloc t k => exact h.callAlloc hstep
  | loadHint t value => exact h.loadHint hL hstep
  | loadWord t => exact h.loadWord hstep
  | exchange t spurious => exact h.exchange hstep
  | settle t => exact h.settle hstep
  | ret t => exact h.ret hL hstep
  | callDealloc t ptr => exact h.callDealloc hL hstep
  | fetchAnd t => exact h.fetchAnd hL hstep
  | storeHint t => exact h.storeHint hstep

end Steps

/-- The invariant holds under every interleaving. -/
theorem inv_of_reachable {L : Layout} (hL : LayoutOk L) {s : State}
    (h : Reachable (steps L) s) : Inv L s := by
  refine Reachable.invariant ?_ ?_ h
  · rintro s rfl
    exact inv_start L
  · intro s e s' _ hs hstep
    exact hs.step hL hstep

/-! ## What the invariant says -/

/-- Who may be answerable for a set bit. -/
inductive Owner
  | user
  | allocating (thread : Nat)
  | freeing (thread : Nat)
  deriving Repr, DecidableEq

/-- Thread `t` has claimed bit `i` of region `k` and is about to settle it. -/
def Settling (s : State) (t k i : Nat) : Prop :=
  ∃ wordIndex freeBit, s.pc t = .settle k wordIndex freeBit ∧
    i = wordIndex * 64 + freeBit

/-- `o` is answerable for bit `i` of region `k`: the user holds the block, an
`alloc` has claimed the bit and not returned, or a `dealloc` has yet to clear it. -/
def Owns (L : Layout) (s : State) (k i : Nat) : Owner → Prop
  | .user => Live L s k i
  | .allocating t => Settling s t k i ∨ s.pc t = .done k i
  | .freeing t => ∃ ptr, s.pc t = .fetchAnd k ptr ∧
      i = ptrToIndex L.blockSize (L.base k) ptr

section Consequences

variable {L : Layout} {s s' : State} {t k i : Nat}

theorem owned_of_owns {o : Owner} (h : Owns L s k i o) :
    (o = .user ∧ Live L s k i) ∨ ∃ u, owned L (s.pc u) = some (k, i) ∧
      (o = .allocating u ∨ o = .freeing u) := by
  cases o with
  | user => exact Or.inl ⟨rfl, h⟩
  | allocating u =>
      refine Or.inr ⟨u, ?_, Or.inl rfl⟩
      rcases h with ⟨wordIndex, freeBit, hpc, rfl⟩ | hpc <;> rw [hpc] <;> rfl
  | freeing u =>
      obtain ⟨ptr, hpc, rfl⟩ := h
      exact Or.inr ⟨u, by rw [hpc]; rfl, Or.inr rfl⟩

theorem owns_of_owned (h : owned L (s.pc t) = some (k, i)) :
    Owns L s k i (.allocating t) ∨ Owns L s k i (.freeing t) := by
  cases hpc : s.pc t with
  | settle k' wordIndex freeBit =>
      rw [hpc] at h
      simp only [owned, Option.some.injEq, Prod.mk.injEq] at h
      obtain ⟨rfl, rfl⟩ := h
      exact Or.inl (Or.inl ⟨wordIndex, freeBit, hpc, rfl⟩)
  | done k' index =>
      rw [hpc] at h
      simp only [owned, Option.some.injEq, Prod.mk.injEq] at h
      obtain ⟨rfl, rfl⟩ := h
      exact Or.inl (Or.inr hpc)
  | fetchAnd k' ptr =>
      rw [hpc] at h
      simp only [owned, Option.some.injEq, Prod.mk.injEq] at h
      obtain ⟨rfl, rfl⟩ := h
      exact Or.inr ⟨ptr, hpc, rfl⟩
  | _ => simp [hpc, owned] at h

/-- A bit is set exactly while somebody is answerable for it. -/
theorem Inv.bit_iff_owns (h : Inv L s) (hk : k < L.regionCount) (i : Nat) :
    testBit (s.bitmap k) i = true ↔ ∃ o, Owns L s k i o := by
  rw [h.bit k hk i]
  constructor
  · rintro (hlive | ⟨u, hu⟩)
    · exact ⟨.user, hlive⟩
    · rcases owns_of_owned hu with ho | ho
      · exact ⟨_, ho⟩
      · exact ⟨_, ho⟩
  · rintro ⟨o, ho⟩
    rcases owned_of_owns ho with ⟨-, hlive⟩ | ⟨u, hu, -⟩
    · exact Or.inl hlive
    · exact Or.inr ⟨u, hu⟩

/-- A thread at one program counter cannot be answerable in two ways. -/
private theorem not_allocating_and_freeing {u : Nat}
    (ha : Owns L s k i (.allocating u)) (hf : Owns L s k i (.freeing u)) : False := by
  obtain ⟨ptr, hfetch, -⟩ := hf
  rcases ha with ⟨wordIndex, freeBit, hsettle, -⟩ | hdone
  · rw [hfetch] at hsettle
    cases hsettle
  · rw [hfetch] at hdone
    cases hdone

/-- Nobody shares a bit. -/
theorem Inv.owner_unique (h : Inv L s) {o o' : Owner} (ho : Owns L s k i o)
    (ho' : Owns L s k i o') : o = o' := by
  rcases owned_of_owns ho with ⟨rfl, hlive⟩ | ⟨u, hu, hcase⟩
  · rcases owned_of_owns ho' with ⟨rfl, -⟩ | ⟨v, hv, -⟩
    · rfl
    · exact (h.notLive v k i hv hlive).elim
  · rcases owned_of_owns ho' with ⟨rfl, hlive⟩ | ⟨v, hv, hcase'⟩
    · exact (h.notLive u k i hu hlive).elim
    · have huv := h.unique u v (k, i) hu hv
      subst huv
      rcases hcase with rfl | rfl <;> rcases hcase' with rfl | rfl
      · rfl
      · exact (not_allocating_and_freeing ho ho').elim
      · exact (not_allocating_and_freeing ho' ho).elim
      · rfl

/-- A set padding bit belongs to the one thread that is about to roll it back. -/
theorem Inv.padding_settling (hL : LayoutOk L) (h : Inv L s)
    (hk : k < L.regionCount) (hpad : L.blockCount ≤ i)
    (hbit : testBit (s.bitmap k) i = true) : ∃! u, Settling s u k i := by
  have hsettling : ∀ u, owned L (s.pc u) = some (k, i) → Settling s u k i := by
    intro u hu
    rcases owns_of_owned hu with (hset | hdone) | ⟨ptr, hfetch, hindex⟩
    · exact hset
    · have hok := h.pcOk u
      rw [hdone] at hok
      exact absurd hok.2 (by omega)
    · have hok := h.pcOk u
      rw [hfetch] at hok
      obtain ⟨-, j, hj, rfl⟩ := hok
      rw [(hL.arena.placed k hk).ptrToIndex_indexToPtr hj] at hindex
      omega
  rcases (h.bit k hk i).mp hbit with hlive | ⟨u, hu⟩
  · exact absurd hlive.1 (by omega)
  · refine ⟨u, hsettling u hu, ?_⟩
    rintro v ⟨wordIndex, freeBit, hpc, rfl⟩
    refine h.unique v u _ ?_ hu
    rw [hpc]
    rfl

/-- What a non-null `alloc` returns: an in-range block nobody holds. -/
theorem Inv.ret_eq (hL : LayoutOk L) (h : Inv L s)
    (hstep : exec L s (.ret t) = some s') :
    ∃ k i, s.pc t = .done k i ∧ k < L.regionCount ∧ i < L.blockCount ∧
      s'.live = (L.base k + i * L.blockSize) :: s.live ∧
      L.base k + i * L.blockSize ∉ s.live ∧ L.base k + i * L.blockSize ≠ 0 := by
  have hok := h.pcOk t
  cases step_of_exec hstep with
  | @ret _ k i hpc =>
      rw [hpc] at hok
      obtain ⟨hk, hi⟩ := hok
      have hplaced := hL.arena.placed k hk
      have hptr := hplaced.indexToPtr_eq hi
      have hfresh := h.notLive t k i (by rw [hpc]; rfl)
      have hne := hplaced.indexToPtr_ne_zero hi
      rw [hptr] at hne
      refine ⟨k, i, hpc, hk, hi, by simp only [hptr], ?_, hne⟩
      intro hmem
      exact hfresh ⟨hi, by rwa [hptr]⟩

/-- Two blocks with different indices or in different regions do not overlap. -/
theorem LayoutOk.blocks_disjoint (hL : LayoutOk L) {j b : Nat}
    (hk : k < L.regionCount) (hj : j < L.regionCount) (hi : i < L.blockCount)
    (hb : b < L.blockCount) (hne : ¬ (k = j ∧ i = b)) :
    L.base k + i * L.blockSize + L.blockSize ≤ L.base j + b * L.blockSize ∨
      L.base j + b * L.blockSize + L.blockSize ≤ L.base k + i * L.blockSize := by
  have hiEnd : L.base k + i * L.blockSize + L.blockSize ≤ _ := block_end_le hi
  have hbEnd : L.base j + b * L.blockSize + L.blockSize ≤ _ := block_end_le hb
  by_cases hkj : k = j
  · subst hkj
    have hib : i ≠ b := fun heq => hne ⟨rfl, heq⟩
    rcases Nat.lt_or_gt_of_ne hib with hlt | hgt
    · exact Or.inl (block_end_le hlt)
    · exact Or.inr (block_end_le hgt)
  · rcases hL.arena.disjoint k j hk hj hkj with hle | hle <;> omega

/-- Live blocks do not overlap. -/
theorem Inv.live_disjoint (hL : LayoutOk L) (h : Inv L s) {p q : Nat}
    (hp : p ∈ s.live) (hq : q ∈ s.live) (hne : p ≠ q) :
    p + L.blockSize ≤ q ∨ q + L.blockSize ≤ p := by
  obtain ⟨k, i, hk, hi, rfl⟩ := h.blocks p hp
  obtain ⟨j, b, hj, hb, rfl⟩ := h.blocks q hq
  rw [(hL.arena.placed k hk).indexToPtr_eq hi,
    (hL.arena.placed j hj).indexToPtr_eq hb]
  refine hL.blocks_disjoint hk hj hi hb ?_
  rintro ⟨rfl, rfl⟩
  exact hne rfl

/-- Settling a claimed bit, rollback or not, clears no bit of another owner. -/
theorem Inv.settle_keeps (h : Inv L s) (hk : k < L.regionCount) {o : Owner}
    (ho : Owns L s k i o) (hother : o ≠ .allocating t)
    (hstep : exec L s (.settle t) = some s') : testBit (s'.bitmap k) i = true := by
  have hset := (h.bit_iff_owns hk i).mpr ⟨o, ho⟩
  have hok := h.pcOk t
  cases step_of_exec hstep with
  | @undone _ k' wordIndex freeBit hpc _ =>
      rw [hpc] at hok
      obtain ⟨-, hword, hbit⟩ := hok
      have hlen : wordIndex < (s.bitmap k').length := by rw [h.length]; exact hword
      refine (testBit_writeWord_and hlen hbit k i).trans ?_
      rw [hset, Bool.true_and, Bool.not_eq_true', decide_eq_false_iff_not]
      rintro ⟨rfl, rfl⟩
      exact hother (h.owner_unique ho (Or.inl ⟨wordIndex, freeBit, hpc, rfl⟩))
  | kept => exact hset

end Consequences

end PoolMemalloc.Ports.RegionInterleaving
