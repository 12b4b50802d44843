import PoolMemalloc.Ports.BitmapInterleaving

/-!
# What a null result of a concurrent `alloc` means

`alloc` loads the words one after another while other threads claim and free blocks,
so a null result says only that each word was full when it was loaded.  A history of
the words since the call began (`Moments`) makes that precise, for a block count that
leaves no padding bits:

* `null_full` — each word was full at some moment of the call, so no block was free at
  all of them; and if no `dealloc` cleared a bit meanwhile, all were full at the end.
* `null_never_full` — the words need not have been full at the same moment: blocks 0
  and 127 of 128 change places while the call is on its way from one to the other.
-/

namespace PoolMemalloc.Ports.ExhaustionMoments

open PoolMemalloc.Verified.SizeT
open PoolMemalloc.Verified.WordBitmap
open PoolMemalloc.Verified.Transition
open PoolMemalloc.Ports.BlockArray
open PoolMemalloc.Ports.BitmapRegion
open PoolMemalloc.Ports.BitmapAllocator (Allocator Constructed)
open PoolMemalloc.Ports.RegionInterleaving
open PoolMemalloc.Ports.BitmapInterleaving (layout layout_ok)

/-- For each thread, since its last call of `alloc`: the words at each moment, the
latest first, and whether a `dealloc` has cleared a bit. -/
structure Moments where
  words : Nat → List (List Word)
  cleared : Nat → Bool

/-- The step is the beginning of an `alloc` of thread `t`. -/
def begins : Event → Nat → Bool
  | .callAlloc u _, t => u == t
  | _, _ => false

/-- The step is the `fetch_and` of a `dealloc`. -/
def clears : Event → Bool
  | .fetchAnd _ => true
  | _ => false

def note (_ : RegionInterleaving.State) (e : Event) (s' : RegionInterleaving.State)
    (h : Moments) : Moments where
  words t := if begins e t then [s'.bitmap 0] else s'.bitmap 0 :: h.words t
  cleared t := !begins e t && (h.cleared t || clears e)

/-- All interleavings of the threads' steps, with the moments of the running calls. -/
def observed (a : Allocator) : System (RegionInterleaving.State × Moments) Event :=
  recorded (fun s => s = start (layout a)) (exec (layout a)) ⟨fun _ => [], fun _ => false⟩
    note

/-- The step ends a call of `alloc` of thread `t` without a block. -/
def ReturnsNull (s s' : RegionInterleaving.State) (e : Event) (t : Nat) : Prop :=
  servedBy (s.pc t) ≠ none ∧ s'.pc t = .idle ∧ e ≠ .ret t

/-! ## The words an `alloc` has passed -/

/-- Where the probing loop has started and how many words it has passed. -/
def passed : Pc → Option (Nat × Nat)
  | .loadWord _ start probe => some (start, probe)
  | .exchange _ start probe _ => some (start, probe)
  | _ => none

/-- Each of the words passed was full at a moment of the call, and still is unless a
bit has been cleared. -/
def Scanned (wordCount : Nat) (s : RegionInterleaving.State × Moments) (t : Nat) : Prop :=
  ∀ start probe, passed (s.1.pc t) = some (start, probe) → ∀ p, p < probe →
    (∃ m ∈ s.2.words t, wordAt m (probeIndex wordCount start p) = FULL) ∧
      (s.2.cleared t = false →
        wordAt (s.1.bitmap 0) (probeIndex wordCount start p) = FULL)

section Steps

variable {L : Layout} {s s' : RegionInterleaving.State} {e : Event} {t : Nat}

/-- Without padding bits only a `dealloc` takes a bit out of a full word. -/
theorem full_kept (hone : L.regionCount = 1) (hfull : L.wordCount * 64 ≤ L.blockCount)
    (h : Inv L s) (hstep : exec L s e = some s') (hkeeps : clears e = false) {w : Nat}
    (hw : wordAt (s.bitmap 0) w = FULL) : wordAt (s'.bitmap 0) w = FULL := by
  cases step_of_exec hstep with
  | @claimed t k start probe word hpc hword =>
      have hok := h.pcOk t
      rw [hpc] at hok
      obtain ⟨hk, -, hprobe, hopen⟩ := hok
      obtain rfl : k = 0 := by omega
      have hlen : probeIndex L.wordCount start probe < (s.bitmap 0).length := by
        rw [h.length]
        exact probeIndex_lt (Nat.zero_lt_of_lt hprobe)
      -- the word that changes was not full
      have hne : w ≠ probeIndex L.wordCount start probe := by
        rintro rfl
        exact hopen (hword.symm.trans hw)
      simp only [State.goto, State.writeWord, Function.update_self]
      rw [wordAt_set _ _ _ _ hlen, if_neg hne]
      exact hw
  | @undone t k wordIndex freeBit hpc hpad =>
      have hok := h.pcOk t
      rw [hpc] at hok
      obtain ⟨-, hword, hbit⟩ := hok
      rw [wrap_claimed hword hbit] at hpad
      omega
  | fetchAnd => simp [clears] at hkeeps
  | _ => exact hw

/-- A step of the loop leaves the probe where it is, or takes it past a word that is
full, and changes no word as it does. -/
theorem passed_exec (hone : L.regionCount = 1) (h : Inv L s) (hstep : exec L s e = some s')
    {start probe : Nat} (hpassed : passed (s'.pc e.thread) = some (start, probe)) :
    probe = 0 ∨ passed (s.pc e.thread) = some (start, probe) ∨
      ∃ p, probe = p + 1 ∧ passed (s.pc e.thread) = some (start, p) ∧
        wordAt (s'.bitmap 0) (probeIndex L.wordCount start p) = FULL := by
  have hzero : ∀ t k, (∃ start probe, s.pc t = .loadWord k start probe) ∨
      (∃ start probe word, s.pc t = .exchange k start probe word) → k = 0 := by
    intro t k hpc
    have hok := h.pcOk t
    rcases hpc with ⟨_, _, hpc⟩ | ⟨_, _, _, hpc⟩ <;> rw [hpc] at hok <;>
      exact Nat.lt_one_iff.mp (hone ▸ hok.1)
  cases step_of_exec hstep with
  | loadHint =>
      simp only [Event.thread, State.goto, Function.update_self, passed,
        Option.some.injEq, Prod.mk.injEq] at hpassed
      exact Or.inl hpassed.2.symm
  | full hpc _ hword =>
      obtain rfl := hzero _ _ (Or.inl ⟨_, _, hpc⟩)
      simp only [Event.thread, State.goto, Function.update_self, passed,
        Option.some.injEq, Prod.mk.injEq] at hpassed
      obtain ⟨rfl, rfl⟩ := hpassed
      exact Or.inr (Or.inr ⟨_, rfl, by simp [Event.thread, hpc, passed], hword⟩)
  | overtaken hpc hword =>
      obtain rfl := hzero _ _ (Or.inr ⟨_, _, _, hpc⟩)
      simp only [Event.thread, State.goto, Function.update_self, passed,
        Option.some.injEq, Prod.mk.injEq] at hpassed
      obtain ⟨rfl, rfl⟩ := hpassed
      exact Or.inr (Or.inr ⟨_, rfl, by simp [Event.thread, hpc, passed], hword⟩)
  | loaded hpc | reloaded hpc =>
      simp only [Event.thread, State.goto, Function.update_self, passed,
        Option.some.injEq, Prod.mk.injEq] at hpassed
      obtain ⟨rfl, rfl⟩ := hpassed
      exact Or.inr (Or.inl (by simp [Event.thread, hpc, passed]))
  | ignored hpc => simp [Event.thread, hpc, passed] at hpassed
  | _ => simp [Event.thread, State.goto, passed] at hpassed

/-- Without padding bits null is returned only by the loop, after its last word. -/
theorem returnsNull_eq (hfull : L.wordCount * 64 ≤ L.blockCount) (h : Inv L s)
    (hstep : exec L s e = some s') (hnull : ReturnsNull s s' e t) :
    ∃ k start probe, e = .loadWord t ∧ s.pc t = .loadWord k start probe ∧
      L.wordCount ≤ probe ∧ s'.bitmap = s.bitmap := by
  obtain ⟨hserved, hidle, hret⟩ := hnull
  have hactor : t = e.thread := by
    by_contra hne
    rw [← exec_pc hstep hne, hidle] at hserved
    exact hserved rfl
  subst hactor
  cases step_of_exec hstep with
  | exhausted hpc hprobe => exact ⟨_, _, _, rfl, hpc, hprobe, rfl⟩
  | @undone t k wordIndex freeBit hpc hpad =>
      have hok := h.pcOk t
      rw [hpc] at hok
      obtain ⟨-, hword, hbit⟩ := hok
      rw [wrap_claimed hword hbit] at hpad
      omega
  | ret => exact (hret rfl).elim
  | callDealloc hpc | ignored hpc | fetchAnd hpc | storeHint hpc =>
      -- no `alloc` is running
      simp [Event.thread, hpc, servedBy] at hserved
  | _ => simp [Event.thread, State.goto] at hidle

end Steps

section Runs

variable {blockSize blockCount : Nat} {a : Allocator}
variable {s s' : RegionInterleaving.State × Moments} {e : Event} {t : Nat}

/-- What has been noted of a call stays noted until the thread calls again. -/
theorem mem_words_of_record (hstep : record (exec (layout a)) note s e = some s')
    (hbegins : begins e t = false) {m : List Word} (hm : m ∈ s.2.words t) :
    m ∈ s'.2.words t := by
  rw [(record_eq hstep).2, note]
  simp only [hbegins, Bool.false_eq_true, if_false]
  exact List.mem_cons_of_mem _ hm

theorem now_mem_words (hstep : record (exec (layout a)) note s e = some s') (t : Nat) :
    s'.1.bitmap 0 ∈ s'.2.words t := by
  rw [(record_eq hstep).2, note]
  dsimp only
  split <;> exact List.mem_cons_self

theorem kept_of_cleared (hstep : record (exec (layout a)) note s e = some s')
    (hbegins : begins e t = false) (hcleared : s'.2.cleared t = false) :
    s.2.cleared t = false ∧ clears e = false := by
  rw [(record_eq hstep).2, note] at hcleared
  simpa [hbegins] using hcleared

/-- The first step of a call has passed no word. -/
theorem passed_of_begins (hstep : exec (layout a) s.1 e = some s'.1)
    (hbegins : begins e t = true) : passed (s'.1.pc t) = none := by
  cases e with
  | callAlloc u k =>
      obtain rfl : u = t := by simpa [begins] using hbegins
      simp only [exec, Option.ite_none_right_eq_some, Option.some.injEq] at hstep
      obtain ⟨-, heq⟩ := hstep
      rw [← heq]
      simp [State.goto, passed]
  | _ => simp [begins] at hbegins

theorem Scanned.step (hone : (layout a).regionCount = 1)
    (hfull : (layout a).wordCount * 64 ≤ (layout a).blockCount)
    (hinv : Inv (layout a) s.1) (h : Scanned (layout a).wordCount s t)
    (hstep : record (exec (layout a)) note s e = some s') :
    Scanned (layout a).wordCount s' t := by
  intro start probe hpassed p hp
  have hexec := (record_eq hstep).1
  have hbegins : begins e t = false := by
    by_contra hbegins
    rw [passed_of_begins hexec (by simpa using hbegins)] at hpassed
    cases hpassed
  -- words passed before the step stay passed
  have hold : ∀ q, passed (s.1.pc t) = some (start, q) → p < q →
      (∃ m ∈ s'.2.words t, wordAt m (probeIndex (layout a).wordCount start p) = FULL) ∧
        (s'.2.cleared t = false →
          wordAt (s'.1.bitmap 0) (probeIndex (layout a).wordCount start p) = FULL) := by
    intro q hq hlt
    obtain ⟨⟨m, hm, hword⟩, hnow⟩ := h start q hq p hlt
    refine ⟨⟨m, mem_words_of_record hstep hbegins hm, hword⟩, fun hcleared => ?_⟩
    obtain ⟨hbefore, hkeeps⟩ := kept_of_cleared hstep hbegins hcleared
    exact full_kept hone hfull hinv hexec hkeeps (hnow hbefore)
  by_cases hactor : t = e.thread
  · subst hactor
    rcases passed_exec hone hinv hexec hpassed with rfl | hsame | ⟨q, rfl, hq, hword⟩
    · exact (Nat.not_lt_zero p hp).elim
    · exact hold probe hsame hp
    · rcases Nat.lt_or_eq_of_le (Nat.le_of_lt_succ hp) with hlt | rfl
      · exact hold q hq hlt
      · exact ⟨⟨_, now_mem_words hstep _, hword⟩, fun _ => hword⟩
  · rw [exec_pc hexec hactor] at hpassed
    exact hold probe hpassed hp

theorem layout_full (ha : Constructed blockSize blockCount a) (hdvd : 64 ∣ blockCount) :
    (layout a).blockCount = blockCount ∧ (layout a).wordCount * 64 = blockCount := by
  obtain ⟨heq, -, hcount⟩ := ha.placed
  have hblocks : (layout a).blockCount = blockCount := by
    rw [layout, heq]
    rfl
  refine ⟨hblocks, ?_⟩
  rw [Layout.wordCount, hblocks]
  exact wordsFor_of_dvd (by omega) hdvd

theorem scanned_of_reachable (ha : Constructed blockSize blockCount a)
    (hdvd : 64 ∣ blockCount) (h : Reachable (observed a) s) (t : Nat) :
    Scanned (layout a).wordCount s t := by
  have hL := layout_ok ha
  obtain ⟨hblocks, hwords⟩ := layout_full ha hdvd
  refine Reachable.invariant (P := fun s => ∀ t, Scanned (layout a).wordCount s t)
    ?_ ?_ h t
  · rintro ⟨s, m⟩ ⟨rfl, -⟩ t begun probe hpassed
    simp [start, passed] at hpassed
  · intro s e s' hreach hscanned hstep t
    exact (hscanned t).step rfl (Nat.le_of_eq (hwords.trans hblocks.symm))
      (inv_of_reachable hL hreach.forget) hstep

/-- A bit of a full word is set. -/
theorem testBit_of_full {bitmap : List Word} {i : Nat}
    (h : wordAt bitmap (i / 64) = FULL) : testBit bitmap i = true := by
  rw [testBit, h, FULL, BitVec.getLsbD_allOnes]
  exact decide_eq_true (Nat.mod_lt _ (by decide))

end Runs

/-- When a concurrent `alloc` returns null, each word was full at some moment since it
was called, so no block was free all the time; and unless a `dealloc` has cleared a bit
since, all bits are set. -/
theorem null_full (blockSize blockCount : Nat) (a : Allocator)
    (ha : Constructed blockSize blockCount a) (hpos : 0 < blockCount)
    (hdvd : 64 ∣ blockCount) (s s' : RegionInterleaving.State × Moments) (e : Event)
    (t : Nat) (h : Reachable (observed a) s) (hstep : (observed a).step s e s')
    (hnull : ReturnsNull s.1 s'.1 e t) :
    (∀ k, k < wordsFor blockCount → ∃ m ∈ s'.2.words t, wordAt m k = FULL) ∧
      (∀ i, i < blockCount → ∃ m ∈ s'.2.words t, testBit m i = true) ∧
      (s'.2.cleared t = false →
        ∀ i, i < blockCount → testBit (s'.1.bitmap 0) i = true) := by
  obtain ⟨hblocks, hwords⟩ := layout_full ha hdvd
  have hinv := inv_of_reachable (layout_ok ha) h.forget
  have hrecord : record (exec (layout a)) note s e = some s' := hstep
  obtain ⟨k, start, probe, rfl, hpc, hlast, hsame⟩ :=
    returnsNull_eq (Nat.le_of_eq (hwords.trans hblocks.symm)) hinv (record_eq hrecord).1 hnull
  have hscanned := scanned_of_reachable ha hdvd h t start probe (by rw [hpc, passed])
  have hok := hinv.pcOk t
  rw [hpc] at hok
  have hstart : start < (layout a).wordCount := by
    rcases hok.2 with hlt | hzero <;> omega
  have hbound : (layout a).wordCount < 2 ^ 58 := wordsFor_lt _
  have hcount : (layout a).wordCount = wordsFor blockCount := by
    rw [Layout.wordCount, hblocks]
  -- a whole round of probes has met every word
  have hword : ∀ k, k < wordsFor blockCount →
      (∃ m ∈ s'.2.words t, wordAt m k = FULL) ∧
        (s'.2.cleared t = false → wordAt (s'.1.bitmap 0) k = FULL) := by
    intro k hk
    obtain ⟨p, hp, rfl⟩ := exists_probe hbound hstart (hcount ▸ hk)
    obtain ⟨⟨m, hm, hfull⟩, hnow⟩ := hscanned p (Nat.lt_of_lt_of_le hp hlast)
    refine ⟨⟨m, mem_words_of_record hrecord rfl hm, hfull⟩, fun hcleared => ?_⟩
    rw [hsame]
    exact hnow (kept_of_cleared hrecord rfl hcleared).1
  have hdiv : ∀ i, i < blockCount → i / 64 < wordsFor blockCount := fun i hi => by omega
  refine ⟨fun k hk => (hword k hk).1, fun i hi => ?_, fun hcleared i hi => ?_⟩
  · obtain ⟨m, hm, hfull⟩ := (hword _ (hdiv i hi)).1
    exact ⟨m, hm, testBit_of_full hfull⟩
  · exact testBit_of_full ((hword _ (hdiv i hi)).2 hcleared)

/-! ## A pool of 128 blocks -/

/-- Two words of 64 blocks. -/
def pool128 : Allocator := ⟨64, fresh 4096 128⟩

theorem pool128_constructed : Constructed 64 128 pool128 where
  sizes := by decide
  made := ⟨_, fun _ => 16384, @alignedAlloc_fixed 4096 8192 (by decide) (by decide), rfl⟩

/-- An undisturbed `alloc` of thread `t` that finds word `hint` not full. -/
def allocOnce (t hint : Nat) : List Event :=
  [.callAlloc t 0, .loadHint t hint, .loadWord t, .exchange t false, .settle t, .ret t]

/-- Thread 0 takes blocks 0 to 126, gives block 0 back and takes it again, which leaves
the hint at word 0. -/
def fill : List Event :=
  (List.replicate 64 (allocOnce 0 0)).flatten ++
    [.callAlloc 0 0, .loadHint 0 0, .loadWord 0, .loadWord 0, .exchange 0 false,
      .settle 0, .ret 0] ++
    (List.replicate 62 (allocOnce 0 1)).flatten ++
    [.callDealloc 0 4096, .fetchAnd 0, .storeHint 0] ++ allocOnce 0 0

/-- Thread 0 has found word 0 full when thread 1 frees block 0; before thread 0 loads
word 1, thread 2 takes block 127, the last one there. -/
def crossing : List Event :=
  [.callAlloc 0 0, .loadHint 0 0, .loadWord 0,
    .callAlloc 2 0, .loadHint 2 0, .loadWord 2, .loadWord 2,
    .callDealloc 1 4096, .fetchAnd 1, .exchange 2 false, .loadWord 0]

/-- Thread 0 is about to return null, and at each moment of its call block 0 or block
127 was free. -/
private theorem crossing_null : ∃ s s', Reachable (observed pool128) s ∧
    (observed pool128).step s (.loadWord 0) s' ∧ ReturnsNull s.1 s'.1 (.loadWord 0) 0 ∧
    ∀ m ∈ s'.2.words 0, testBit m 0 = false ∨ testBit m 127 = false := by
  have hrun : (replay (record (exec (layout pool128)) note)
      (start (layout pool128), ⟨fun _ => [], fun _ => false⟩) (fill ++ crossing)).any
        (fun s => (record (exec (layout pool128)) note s (.loadWord 0)).any fun s' =>
          (servedBy (s.1.pc 0)).isSome && decide (s'.1.pc 0 = .idle) &&
            (s'.2.words 0).all fun m => !testBit m 0 || !testBit m 127) = true := by
    decide +kernel
  obtain ⟨s, hs, hlast⟩ := (Option.any_eq_true _ _).mp hrun
  obtain ⟨s', hs', hcheck⟩ := (Option.any_eq_true _ _).mp hlast
  simp only [Bool.and_eq_true, decide_eq_true_eq, List.all_eq_true, Bool.or_eq_true,
    Bool.not_eq_true', Option.isSome_iff_ne_none] at hcheck
  obtain ⟨⟨hserved, hidle⟩, hmoments⟩ := hcheck
  exact ⟨s, s', Reachable.replay _ (.init ⟨rfl, rfl⟩) hs, hs',
    ⟨hserved, hidle, by decide⟩, hmoments⟩

/-- A null result although the blocks were never all taken during the call. -/
theorem null_never_full : ∃ s s', Constructed 64 128 pool128 ∧
    Reachable (observed pool128) s ∧ (observed pool128).step s (.loadWord 0) s' ∧
    ReturnsNull s.1 s'.1 (.loadWord 0) 0 ∧
    ¬ ∃ m ∈ s'.2.words 0, ∀ i, i < 128 → testBit m i = true := by
  obtain ⟨s, s', hreach, hstep, hnull, hmoments⟩ := crossing_null
  refine ⟨s, s', pool128_constructed, hreach, hstep, hnull, ?_⟩
  rintro ⟨m, hm, hall⟩
  rcases hmoments m hm with hfree | hfree
  · exact absurd (hall 0 (by decide)) (by simp [hfree])
  · exact absurd (hall 127 (by decide)) (by simp [hfree])

/-- What that null result does mean. -/
theorem null_full_crossing : ∃ s s', Reachable (observed pool128) s ∧
    (observed pool128).step s (.loadWord 0) s' ∧
    (∀ k, k < wordsFor 128 → ∃ m ∈ s'.2.words 0, wordAt m k = FULL) ∧
      (∀ i, i < 128 → ∃ m ∈ s'.2.words 0, testBit m i = true) ∧
      (s'.2.cleared 0 = false → ∀ i, i < 128 → testBit (s'.1.bitmap 0) i = true) := by
  obtain ⟨s, s', hreach, hstep, hnull, -⟩ := crossing_null
  exact ⟨s, s', hreach, hstep, null_full 64 128 pool128 pool128_constructed (by decide)
    (by decide) s s' _ 0 hreach hstep hnull⟩

end PoolMemalloc.Ports.ExhaustionMoments
