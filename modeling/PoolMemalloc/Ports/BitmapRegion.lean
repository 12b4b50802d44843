import PoolMemalloc.Ports.BlockArray
import PoolMemalloc.Verified.WordBitmap

/-!
# One bitmap region

`BitmapAllocator` and `ThreadLocalBitmapAllocator::Region` keep the same five
fields and run the same loops over them; this module states that code once.
`m_memory`, `m_bitmap`, `m_block_count`, `m_word_count` and `m_hint` of the
former are `memory`, `bitmap`, `block_count`, `word_count` and `hint` of the
latter.

The functions here are the calls as one thread executes them with nobody else
running.  An uncontended `compare_exchange_weak` that fails spuriously reloads
the very word it already holds and is tried again, so the `while (word != FULL)`
loop claims `find_free_bit(word)` of the word that was loaded.  The interleaved
steps are in `PoolMemalloc.Ports.RegionInterleaving`.

`Tracks` says what the bitmap means: bit `i` is set exactly when block `i` is
live.  `Tracks.allocIndex_cases` and `Tracks.allocIndex_of_some` describe a whole call
under it.
-/

namespace PoolMemalloc.Ports.BitmapRegion

open PoolMemalloc.Verified.SizeT
open PoolMemalloc.Verified.WordBitmap
open PoolMemalloc.Ports.BlockArray

/-- `uint64_t`. -/
abbrev Word := BitVec 64

/-- `FULL = ~0ULL`. -/
def FULL : Word := BitVec.allOnes 64

/-- `WORD_BITS`. -/
def wordBits : Nat := 64

structure Region where
  memory : Nat
  bitmap : List Word
  blockCount : Nat
  wordCount : Nat
  hint : Nat
  deriving Repr, DecidableEq

/-- `(block_count + WORD_BITS - 1) / WORD_BITS`, the sum taken in a `size_t`. -/
def wordsFor (blockCount : Nat) : Nat := wrap (blockCount + wordBits - 1) / wordBits

/-- A region as its constructor leaves it: all words zero, hint zero. -/
def fresh (memory blockCount : Nat) : Region where
  memory := memory
  bitmap := List.replicate (wordsFor blockCount) 0
  blockCount := blockCount
  wordCount := wordsFor blockCount
  hint := 0

/-- `__builtin_ctzll(~word)`. -/
def findFreeBit (word : Word) : Nat := (~~~word).ctz.toNat

/-- `bitmap[k].fetch_and(mask)`. -/
def fetchAnd (bitmap : List Word) (k : Nat) (mask : Word) : List Word :=
  bitmap.set k (wordAt bitmap k &&& mask)

/-- What `alloc` does once its exchange has set `freeBit` of `wordIndex`: undo a
bit beyond the block count and give up, or keep it and leave the hint there. -/
def settle (r : Region) (wordIndex freeBit : Nat) : Option Nat × Region :=
  let mask : Word := 1#64 <<< freeBit
  let globalIndex := wrap (wordIndex * wordBits + freeBit)
  if globalIndex ≥ r.blockCount then
    (none, { r with bitmap := fetchAnd r.bitmap wordIndex (~~~mask) })
  else
    (some globalIndex, { r with hint := wordIndex })

/-- The `while (word != FULL)` loop of `alloc` on a loaded word that is not
full: the exchange succeeds and the bit is settled. -/
def claim (r : Region) (wordIndex : Nat) : Option Nat × Region :=
  let word := wordAt r.bitmap wordIndex
  let freeBit := findFreeBit word
  let mask : Word := 1#64 <<< freeBit
  settle { r with bitmap := r.bitmap.set wordIndex (word ||| mask) }
    wordIndex freeBit

/-- `word_index = (start + probe) % word_count`. -/
def probeIndex (wordCount start probe : Nat) : Nat :=
  wrap (start + probe) % wordCount

/-- The probing loop of `alloc` with `left` iterations to go. -/
def allocLoop (start : Nat) : Nat → Nat → Region → Option Nat × Region
  | 0, _, r => (none, r)
  | left + 1, probe, r =>
      let wordIndex := probeIndex r.wordCount start probe
      if wordAt r.bitmap wordIndex = FULL then
        allocLoop start left (probe + 1) r
      else
        claim r wordIndex

/-- `alloc` up to `index_to_ptr`: the index of the block handed out. -/
def allocIndex (r : Region) : Option Nat × Region :=
  allocLoop r.hint r.wordCount 0 r

/-- `dealloc` after `ptr_to_index`. -/
def deallocIndex (r : Region) (index : Nat) : Region :=
  let wordIndex := index / wordBits
  let bitIndex := index % wordBits
  let mask : Word := ~~~(1#64 <<< bitIndex)
  { r with bitmap := fetchAnd r.bitmap wordIndex mask, hint := wordIndex }

/-! ## Sizing -/

theorem wordsFor_lt (blockCount : Nat) : wordsFor blockCount < 2 ^ 58 := by
  have h := wrap_lt (blockCount + wordBits - 1)
  unfold wordsFor wordBits at *
  omega

/-- The words hold every block unless the rounding sum itself wrapped. -/
theorem le_wordsFor {blockCount : Nat} (h : blockCount + 63 < 2 ^ 64) :
    blockCount ≤ wordsFor blockCount * 64 := by
  unfold wordsFor wordBits wrap
  omega

theorem wordsFor_mul_lt (blockCount : Nat) :
    wordsFor blockCount * 64 < blockCount + 64 := by
  have h := wrap_le (blockCount + wordBits - 1)
  unfold wordsFor wordBits at *
  omega

theorem wordsFor_of_dvd {blockCount : Nat} (hlt : blockCount < 2 ^ 64)
    (hdvd : 64 ∣ blockCount) : wordsFor blockCount * 64 = blockCount := by
  unfold wordsFor wordBits wrap
  omega

/-! ## The lowest free bit -/

theorem findFreeBit_lt {word : Word} (h : word ≠ FULL) : findFreeBit word < 64 :=
  lowestClear_lt h

theorem getLsbD_findFreeBit {word : Word} (h : word ≠ FULL) :
    word.getLsbD (findFreeBit word) = false :=
  getLsbD_lowestClear h

theorem getLsbD_of_lt_findFreeBit {word : Word} {i : Nat} (h : word ≠ FULL)
    (hi : i < findFreeBit word) : word.getLsbD i = true :=
  getLsbD_of_lt_lowestClear h hi

/-! ## What a bitmap means -/

/-- The region's bitmap and hint, read as the set of live blocks. -/
structure Tracks (r : Region) (live : Nat → Prop) : Prop where
  length : r.bitmap.length = r.wordCount
  words : r.wordCount = wordsFor r.blockCount
  count : r.blockCount < 2 ^ 64
  hint : r.hint < r.wordCount ∨ r.hint = 0
  bit : ∀ i, testBit r.bitmap i = true ↔ live i
  inRange : ∀ i, live i → i < r.blockCount

theorem Tracks.congr {r : Region} {p q : Nat → Prop} (h : Tracks r p)
    (hiff : ∀ i, q i ↔ p i) : Tracks r q := by
  have heq : q = p := funext fun i => propext (hiff i)
  exact heq ▸ h

theorem fresh_tracks (memory : Nat) {blockCount : Nat}
    (h : blockCount < 2 ^ 64) :
    Tracks (fresh memory blockCount) (fun _ => False) where
  length := by simp [fresh]
  words := rfl
  count := h
  hint := Or.inr rfl
  bit i := by
    have hzero := testBit_replicate_zero (w := 64) (wordsFor blockCount) i
    simpa [fresh] using hzero
  inRange i hi := hi.elim

/-- The index a claim in word `k` would hand out. -/
def lowestIn (r : Region) (k : Nat) : Nat :=
  k * 64 + findFreeBit (wordAt r.bitmap k)

section Call

variable {r : Region} {live : Nat → Prop}

theorem lowestIn_div {k : Nat} (hopen : wordAt r.bitmap k ≠ FULL) :
    lowestIn r k / 64 = k := by
  have hlt := findFreeBit_lt hopen
  unfold lowestIn
  omega

theorem lowestIn_mod {k : Nat} (hopen : wordAt r.bitmap k ≠ FULL) :
    lowestIn r k % 64 = findFreeBit (wordAt r.bitmap k) := by
  have hlt := findFreeBit_lt hopen
  unfold lowestIn
  omega

/-- A full word stands for 64 live blocks. -/
theorem Tracks.live_of_full (h : Tracks r live) {i : Nat}
    (hfull : wordAt r.bitmap (i / 64) = FULL) : live i := by
  apply (h.bit i).mp
  have hbit := (eq_allOnes_iff (wordAt r.bitmap (i / 64))).mp hfull (i % 64)
    (Nat.mod_lt _ (by decide))
  simpa [testBit] using hbit

/-- Bits below the lowest clear bit of a word stand for live blocks. -/
theorem Tracks.live_of_lt_findFreeBit (h : Tracks r live) {i : Nat}
    (hopen : wordAt r.bitmap (i / 64) ≠ FULL)
    (hlt : i % 64 < findFreeBit (wordAt r.bitmap (i / 64))) : live i := by
  apply (h.bit i).mp
  simpa [testBit] using getLsbD_of_lt_findFreeBit hopen hlt

/-- The lowest clear bit of a word stands for a free block. -/
theorem Tracks.free_findFreeBit (h : Tracks r live) {k : Nat}
    (hopen : wordAt r.bitmap k ≠ FULL) :
    ¬ live (lowestIn r k) := by
  intro hlive
  have hbit := (h.bit _).mpr hlive
  rw [lowestIn, testBit_index r.bitmap k _ (findFreeBit_lt hopen)] at hbit
  exact absurd hbit (Bool.eq_false_iff.mp (getLsbD_findFreeBit hopen))

/-- Both outcomes of a claim: beyond the block count nothing has changed,
otherwise exactly the lowest clear bit of the word is set. -/
theorem Tracks.claim_eq (h : Tracks r live) {k : Nat} (hk : k < r.wordCount)
    (hopen : wordAt r.bitmap k ≠ FULL) :
    claim r k =
      if r.blockCount ≤ lowestIn r k then (none, r)
      else (some (lowestIn r k), { r with
        bitmap := setBit r.bitmap k (findFreeBit (wordAt r.bitmap k))
        hint := k }) := by
  have hlt := findFreeBit_lt hopen
  have hwords := wordsFor_lt r.blockCount
  have hwc := h.words
  have hnowrap : wrap (k * wordBits + findFreeBit (wordAt r.bitmap k)) =
      lowestIn r k := by
    apply wrap_of_lt
    unfold wordBits
    omega
  have hundo := clearBit_setBit r.bitmap k (findFreeBit (wordAt r.bitmap k))
    (by rw [h.length]; exact hk) hlt (getLsbD_findFreeBit hopen)
  simp only [claim, settle, hnowrap, ge_iff_le]
  split
  · simp only [clearBit, setBit, oneBit] at hundo
    rw [fetchAnd, hundo]
  · rfl

/-- The loop stops at the first word that is not full, in probing order. -/
theorem allocLoop_spec (r : Region) (start : Nat) : ∀ left probe : Nat,
    ((∀ k, probe ≤ k → k < probe + left →
        wordAt r.bitmap (probeIndex r.wordCount start k) = FULL) ∧
      allocLoop start left probe r = (none, r)) ∨
    ∃ k, probe ≤ k ∧ k < probe + left ∧
      (∀ j, probe ≤ j → j < k →
        wordAt r.bitmap (probeIndex r.wordCount start j) = FULL) ∧
      wordAt r.bitmap (probeIndex r.wordCount start k) ≠ FULL ∧
      allocLoop start left probe r =
        claim r (probeIndex r.wordCount start k) := by
  intro left
  induction left with
  | zero =>
      intro probe
      left
      exact ⟨fun k h1 h2 => by omega, rfl⟩
  | succ left ih =>
      intro probe
      by_cases hfull :
          wordAt r.bitmap (probeIndex r.wordCount start probe) = FULL
      · have hstep : allocLoop start (left + 1) probe r =
            allocLoop start left (probe + 1) r := by
          rw [allocLoop, if_pos hfull]
        rcases ih (probe + 1) with ⟨hall, heq⟩ | ⟨k, hk1, hk2, hbefore, hopen, heq⟩
        · left
          refine ⟨fun k h1 h2 => ?_, hstep.trans heq⟩
          by_cases hk : k = probe
          · rw [hk, hfull]
          · exact hall k (by omega) (by omega)
        · right
          refine ⟨k, by omega, by omega, fun j h1 h2 => ?_, hopen, hstep.trans heq⟩
          by_cases hj : j = probe
          · rw [hj, hfull]
          · exact hbefore j (by omega) h2
      · right
        refine ⟨probe, Nat.le_refl _, by omega, fun j h1 h2 => by omega, hfull, ?_⟩
        rw [allocLoop, if_neg hfull]

/-- The loop passes a full word. -/
theorem allocLoop_of_full {start probe n : Nat} (hprobe : probe < n)
    (hfull : wordAt r.bitmap (probeIndex r.wordCount start probe) = FULL) :
    allocLoop start (n - probe) probe r = allocLoop start (n - (probe + 1)) (probe + 1) r := by
  rw [show n - probe = n - (probe + 1) + 1 by omega, allocLoop, if_pos hfull]

/-- The loop claims in a word that is not full. -/
theorem allocLoop_of_open {start probe n : Nat} (hprobe : probe < n)
    (hopen : wordAt r.bitmap (probeIndex r.wordCount start probe) ≠ FULL) :
    allocLoop start (n - probe) probe r = claim r (probeIndex r.wordCount start probe) := by
  rw [show n - probe = n - (probe + 1) + 1 by omega, allocLoop, if_neg hopen]

/-- The probe order is cyclic from the hint. -/
theorem probeIndex_eq {wordCount start k : Nat} (hwords : wordCount < 2 ^ 58)
    (hstart : start < wordCount) (hk : k < wordCount) :
    probeIndex wordCount start k =
      if start + k < wordCount then start + k else start + k - wordCount := by
  rw [probeIndex, wrap_of_lt (by omega)]
  split
  · next h => exact Nat.mod_eq_of_lt h
  · next h =>
      rw [Nat.mod_eq_sub_mod (by omega), Nat.mod_eq_of_lt (by omega)]

theorem probeIndex_lt {wordCount start k : Nat} (h : 0 < wordCount) :
    probeIndex wordCount start k < wordCount :=
  Nat.mod_lt _ h

/-- A whole round of probes meets every word, word `k` at distance `k - start`. -/
theorem exists_probe {wordCount start k : Nat} (hwords : wordCount < 2 ^ 58)
    (hstart : start < wordCount) (hk : k < wordCount) :
    ∃ probe, probe < wordCount ∧ probeIndex wordCount start probe = k := by
  by_cases hge : start ≤ k
  · refine ⟨k - start, by omega, ?_⟩
    rw [probeIndex_eq hwords hstart (by omega), if_pos (by omega)]
    omega
  · refine ⟨k + wordCount - start, by omega, ?_⟩
    rw [probeIndex_eq hwords hstart (by omega), if_neg (by omega)]
    omega

/-- `alloc` probes cyclically from the hint and claims in the first word that is
not full; with every word full it returns null. -/
theorem Tracks.allocIndex_cases (h : Tracks r live) :
    ((∀ k, k < r.wordCount → wordAt r.bitmap k = FULL) ∧
      allocIndex r = (none, r)) ∨
    ∃ k, k < r.wordCount ∧ wordAt r.bitmap k ≠ FULL ∧
      (∀ j, r.hint ≤ j → j < k → wordAt r.bitmap j = FULL) ∧
      (k < r.hint →
        ∀ j, r.hint ≤ j → j < r.wordCount → wordAt r.bitmap j = FULL) ∧
      allocIndex r = claim r k := by
  have hwc : r.wordCount < 2 ^ 58 := h.words ▸ wordsFor_lt r.blockCount
  have hindex : ∀ k, k < r.wordCount → probeIndex r.wordCount r.hint k =
      if r.hint + k < r.wordCount then r.hint + k
      else r.hint + k - r.wordCount := by
    intro k hk
    have hhint : r.hint < r.wordCount := by
      rcases h.hint with hlt | hzero <;> omega
    exact probeIndex_eq hwc hhint hk
  rcases allocLoop_spec r r.hint r.wordCount 0 with
    ⟨hall, heq⟩ | ⟨k, -, hk, hbefore, hopen, heq⟩
  · left
    refine ⟨fun k hk => ?_, heq⟩
    have hhint : r.hint < r.wordCount := by
      rcases h.hint with hlt | hzero <;> omega
    obtain ⟨probe, hprobe, rfl⟩ := exists_probe hwc hhint hk
    exact hall probe (Nat.zero_le _) (by omega)
  · right
    have hpos : 0 < r.wordCount := by omega
    have hhint : r.hint < r.wordCount := by
      rcases h.hint with hlt | hzero <;> omega
    refine ⟨probeIndex r.wordCount r.hint k, probeIndex_lt hpos, hopen, ?_, ?_, heq⟩
    · intro j hj hlt
      rw [hindex k (by omega)] at hlt
      have hdist : j - r.hint < k := by split at hlt <;> omega
      have hword := hbefore (j - r.hint) (by omega) hdist
      rw [hindex _ (by omega)] at hword
      have hnowrap : r.hint + (j - r.hint) < r.wordCount := by
        split at hlt <;> omega
      rw [if_pos hnowrap, show r.hint + (j - r.hint) = j by omega] at hword
      exact hword
    · intro hwrap j hj hlt
      rw [hindex k (by omega)] at hwrap
      have hdist : j - r.hint < k := by split at hwrap <;> omega
      have hword := hbefore (j - r.hint) (by omega) hdist
      rw [hindex _ (by omega), if_pos (by omega),
        show r.hint + (j - r.hint) = j by omega] at hword
      exact hword

theorem Tracks.claim_fst (h : Tracks r live) {k : Nat} (hk : k < r.wordCount)
    (hopen : wordAt r.bitmap k ≠ FULL) :
    (claim r k).1 = none ↔ r.blockCount ≤ lowestIn r k := by
  rw [h.claim_eq hk hopen]
  split
  · next hle => simp [hle]
  · next hlt => simp [hlt]

/-- Every block below the lowest free one of its word is live. -/
theorem Tracks.live_below_lowestIn (h : Tracks r live) {i : Nat}
    (hopen : wordAt r.bitmap (i / 64) ≠ FULL)
    (hlt : i < lowestIn r (i / 64)) : live i := by
  apply h.live_of_lt_findFreeBit hopen
  unfold lowestIn at hlt
  omega

/-- Without padding bits a null result means that no block is free. -/
theorem Tracks.allocIndex_none_iff_of_dvd (h : Tracks r live)
    (hdvd : 64 ∣ r.blockCount) :
    (allocIndex r).1 = none ↔ ∀ i, i < r.blockCount → live i := by
  have hcount := wordsFor_of_dvd h.count hdvd
  rw [← h.words] at hcount
  rcases h.allocIndex_cases with ⟨hfull, heq⟩ | ⟨k, hk, hopen, -, -, heq⟩
  · refine ⟨fun _ i hi => h.live_of_full (hfull _ (by omega)), fun _ => by rw [heq]⟩
  · have hlow : lowestIn r k < r.blockCount := by
      have := findFreeBit_lt hopen
      unfold lowestIn
      omega
    rw [heq, h.claim_fst hk hopen]
    constructor
    · intro hle
      omega
    · intro hall
      exact (h.free_findFreeBit hopen (hall _ hlow)).elim

/-- With padding bits the probe never gets past the last word: a null result
means only that no block at or after the hint's word is free. -/
theorem Tracks.allocIndex_none_iff_of_padded (h : Tracks r live)
    (hpad : ¬ 64 ∣ r.blockCount) (hfit : r.blockCount ≤ r.wordCount * 64) :
    (allocIndex r).1 = none ↔
      ∀ i, i < r.blockCount → r.hint ≤ i / 64 → live i := by
  have hcount : r.wordCount * 64 < r.blockCount + 64 :=
    h.words ▸ wordsFor_mul_lt r.blockCount
  have hpadded : wordAt r.bitmap (r.blockCount / 64) ≠ FULL := by
    intro hfull
    have := h.inRange _ (h.live_of_full hfull)
    omega
  rcases h.allocIndex_cases with ⟨hfull, -⟩ | ⟨k, hk, hopen, hbefore, hwrap, heq⟩
  · exact (hpadded (hfull _ (by omega))).elim
  · have hhint : r.hint ≤ k := by
      apply Nat.le_of_not_lt
      intro hlt
      have hh : r.hint < r.wordCount := by
        rcases h.hint with hlt' | hzero <;> omega
      exact hpadded (hwrap hlt _ (by omega) (by omega))
    rw [heq, h.claim_fst hk hopen]
    constructor
    · intro hle i hi hge
      -- the claimed word is the last one, so block `i` is in it or before it
      have hdiv := lowestIn_div hopen
      by_cases hword : i / 64 = k
      · subst hword
        exact h.live_below_lowestIn hopen (by omega)
      · have hfull := hbefore (i / 64) hge (by omega)
        exact h.live_of_full hfull
    · intro hall
      apply Nat.le_of_not_lt
      intro hlt
      have hlive := hall _ hlt (by rw [lowestIn_div hopen]; exact hhint)
      exact h.free_findFreeBit hopen hlive

/-- The probe from the hint's word meets a free block whenever there is one:
there are no padding bits to stop at, or nothing is free, or some free block is
at or after the hint's word. -/
def HintCovers (r : Region) (live : Nat → Prop) : Prop :=
  64 ∣ r.blockCount ∨ (∀ i, i < r.blockCount → live i) ∨
    ∃ i, i < r.blockCount ∧ ¬ live i ∧ r.hint ≤ i / 64

/-- Null means exhausted exactly in the states in which the hint covers the free
blocks. -/
theorem Tracks.exhausted_iff_hintCovers (h : Tracks r live)
    (hfit : r.blockCount ≤ r.wordCount * 64) :
    ((allocIndex r).1 = none ↔ ∀ i, i < r.blockCount → live i) ↔
      HintCovers r live := by
  by_cases hdvd : 64 ∣ r.blockCount
  · exact ⟨fun _ => Or.inl hdvd, fun _ => h.allocIndex_none_iff_of_dvd hdvd⟩
  · rw [h.allocIndex_none_iff_of_padded hdvd hfit]
    constructor
    · intro hexact
      by_cases hall : ∀ i, i < r.blockCount → live i
      · exact Or.inr (Or.inl hall)
      · right
        right
        have hsome : ¬ ∀ i, i < r.blockCount → r.hint ≤ i / 64 → live i :=
          fun hcover => hall (hexact.mp hcover)
        simp only [not_forall] at hsome
        obtain ⟨i, hi, hge, hfree⟩ := hsome
        exact ⟨i, hi, hfree, hge⟩
    · rintro (hdvd' | hall | ⟨i, hi, hfree, hge⟩)
      · exact (hdvd hdvd').elim
      · exact ⟨fun _ => hall, fun _ i hi _ => hall i hi⟩
      · constructor
        · intro hcover
          exact (hfree (hcover i hi hge)).elim
        · intro hall
          exact (hfree (hall i hi)).elim

/-- A null result leaves the region as it was. -/
theorem Tracks.allocIndex_of_none (h : Tracks r live)
    (hnone : (allocIndex r).1 = none) : (allocIndex r).2 = r := by
  rcases h.allocIndex_cases with ⟨-, heq⟩ | ⟨k, hk, hopen, -, -, heq⟩
  · rw [heq]
  · rw [heq] at hnone ⊢
    have hle := (h.claim_fst hk hopen).mp hnone
    rw [h.claim_eq hk hopen, if_pos hle]

/-- A block handed out was free; afterwards it is live and nothing else has
changed. -/
theorem Tracks.allocIndex_of_some (h : Tracks r live) {i : Nat}
    (hsome : (allocIndex r).1 = some i) :
    i < r.blockCount ∧ ¬ live i ∧
      Tracks (allocIndex r).2 (fun j => live j ∨ j = i) ∧
      (allocIndex r).2 = { r with
        bitmap := setBit r.bitmap (i / 64) (i % 64), hint := i / 64 } := by
  rcases h.allocIndex_cases with ⟨-, heq⟩ | ⟨k, hk, hopen, -, -, heq⟩
  · simp [heq] at hsome
  · have hbit := findFreeBit_lt hopen
    have hlen : k < r.bitmap.length := by rw [h.length]; exact hk
    rw [heq, h.claim_eq hk hopen] at hsome ⊢
    by_cases hpad : r.blockCount ≤ lowestIn r k
    · rw [if_pos hpad] at hsome
      cases hsome
    · rw [if_neg hpad] at hsome ⊢
      obtain rfl : lowestIn r k = i := Option.some.inj hsome
      rw [lowestIn_div hopen, lowestIn_mod hopen]
      refine ⟨Nat.lt_of_not_le hpad, h.free_findFreeBit hopen, ?_, rfl⟩
      exact
        { length := by simpa using h.length
          words := h.words
          count := h.count
          hint := Or.inl hk
          bit := fun j => by
            rw [testBit_setBit _ _ _ _ hlen hbit]
            simp [h.bit j, lowestIn]
          inRange := fun j hj => by
            rcases hj with hj | rfl
            · exact h.inRange j hj
            · exact Nat.lt_of_not_le hpad }

/-- A live block has a word. -/
theorem Tracks.word_lt (h : Tracks r live) {i : Nat} (hi : live i) :
    i / 64 < r.wordCount := by
  apply Nat.lt_of_not_ge
  intro hge
  have hbit := (h.bit i).mpr hi
  rw [testBit, wordAt_of_le (by rw [h.length]; exact hge)] at hbit
  simp at hbit

/-- Freeing a live block makes it free and moves the hint to its word. -/
theorem Tracks.deallocIndex (h : Tracks r live) {i : Nat} (hi : live i) :
    Tracks (deallocIndex r i) (fun j => live j ∧ j ≠ i) := by
  have hword := h.word_lt hi
  have hclear := fun j => testBit_clearBit r.bitmap (i / 64) (i % 64) j
    (by rw [h.length]; exact hword) (Nat.mod_lt _ (by decide))
  exact
    { length := by simpa [BitmapRegion.deallocIndex, fetchAnd] using h.length
      words := h.words
      count := h.count
      hint := Or.inl hword
      bit := fun j => by
        have hj := hclear j
        rw [show i / 64 * 64 + i % 64 = i by omega] at hj
        rw [show testBit (BitmapRegion.deallocIndex r i).bitmap j =
          testBit (clearBit r.bitmap (i / 64) (i % 64)) j from rfl, hj]
        simp [h.bit j]
      inRange := fun j hj => h.inRange j hj.1 }

end Call

/-- A fresh region hands out block 0. -/
theorem fresh_allocIndex (memory : Nat) {blockCount : Nat} (hpos : 0 < blockCount)
    (hcount : blockCount + 63 < 2 ^ 64) :
    (allocIndex (fresh memory blockCount)).1 = some 0 := by
  obtain ⟨words, hwords⟩ : ∃ n, wordsFor blockCount = n + 1 := by
    have hfit := le_wordsFor hcount
    exact ⟨wordsFor blockCount - 1, by omega⟩
  have hprobe : probeIndex (words + 1) 0 0 = 0 := by simp [probeIndex, wrap]
  have hword : wordAt (List.replicate (words + 1) (0 : Word)) 0 = 0 := by simp [wordAt]
  have hopen : (0 : Word) ≠ FULL := by unfold FULL; decide
  have hbit : findFreeBit 0 = 0 := by decide +kernel
  have hindex : wrap (0 * wordBits + 0) = 0 := by decide
  simp only [allocIndex, fresh, hwords, allocLoop, hprobe, hword, if_neg hopen, claim, hbit,
    settle, hindex]
  rw [if_neg (by omega)]

end PoolMemalloc.Ports.BitmapRegion
