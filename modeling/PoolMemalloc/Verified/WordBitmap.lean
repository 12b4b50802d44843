import Mathlib.Data.List.GetD

/-!
# Bitmaps stored as a list of machine words

A bitmap over words of width `w` keeps bit `i` in word `i / w` at position
`i % w`.  Everything an allocator does to such a bitmap is one of three
operations: find the lowest clear bit of a word, set one bit, clear one bit.
This module gives each its bit-level specification, for every width, so that
the callers never look inside a word.

* `getLsbD_lowestClear`, `getLsbD_of_lt_lowestClear` — the lowest clear bit is
  clear and every bit below it is set.
* `testBit_set` — replacing one word changes only the bits of that word.
* `testBit_setBit`, `testBit_clearBit` — the two one-bit updates are functional
  updates of the bitmap at a single index.
-/

namespace PoolMemalloc.Verified.WordBitmap

variable {w : Nat}

/-! ## One word -/

/-- The word whose only set bit is bit `b`: the mask `1 << b`. -/
def oneBit (w b : Nat) : BitVec w := 1#w <<< b

/-- Position of the lowest clear bit: the trailing zeros of the complement. -/
def lowestClear (word : BitVec w) : Nat := (~~~word).ctz.toNat

theorem getLsbD_oneBit (b i : Nat) (hb : b < w) :
    (oneBit w b).getLsbD i = decide (i = b) := by
  have htwo : oneBit w b = BitVec.twoPow w b := by
    rw [oneBit, BitVec.twoPow]
  rw [htwo, BitVec.getLsbD_twoPow]
  simp [hb, eq_comm]

theorem getLsbD_or_oneBit (word : BitVec w) (b i : Nat) (hb : b < w) :
    (word ||| oneBit w b).getLsbD i = (word.getLsbD i || decide (i = b)) := by
  rw [BitVec.getLsbD_or, getLsbD_oneBit b i hb]

theorem getLsbD_and_not_oneBit (word : BitVec w) (b i : Nat) (hb : b < w) :
    (word &&& ~~~oneBit w b).getLsbD i =
      (word.getLsbD i && !decide (i = b)) := by
  rw [BitVec.getLsbD_and, BitVec.getLsbD_not, getLsbD_oneBit b i hb]
  by_cases hi : i < w
  · simp [hi]
  · simp [BitVec.getLsbD_of_ge word i (Nat.le_of_not_lt hi)]

theorem eq_allOnes_iff (word : BitVec w) :
    word = BitVec.allOnes w ↔ ∀ i, i < w → word.getLsbD i = true := by
  constructor
  · rintro rfl i hi
    simp [hi]
  · intro h
    apply BitVec.eq_of_getLsbD_eq
    intro i hi
    simp [h i hi, hi]

private theorem not_ne_zero {word : BitVec w} (h : word ≠ BitVec.allOnes w) :
    ~~~word ≠ 0#w := by
  intro hzero
  apply h
  rw [← BitVec.not_not (b := word), hzero, BitVec.not_zero]

theorem lowestClear_lt {word : BitVec w} (h : word ≠ BitVec.allOnes w) :
    lowestClear word < w := by
  have hlt := (BitVec.ctz_lt_iff_ne_zero (x := ~~~word)).mpr (not_ne_zero h)
  have hpow : w < 2 ^ w := Nat.lt_two_pow_self
  simpa [lowestClear, BitVec.lt_def, Nat.mod_eq_of_lt hpow] using hlt

theorem getLsbD_lowestClear {word : BitVec w} (h : word ≠ BitVec.allOnes w) :
    word.getLsbD (lowestClear word) = false := by
  have hbit := BitVec.getLsbD_true_ctz_of_ne_zero (not_ne_zero h)
  rw [BitVec.getLsbD_not] at hbit
  simpa [lowestClear] using (Bool.and_eq_true_iff.mp hbit).2

theorem getLsbD_of_lt_lowestClear {word : BitVec w} {i : Nat}
    (h : word ≠ BitVec.allOnes w) (hi : i < lowestClear word) :
    word.getLsbD i = true := by
  have hbit := BitVec.getLsbD_false_of_lt_ctz (x := ~~~word) hi
  rw [BitVec.getLsbD_not] at hbit
  have hw : i < w := Nat.lt_trans hi (lowestClear_lt h)
  simpa [hw] using hbit

/-! ## The whole bitmap -/

/-- Word `k` of the bitmap; words beyond the last one read as zero. -/
def wordAt (bitmap : List (BitVec w)) (k : Nat) : BitVec w := bitmap.getD k 0#w

theorem wordAt_of_le {bitmap : List (BitVec w)} {k : Nat}
    (h : bitmap.length ≤ k) : wordAt bitmap k = 0#w :=
  List.getD_eq_default _ _ h

theorem wordAt_set (bitmap : List (BitVec w)) (k : Nat) (word : BitVec w)
    (j : Nat) (hk : k < bitmap.length) :
    wordAt (bitmap.set k word) j = if j = k then word else wordAt bitmap j := by
  unfold wordAt
  by_cases h : j = k
  · simp [h, hk]
  · simp [h, Ne.symm h]

/-- Bit `i` of the bitmap. -/
def testBit (bitmap : List (BitVec w)) (i : Nat) : Bool :=
  (wordAt bitmap (i / w)).getLsbD (i % w)

/-- Set bit `b` of word `k`. -/
def setBit (bitmap : List (BitVec w)) (k b : Nat) : List (BitVec w) :=
  bitmap.set k (wordAt bitmap k ||| oneBit w b)

/-- Clear bit `b` of word `k`. -/
def clearBit (bitmap : List (BitVec w)) (k b : Nat) : List (BitVec w) :=
  bitmap.set k (wordAt bitmap k &&& ~~~oneBit w b)

@[simp] theorem length_setBit (bitmap : List (BitVec w)) (k b : Nat) :
    (setBit bitmap k b).length = bitmap.length := by
  simp [setBit]

@[simp] theorem length_clearBit (bitmap : List (BitVec w)) (k b : Nat) :
    (clearBit bitmap k b).length = bitmap.length := by
  simp [clearBit]

theorem testBit_replicate_zero (n i : Nat) :
    testBit (List.replicate n 0#w) i = false := by
  unfold testBit wordAt
  rw [List.getD_eq_getElem?_getD, List.getElem?_replicate]
  split <;> simp

/-- Replacing word `k` is visible exactly at the bits of word `k`. -/
theorem testBit_set (bitmap : List (BitVec w)) (k : Nat) (word : BitVec w)
    (i : Nat) (hk : k < bitmap.length) :
    testBit (bitmap.set k word) i =
      if i / w = k then word.getLsbD (i % w) else testBit bitmap i := by
  rw [testBit, wordAt_set bitmap k word _ hk]
  split <;> rfl

private theorem index_eq_iff {w i k b : Nat} (hb : b < w) :
    i = k * w + b ↔ i / w = k ∧ i % w = b := by
  constructor
  · rintro rfl
    have hw : 0 < w := Nat.lt_of_le_of_lt (Nat.zero_le b) hb
    rw [Nat.mul_comm, Nat.mul_add_div hw, Nat.mul_add_mod,
      Nat.div_eq_of_lt hb, Nat.mod_eq_of_lt hb]
    exact ⟨rfl, rfl⟩
  · rintro ⟨rfl, rfl⟩
    rw [Nat.mul_comm]
    exact (Nat.div_add_mod i w).symm

/-- Bit `k * w + b` of the bitmap is bit `b` of word `k`. -/
theorem testBit_index (bitmap : List (BitVec w)) (k b : Nat) (hb : b < w) :
    testBit bitmap (k * w + b) = (wordAt bitmap k).getLsbD b := by
  obtain ⟨hdiv, hmod⟩ := (index_eq_iff (i := k * w + b) hb).mp rfl
  rw [testBit, hdiv, hmod]

theorem testBit_setBit (bitmap : List (BitVec w)) (k b i : Nat)
    (hk : k < bitmap.length) (hb : b < w) :
    testBit (setBit bitmap k b) i =
      (testBit bitmap i || decide (i = k * w + b)) := by
  rw [setBit, testBit_set bitmap k _ i hk, getLsbD_or_oneBit _ b _ hb]
  by_cases h : i / w = k
  · subst h
    simp [testBit, index_eq_iff hb]
  · simp [h, index_eq_iff hb]

theorem testBit_clearBit (bitmap : List (BitVec w)) (k b i : Nat)
    (hk : k < bitmap.length) (hb : b < w) :
    testBit (clearBit bitmap k b) i =
      (testBit bitmap i && !decide (i = k * w + b)) := by
  rw [clearBit, testBit_set bitmap k _ i hk, getLsbD_and_not_oneBit _ b _ hb]
  by_cases h : i / w = k
  · subst h
    simp [testBit, index_eq_iff hb]
  · simp [h, index_eq_iff hb]

/-- Setting a clear bit and clearing it again restores the bitmap. -/
theorem clearBit_setBit (bitmap : List (BitVec w)) (k b : Nat)
    (hk : k < bitmap.length) (hb : b < w)
    (hclear : (wordAt bitmap k).getLsbD b = false) :
    clearBit (setBit bitmap k b) k b = bitmap := by
  have hword : (wordAt bitmap k ||| oneBit w b) &&& ~~~oneBit w b =
      wordAt bitmap k := by
    apply BitVec.eq_of_getLsbD_eq
    intro i hi
    rw [getLsbD_and_not_oneBit _ b i hb, getLsbD_or_oneBit _ b i hb]
    by_cases h : i = b
    · subst h
      rw [hclear]
      simp
    · simp [h]
  have hread : wordAt (setBit bitmap k b) k = wordAt bitmap k ||| oneBit w b := by
    rw [setBit, wordAt_set bitmap k _ k hk, if_pos rfl]
  rw [clearBit, hread, hword, setBit, List.set_set, wordAt,
    List.getD_eq_getElem _ _ hk]
  exact List.set_getElem_self hk

end PoolMemalloc.Verified.WordBitmap
