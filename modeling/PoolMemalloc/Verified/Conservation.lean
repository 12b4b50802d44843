import Mathlib.Logic.Function.Basic
import Mathlib.Data.List.Nodup

/-!
# Conservation of items among places

A `Ledger` says that the items satisfying `P` are spread over places, each item
in exactly one place and there exactly once.  Programs move items between two
places at a time, so conservation is one rule, `Ledger.move`: if only the cells
of two places change, and together they hold the same items as before, the
ledger is kept.
-/

namespace PoolMemalloc.Verified.Conservation

universe u v

variable {α : Type u} {κ : Type v}

/-- Every item satisfying `P` is in one cell, once; nothing else is in any cell. -/
structure Ledger (P : α → Prop) (cell : κ → List α) : Prop where
  nodup : ∀ k, (cell k).Nodup
  only : ∀ k l b, b ∈ cell k → b ∈ cell l → k = l
  mem : ∀ b, P b ↔ ∃ k, b ∈ cell k

variable {P : α → Prop} {cell cell' : κ → List α} {k l : κ}

theorem Ledger.mem_of (h : Ledger P cell) {b : α} (hb : b ∈ cell k) : P b :=
  (h.mem b).mpr ⟨k, hb⟩

theorem Ledger.notMem (h : Ledger P cell) {b : α} (hb : b ∈ cell k) (hne : l ≠ k) :
    b ∉ cell l :=
  fun hl => hne (h.only l k b hl hb)

/-- The items of two places together are distinct. -/
theorem Ledger.nodup_append (h : Ledger P cell) (hne : k ≠ l) :
    (cell k ++ cell l).Nodup :=
  List.nodup_append.mpr ⟨h.nodup k, h.nodup l, fun a ha _ hb hab =>
    hne (h.only k l a ha (hab ▸ hb))⟩

/-- Reordering the items of one place. -/
theorem Ledger.permute (h : Ledger P cell) (hperm : (cell' k).Perm (cell k))
    (hother : ∀ j, j ≠ k → cell' j = cell j) : Ledger P cell' := by
  have hmem : ∀ j b, b ∈ cell' j ↔ b ∈ cell j := by
    intro j b
    by_cases hj : j = k
    · subst hj
      exact hperm.mem_iff
    · rw [hother j hj]
  exact
    { nodup := fun j => by
        by_cases hj : j = k
        · subst hj
          exact hperm.nodup_iff.mpr (h.nodup j)
        · rw [hother j hj]
          exact h.nodup j
      only := fun i j b hi hj => h.only i j b ((hmem i b).mp hi) ((hmem j b).mp hj)
      mem := fun b => by simp only [hmem, h.mem b] }

/-- Moving items between two places. -/
theorem Ledger.move (h : Ledger P cell) (hne : k ≠ l)
    (hperm : (cell' k ++ cell' l).Perm (cell k ++ cell l))
    (hother : ∀ j, j ≠ k → j ≠ l → cell' j = cell j) : Ledger P cell' := by
  have hboth' : (cell' k ++ cell' l).Nodup := hperm.nodup_iff.mpr (h.nodup_append hne)
  obtain ⟨hk, hl, hdisjoint⟩ := List.nodup_append.mp hboth'
  -- an item of one of the two places was in one of the two places before
  have hpair : ∀ j b, (j = k ∨ j = l) → b ∈ cell' j → b ∈ cell k ∨ b ∈ cell l := by
    intro j b hj hb
    refine List.mem_append.mp (hperm.mem_iff.mp (List.mem_append.mpr ?_))
    rcases hj with rfl | rfl
    · exact Or.inl hb
    · exact Or.inr hb
  have hstay : ∀ j b, j ≠ k → j ≠ l → b ∈ cell' j → ∀ i, (i = k ∨ i = l) →
      b ∉ cell' i := by
    intro j b hjk hjl hb i hi hbi
    rw [hother j hjk hjl] at hb
    rcases hpair i b hi hbi with hbk | hbl
    · exact hjk (h.only j k b hb hbk)
    · exact hjl (h.only j l b hb hbl)
  refine ⟨fun j => ?_, fun i j b hi hj => ?_, fun b => ?_⟩
  · by_cases hjk : j = k
    · exact hjk ▸ hk
    · by_cases hjl : j = l
      · exact hjl ▸ hl
      · rw [hother j hjk hjl]
        exact h.nodup j
  · by_cases hi' : i = k ∨ i = l
    · by_cases hj' : j = k ∨ j = l
      · rcases hi' with rfl | rfl <;> rcases hj' with rfl | rfl
        · rfl
        · exact (hdisjoint b hi b hj rfl).elim
        · exact (hdisjoint b hj b hi rfl).elim
        · rfl
      · rw [not_or] at hj'
        exact (hstay j b hj'.1 hj'.2 hj i hi' hi).elim
    · rw [not_or] at hi'
      by_cases hj' : j = k ∨ j = l
      · exact (hstay i b hi'.1 hi'.2 hi j hj' hj).elim
      · rw [not_or] at hj'
        rw [hother i hi'.1 hi'.2] at hi
        rw [hother j hj'.1 hj'.2] at hj
        exact h.only i j b hi hj
  · rw [h.mem b]
    have hpairs : (b ∈ cell' k ∨ b ∈ cell' l) ↔ (b ∈ cell k ∨ b ∈ cell l) := by
      rw [← List.mem_append, ← List.mem_append]
      exact hperm.mem_iff
    constructor
    · rintro ⟨j, hj⟩
      by_cases hj' : j = k ∨ j = l
      · have hold : b ∈ cell k ∨ b ∈ cell l := by
          rcases hj' with rfl | rfl
          · exact Or.inl hj
          · exact Or.inr hj
        rcases hpairs.mpr hold with hb | hb
        · exact ⟨k, hb⟩
        · exact ⟨l, hb⟩
      · rw [not_or] at hj'
        exact ⟨j, (hother j hj'.1 hj'.2).symm ▸ hj⟩
    · rintro ⟨j, hj⟩
      by_cases hj' : j = k ∨ j = l
      · rcases hpair j b hj' hj with hb | hb
        · exact ⟨k, hb⟩
        · exact ⟨l, hb⟩
      · rw [not_or] at hj'
        exact ⟨j, hother j hj'.1 hj'.2 ▸ hj⟩

/-- A new item appears in one place. -/
theorem Ledger.insert (h : Ledger P cell) {Q : α → Prop} {b : α} (hnew : ¬ P b)
    (hQ : ∀ c, Q c ↔ c = b ∨ P c) (hk : cell' k = b :: cell k)
    (hother : ∀ j, j ≠ k → cell' j = cell j) : Ledger Q cell' := by
  have hmem : ∀ j c, c ∈ cell' j ↔ (j = k ∧ c = b) ∨ c ∈ cell j := by
    intro j c
    by_cases hj : j = k
    · subst hj
      simp [hk]
    · simp [hother j hj, hj]
  have hmiss : ∀ j, b ∉ cell j := fun j hb => hnew (h.mem_of hb)
  refine ⟨fun j => ?_, fun i j c hi hj => ?_, fun c => ?_⟩
  · by_cases hj : j = k
    · subst hj
      rw [hk]
      exact List.nodup_cons.mpr ⟨hmiss j, h.nodup j⟩
    · rw [hother j hj]
      exact h.nodup j
  · rcases (hmem i c).mp hi with ⟨rfl, rfl⟩ | hi
    · rcases (hmem j c).mp hj with ⟨rfl, -⟩ | hj
      · rfl
      · exact (hmiss j hj).elim
    · rcases (hmem j c).mp hj with ⟨-, rfl⟩ | hj
      · exact (hmiss i hi).elim
      · exact h.only i j c hi hj
  · simp only [hQ, hmem, h.mem c]
    constructor
    · rintro (rfl | ⟨j, hj⟩)
      · exact ⟨k, .inl ⟨rfl, rfl⟩⟩
      · exact ⟨j, .inr hj⟩
    · rintro ⟨j, ⟨-, rfl⟩ | hj⟩
      · exact .inl rfl
      · exact .inr ⟨j, hj⟩

/-- An item disappears. -/
theorem Ledger.remove (h : Ledger P cell) {Q : α → Prop} {b : α}
    (hQ : ∀ c, Q c ↔ c ≠ b ∧ P c) (hk : cell k = b :: cell' k)
    (hother : ∀ j, j ≠ k → cell' j = cell j) : Ledger Q cell' := by
  have hhead := h.nodup k
  rw [hk, List.nodup_cons] at hhead
  have hmem : ∀ j c, c ∈ cell' j ↔ c ≠ b ∧ c ∈ cell j := by
    intro j c
    by_cases hj : j = k
    · subst hj
      rw [hk, List.mem_cons]
      constructor
      · intro hc
        exact ⟨fun heq => hhead.1 (heq ▸ hc), .inr hc⟩
      · rintro ⟨hne, rfl | hc⟩
        · exact (hne rfl).elim
        · exact hc
    · rw [hother j hj]
      refine ⟨fun hc => ⟨fun heq => ?_, hc⟩, And.right⟩
      exact hj (h.only j k b (heq ▸ hc) (hk ▸ List.mem_cons_self))
  refine ⟨fun j => ?_, fun i j c hi hj => ?_, fun c => ?_⟩
  · by_cases hj : j = k
    · subst hj
      exact hhead.2
    · rw [hother j hj]
      exact h.nodup j
  · exact h.only i j c ((hmem i c).mp hi).2 ((hmem j c).mp hj).2
  · simp only [hQ, hmem, h.mem c, exists_and_left]

/-- Leaving out places that have no items. -/
theorem Ledger.reindex {κ' : Type*} (h : Ledger P cell) (place : κ' → κ)
    (hinj : Function.Injective place) (hall : ∀ k b, b ∈ cell k → ∃ j, place j = k) :
    Ledger P fun j => cell (place j) where
  nodup j := h.nodup (place j)
  only i j b hi hj := hinj (h.only (place i) (place j) b hi hj)
  mem b := by
    rw [h.mem b]
    constructor
    · rintro ⟨k, hk⟩
      obtain ⟨j, rfl⟩ := hall k b hk
      exact ⟨j, hk⟩
    · rintro ⟨j, hj⟩
      exact ⟨place j, hj⟩

/-- A ledger whose items all start in one place. -/
theorem ledger_single [DecidableEq κ] (k : κ) {items : List α} (h : items.Nodup) :
    Ledger (fun b => b ∈ items) (fun j => if j = k then items else []) where
  nodup j := by
    split
    · exact h
    · exact List.nodup_nil
  only i j b hi hj := by
    split at hi
    · split at hj
      · simp_all
      · cases hj
    · cases hi
  mem b := by
    constructor
    · intro hb
      exact ⟨k, by simpa using hb⟩
    · rintro ⟨j, hj⟩
      split at hj
      · exact hj
      · cases hj

end PoolMemalloc.Verified.Conservation
