import Mathlib.Data.List.Chain

/-!
# A buffer between two watermarks

A buffer is filled or drained by one unit a call.  At or below the low watermark, and
at or above the high one, a call may instead be a transfer, which sets the level to
somewhere between `floor` and `ceil`.  `Paced` is the invariant: the number of calls
since the last transfer bounds how far the level has moved from where the transfer
left it.  A transfer then comes at least `gap` calls after the one before it, and
`Spaced.length_le` turns the gaps into a bound on the number of transfers.
-/

namespace PoolMemalloc.Verified.Hysteresis

/-- Watermarks, the levels a transfer leaves, and a distance both are apart by. -/
structure Band where
  low : Nat
  high : Nat
  floor : Nat
  ceil : Nat
  gap : Nat
  low_gap : low + gap ≤ floor + 1
  high_gap : ceil + gap ≤ high + 1

structure Gauge where
  level : Nat
  calls : Nat
  /-- The numbers of the calls that were transfers, the latest first. -/
  transfers : List Nat
  deriving Repr, DecidableEq

inductive Band.Call (w : Band) (s : Gauge) : Gauge → Prop
  | fill : w.Call s { s with level := s.level + 1, calls := s.calls + 1 }
  | drain : w.Call s { s with level := s.level - 1, calls := s.calls + 1 }
  | transfer (level : Nat) (hdue : s.level ≤ w.low ∨ w.high ≤ s.level)
      (hfloor : w.floor ≤ level) (hceil : level ≤ w.ceil) :
      w.Call s
        { level := level
          calls := s.calls + 1
          transfers := (s.calls + 1) :: s.transfers }

/-- Times, the latest first, no two of which are less than `gap` apart. -/
def Spaced (gap : Nat) (times : List Nat) : Prop :=
  times.IsChain fun later earlier => earlier + gap ≤ later

/-- Transfers are spaced, and the level cannot have drifted far since the last. -/
structure Paced (w : Band) (s : Gauge) : Prop where
  spaced : Spaced w.gap s.transfers
  past : ∀ t ∈ s.transfers, t ≤ s.calls
  floor : ∀ t ∈ s.transfers.head?, w.floor ≤ s.level + (s.calls - t)
  ceil : ∀ t ∈ s.transfers.head?, s.level ≤ w.ceil + (s.calls - t)

section Spacing

variable {gap n : Nat} {times : List Nat}

theorem Spaced.mul_le {t : Nat} (h : Spaced gap (t :: times)) :
    times.length * gap ≤ t := by
  induction times generalizing t with
  | nil => simp
  | cons earlier rest ih =>
      obtain ⟨hgap, hrest⟩ := List.isChain_cons_cons.mp h
      have hearlier := ih hrest
      rw [List.length_cons, Nat.succ_mul]
      omega

/-- Times up to `n` that are spaced by `gap` number at most `1 + n / gap`. -/
theorem Spaced.length_le (hgap : 0 < gap) (h : Spaced gap times)
    (hpast : ∀ t ∈ times, t ≤ n) : times.length ≤ 1 + n / gap := by
  cases times with
  | nil => simp
  | cons t rest =>
      have hrest : rest.length ≤ n / gap := by
        rw [Nat.le_div_iff_mul_le hgap]
        exact h.mul_le.trans (hpast t List.mem_cons_self)
      rw [List.length_cons]
      omega

end Spacing

section Pace

variable {w : Band} {s s' : Gauge}

/-- A buffer that has made no call. -/
theorem paced_nil (h : s.transfers = []) : Paced w s where
  spaced := by
    rw [h]
    exact List.isChain_nil
  past := by simp [h]
  floor := by simp [h]
  ceil := by simp [h]

/-- When a transfer is due, the last one is `gap` calls away. -/
theorem Paced.spaced_due (h : Paced w s) (hdue : s.level ≤ w.low ∨ w.high ≤ s.level) :
    Spaced w.gap ((s.calls + 1) :: s.transfers) := by
  refine List.isChain_cons.mpr ⟨fun t ht => ?_, h.spaced⟩
  have hpast := h.past t (List.mem_of_mem_head? ht)
  have hlow := w.low_gap
  have hhigh := w.high_gap
  have hfloor := h.floor t ht
  have hceil := h.ceil t ht
  rcases hdue with hdue | hdue <;> omega

/-- The invariant is kept by every call. -/
theorem Paced.call (h : Paced w s) (hcall : w.Call s s') : Paced w s' := by
  have hpast : ∀ t ∈ s.transfers, t ≤ s.calls + 1 := fun t ht =>
    (h.past t ht).trans (Nat.le_succ _)
  cases hcall with
  | fill =>
      refine ⟨h.spaced, hpast, fun t ht => ?_, fun t ht => ?_⟩
      · have hfloor := h.floor t ht
        show w.floor ≤ s.level + 1 + (s.calls + 1 - t)
        omega
      · have hceil := h.ceil t ht
        have hle := h.past t (List.mem_of_mem_head? ht)
        show s.level + 1 ≤ w.ceil + (s.calls + 1 - t)
        omega
  | drain =>
      refine ⟨h.spaced, hpast, fun t ht => ?_, fun t ht => ?_⟩
      · have hfloor := h.floor t ht
        have hle := h.past t (List.mem_of_mem_head? ht)
        show w.floor ≤ s.level - 1 + (s.calls + 1 - t)
        omega
      · have hceil := h.ceil t ht
        show s.level - 1 ≤ w.ceil + (s.calls + 1 - t)
        omega
  | transfer level hdue hfloor hceil =>
      refine ⟨h.spaced_due hdue, ?_, ?_, ?_⟩
      · intro t ht
        rcases List.mem_cons.mp ht with rfl | ht
        · exact Nat.le_refl _
        · exact hpast t ht
      · rintro t ⟨⟩
        show w.floor ≤ level + _
        omega
      · rintro t ⟨⟩
        show level ≤ w.ceil + _
        omega

end Pace

end PoolMemalloc.Verified.Hysteresis
