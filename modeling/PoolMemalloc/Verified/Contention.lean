import PoolMemalloc.Verified.Transition

/-!
# Retry loops

A thread that loads a cell, computes from what it has found and exchanges the result
against it has to start again when the exchange fails.  Such a loop has no bound of its
own, but it is held up by others only: an exchange that has not failed spuriously has
lost to a change some other thread made since the load.

Here the steps of one thread are counted.  `stale` says that what it has loaded is not in
the cell any more, `rank` how many steps it still takes if no exchange fails.

* `Turn` — what a step of the system may do to the two.
* `bounded_of_reachable` — then the thread loses no more often than the others change the
  cell under it, and all its steps are paid for by its calls and its failures.
-/

namespace PoolMemalloc.Verified.Contention

open PoolMemalloc.Verified.Transition

universe u v

/-- What a step is for the thread that is watched. -/
inductive Kind
  /-- It does not concern the thread. -/
  | apart
  /-- The thread starts a call. -/
  | call
  /-- The thread makes a step of its call, which does not fail. -/
  | step
  /-- Another thread changes the cell after the thread's load. -/
  | rival
  /-- The thread's exchange fails because the cell has changed. -/
  | lose
  /-- The thread's exchange fails spuriously. -/
  | slip
  deriving Repr, DecidableEq

/-- How often each has happened; a failed exchange is a step too. -/
structure Tally where
  calls : Nat
  steps : Nat
  rivals : Nat
  losses : Nat
  slips : Nat
  deriving Repr, DecidableEq

def Tally.zero : Tally := ⟨0, 0, 0, 0, 0⟩

def Tally.add (n : Tally) : Kind → Tally
  | .apart => n
  | .call => { n with calls := n.calls + 1 }
  | .step => { n with steps := n.steps + 1 }
  | .rival => { n with rivals := n.rivals + 1 }
  | .lose => { n with steps := n.steps + 1, losses := n.losses + 1 }
  | .slip => { n with steps := n.steps + 1, slips := n.slips + 1 }

/-- What a step may do to a thread: `price` is the rank a call adds and `cost` that of a
failed exchange, the exchange itself included. -/
inductive Turn (price cost : Nat) (stale : Bool) (rank : Nat) : Kind → Bool → Nat → Prop
  | apart : Turn price cost stale rank .apart stale rank
  | call {rank' : Nat} (hrank : rank' ≤ rank + price) :
      Turn price cost stale rank .call false rank'
  /-- A step of its own leaves the thread with what it had loaded, with a new load, or
  with none. -/
  | step {stale' : Bool} {rank' : Nat} (hstale : stale' = true → stale = true)
      (hrank : rank' < rank) : Turn price cost stale rank .step stale' rank'
  | rival {stale' : Bool} : Turn price cost stale rank .rival stale' rank
  | lose {rank' : Nat} (hstale : stale = true) (hrank : rank' < rank + cost) :
      Turn price cost stale rank .lose false rank'
  | slip {rank' : Nat} (hrank : rank' < rank + cost) :
      Turn price cost stale rank .slip false rank'

/-- The accounts of a thread that began with the rank `rank₀`. -/
structure Bounded (price cost : Nat) (stale₀ : Bool) (rank₀ : Nat) (stale : Bool) (rank : Nat)
    (n : Tally) : Prop where
  losses : n.losses + stale.toNat ≤ n.rivals + stale₀.toNat
  steps : n.steps + rank ≤ rank₀ + price * n.calls + cost * (n.losses + n.slips)

section Accounts

variable {price cost rank₀ rank rank' : Nat} {stale₀ stale stale' : Bool} {n : Tally}
variable {kind : Kind}

theorem bounded_zero : Bounded price cost stale₀ rank₀ stale₀ rank₀ .zero where
  losses := by simp [Tally.zero]
  steps := by simp [Tally.zero]

theorem Bounded.turn (h : Bounded price cost stale₀ rank₀ stale rank n)
    (hturn : Turn price cost stale rank kind stale' rank') :
    Bounded price cost stale₀ rank₀ stale' rank' (n.add kind) := by
  obtain ⟨hlosses, hsteps⟩ := h
  cases hturn with
  | apart => exact ⟨hlosses, hsteps⟩
  | call hrank =>
      refine ⟨Nat.le_trans (Nat.le_add_right _ stale.toNat) hlosses, ?_⟩
      simp only [Tally.add, Nat.mul_add, Nat.mul_one] at hsteps ⊢
      omega
  | step hstale hrank =>
      constructor
      · simp only [Tally.add]
        cases stale' with
        | false =>
            show n.losses + 0 ≤ n.rivals + stale₀.toNat
            omega
        | true => rwa [hstale rfl] at hlosses
      · simp only [Tally.add]
        omega
  | rival =>
      refine ⟨?_, hsteps⟩
      have hone := stale'.toNat_le
      simp only [Tally.add]
      omega
  | lose hstale hrank =>
      rw [hstale] at hlosses
      refine ⟨hlosses, ?_⟩
      simp only [Tally.add, Nat.mul_add, Nat.mul_one] at hsteps ⊢
      omega
  | slip hrank =>
      refine ⟨Nat.le_trans (Nat.le_add_right _ stale.toNat) hlosses, ?_⟩
      simp only [Tally.add, Nat.mul_add, Nat.mul_one] at hsteps ⊢
      omega

end Accounts

section Runs

variable {σ : Type u} {ε : Type v} {exec : σ → ε → Option σ}
variable {kind : σ → ε → σ → Kind} {stale : σ → Bool} {rank : σ → Nat} {P : σ → Prop}
variable {price cost : Nat} {s₀ : σ} {s : σ × Tally}

/-- The runs from `s₀`, counted. -/
def counted (exec : σ → ε → Option σ) (kind : σ → ε → σ → Kind) (s₀ : σ) :
    System (σ × Tally) ε :=
  recorded (fun s => s = s₀) exec .zero fun s e s' n => n.add (kind s e s')

/-- The rule of the accounts, beside an invariant of the states. -/
theorem bounded_of_reachable (hP : P s₀) (hkeep : ∀ s e s', P s → exec s e = some s' → P s')
    (hturn : ∀ s e s', P s → exec s e = some s' →
      Turn price cost (stale s) (rank s) (kind s e s') (stale s') (rank s'))
    (h : Reachable (counted exec kind s₀) s) :
    P s.1 ∧ Bounded price cost (stale s₀) (rank s₀) (stale s.1) (rank s.1) s.2 := by
  induction h with
  | init h =>
      obtain ⟨hfirst, hblank⟩ := h
      rw [hfirst, hblank]
      exact ⟨hP, bounded_zero⟩
  | step _ hstep ih =>
      obtain ⟨hp, hbounded⟩ := ih
      obtain ⟨hexec, hnote⟩ := record_eq hstep
      rw [hnote]
      exact ⟨hkeep _ _ _ hp hexec, hbounded.turn (hturn _ _ _ hp hexec)⟩

end Runs

end PoolMemalloc.Verified.Contention
