import PoolMemalloc.Ports.CacheInterference
import PoolMemalloc.Verified.Hysteresis

/-!
# How often a `ThreadCache` goes to the global list

Between calls `local_size` is the level of a buffer with `low_watermark` and
`high_watermark`: a refill that obtains the whole batch and a flush both leave it
halfway, so they are at least half a batch of calls apart.

A call with a refill takes several steps.  `Pace` relates a state within it to the
buffer as it was before the call.
-/

namespace PoolMemalloc.Ports.CacheTraffic

open PoolMemalloc.Verified.Transition
open PoolMemalloc.Verified.Hysteresis
open PoolMemalloc.Ports.CacheInterference

/-- A refill does not run into an empty global list, so it obtains the batch. -/
def Supplied (s : State) : Event → Prop
  | .pop => ∀ n ∈ s.pc.obtained, n < s.cache.batchSize → s.head.ptr ≠ 0
  | _ => True

instance Supplied.decidable (s : State) (e : Event) : Decidable (Supplied s e) :=
  match e with
  | .pop => inferInstanceAs (Decidable (∀ n ∈ s.pc.obtained, _))
  | .alloc => isTrue trivial
  | .dealloc _ => isTrue trivial
  | .push => isTrue trivial
  | .interfere _ _ _ _ => isTrue trivial

/-- The watermarks of a cache, and the sizes at which refill and flush leave it. -/
def band (batch : Nat) (hpos : 0 < batch) : Band where
  low := batch / 2
  high := batch * 2
  floor := batch - 1
  ceil := batch + batch / 2
  gap := (batch + 1) / 2
  low_gap := by omega
  high_gap := by omega

def gauge (s : State) : Gauge where
  level := s.cache.localSize
  calls := s.calls
  transfers := s.transfers

/-- Within a refill the buffer was at the low watermark before the call. -/
def Pace (w : Band) (s : State) : Prop :=
  match s.pc.obtained with
  | none => Paced w (gauge s)
  | some _ =>
      ∃ before : Gauge, Paced w before ∧ before.level = s.cache.localSize ∧
        before.level ≤ w.low ∧ s.calls = before.calls + 1 ∧
        s.transfers = (before.calls + 1) :: before.transfers

section Traffic

variable {batch : Nat} {hpos : 0 < batch} {s s' : State} {e : Event}

theorem gauge_eq (hsize : s'.cache.localSize = s.cache.localSize)
    (hcalls : s'.calls = s.calls) (htransfers : s'.transfers = s.transfers) :
    gauge s' = gauge s := by
  rw [gauge, gauge, hsize, hcalls, htransfers]

/-- Every step keeps the pace, if refills obtain the whole batch. -/
theorem Pace.step (h : Pace (band batch hpos) s) (hbatch : s.cache.batchSize = batch)
    (hsupplied : Supplied s e) (hcounted : Counted batch s e s') :
    Pace (band batch hpos) s' := by
  cases hcounted with
  | same hobtained hsize hcalls htransfers =>
      rw [Pace] at h ⊢
      rw [hobtained, hsize, hcalls, htransfers, gauge_eq hsize hcalls htransfers]
      exact h
  | taken hidle hlow hidle' hsize hcalls htransfers =>
      rw [Pace, hidle] at h
      rw [Pace, hidle', gauge, hsize, hcalls, htransfers]
      exact Paced.call h .drain
  | put hidle hhigh hidle' hsize hcalls htransfers =>
      rw [Pace, hidle] at h
      rw [Pace, hidle', gauge, hsize, hcalls, htransfers]
      exact Paced.call h .fill
  | refill hidle hlow hobtained hsize hcalls htransfers =>
      rw [Pace, hidle] at h
      rw [Pace, hobtained]
      exact ⟨gauge s, h, hsize.symm, hlow, hcalls, htransfers⟩
  | popped n hobtained hmore hobtained' hsize hcalls htransfers =>
      rw [Pace, hobtained] at h
      rw [Pace, hobtained', hsize, hcalls, htransfers]
      exact h
  | refilled n hevent hobtained hmax hdry hidle hsize hcalls htransfers =>
      subst hevent
      have hall : n = batch := by
        by_contra hpart
        have hmore : n < batch := by omega
        exact hsupplied n hobtained (by rwa [hbatch]) (hdry hmore)
      subst hall
      rw [Pace, hobtained] at h
      obtain ⟨before, hpaced, hlevel, hlow, hcalls', htransfers'⟩ := h
      rw [Pace, hidle, gauge, hsize, hcalls, htransfers, hcalls', htransfers', ← hlevel]
      have hle : before.level ≤ n / 2 := hlow
      refine hpaced.call (.transfer _ (Or.inl hlow) ?_ ?_)
      · show n - 1 ≤ before.level + n - 1
        omega
      · show before.level + n - 1 ≤ n + n / 2
        omega
  | flush hidle hhigh hidle' hsize hcalls htransfers =>
      rw [Pace, hidle] at h
      rw [Pace, hidle', gauge, hsize, hcalls, htransfers]
      refine Paced.call h (.transfer batch (Or.inr (Nat.le_of_eq hhigh.symm)) ?_ ?_)
      · exact Nat.sub_le batch 1
      · exact Nat.le_add_right batch (batch / 2)

/-- The calls that have gone to the global list, the running one included. -/
theorem Pace.spaced (h : Pace (band batch hpos) s) :
    Spaced ((batch + 1) / 2) s.transfers ∧ ∀ t ∈ s.transfers, t ≤ s.calls := by
  rw [Pace] at h
  match hobtained : s.pc.obtained with
  | none =>
      rw [hobtained] at h
      exact ⟨h.spaced, h.past⟩
  | some n =>
      rw [hobtained] at h
      obtain ⟨before, hpaced, -, hlow, hcalls, htransfers⟩ := h
      rw [hcalls, htransfers]
      refine ⟨hpaced.spaced_due (Or.inl hlow), fun t ht => ?_⟩
      rcases List.mem_cons.mp ht with rfl | ht
      · exact Nat.le_refl _
      · exact (hpaced.past t ht).trans (Nat.le_succ _)

theorem pace_of_reachable (hpos : 0 < batch) (hbatch : batch * 2 < 2 ^ 64)
    (h : Reachable (restrict (steps batch) Supplied) s) : Pace (band batch hpos) s := by
  refine Reachable.invariant (P := Pace (band batch hpos)) (fun s hinit => ?_)
    (fun s e s' hreach hpace hstep => ?_) h
  · have hstart : Start batch s := hinit
    rw [Pace, hstart.pc]
    exact paced_nil hstart.transfers
  · have hinv := Inv.of_reachable hbatch hreach.of_restrict
    have hconstant : s.cache.batchSize = batch := by
      obtain ⟨g, l, x, hholds, -⟩ := hinv
      exact hholds.batchSize
    exact hpace.step hconstant hstep.1 (Inv.step hbatch hinv hstep.2).2

end Traffic

/-- Calls that refill or flush are at least half a batch of calls apart, so `m` calls
contain at most `1 + m / ⌈batch / 2⌉` of them. -/
theorem traffic_bounded (batch : Nat) (hpos : 1 ≤ batch) (hbatch : batch * 2 < 2 ^ 64)
    (s : State) (h : Reachable (restrict (steps batch) Supplied) s) :
    s.transfers.IsChain (fun later earlier => earlier + (batch + 1) / 2 ≤ later) ∧
      s.transfers.length ≤ 1 + s.calls / ((batch + 1) / 2) := by
  obtain ⟨hspaced, hpast⟩ := (pace_of_reachable hpos hbatch h).spaced
  exact ⟨hspaced, hspaced.length_le (by omega) hpast⟩

/-- A cache of batch size 2 beside a list of four blocks. -/
def cache2 : State where
  next block := if block < 256 then block + 64 else 0
  head := ⟨64, 0⟩
  cache := ThreadCache.construct () 2
  pc := .idle
  live := []
  held := []
  wrapped := false
  calls := 0
  transfers := []

theorem cache2_start : Start 2 cache2 where
  cache := rfl
  pc := rfl
  held := rfl
  unwrapped := rfl
  calls := rfl
  transfers := rfl
  items := ⟨[64, 128, 192, 256], by decide, by decide⟩

/-- Two allocations that refill, the closest that refills come. -/
theorem traffic_bounded_cache2 : ∃ s,
    replay exec cache2 [.alloc, .pop, .pop, .pop, .alloc, .pop, .pop, .pop] = some s ∧
      s.transfers.IsChain (fun later earlier => earlier + (2 + 1) / 2 ≤ later) ∧
      s.transfers.length ≤ 1 + s.calls / ((2 + 1) / 2) := by
  have hrun : (replay exec cache2
      [.alloc, .pop, .pop, .pop, .alloc, .pop, .pop, .pop]).isSome := by decide +kernel
  obtain ⟨s, hs⟩ := Option.isSome_iff_exists.mp hrun
  have hmeet : Along exec Supplied cache2
      [.alloc, .pop, .pop, .pop, .alloc, .pop, .pop, .pop] := by decide +kernel
  exact ⟨s, hs, traffic_bounded 2 (by decide) (by decide) s
    (Reachable.replay_restrict _ (.init cache2_start) hmeet hs)⟩

end PoolMemalloc.Ports.CacheTraffic
