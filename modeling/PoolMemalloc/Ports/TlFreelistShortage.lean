import Mathlib.Algebra.Order.BigOperators.Group.List
import Mathlib.Algebra.Order.Ring.Nat
import PoolMemalloc.Ports.TlFreelistLinearizable

/-!
# When an interleaved `alloc` returns null

`PoolMemalloc.Ports.CacheExhaustion` has the whole calls; here `alloc` returns null while
other threads are in the middle of theirs.  The moment that counts is the one at which its
`pop_bulk` has found no node: then every block is live, or with another thread that has
called the allocator, and no thread ever has more than `2 * batch + 1`
(`Related.length_le`).
-/

namespace PoolMemalloc.Ports.TlFreelistLinearizable

open PoolMemalloc.Verified.SizeT
open PoolMemalloc.Verified.Transition
open PoolMemalloc.Verified.LinkedChain
open PoolMemalloc.Verified.Conservation
open PoolMemalloc.Verified.Linearization
open PoolMemalloc.Ports.FreelistAllocator
open PoolMemalloc.Ports.CacheWorld (addresses)
open PoolMemalloc.Ports.ThreadCache (refilled flushed refilled_perm flushed_perm
  refilled_eq_nil)
open PoolMemalloc.Ports.TlFreelistAllocator (Allocator Constructed blocksOf
  nodup_blocksOf length_blocksOf)
open PoolMemalloc.Ports.TlFreelistInterleaving

/-! ## How much one thread can have -/

section Bounds

variable {blockSz numBlocks batch : Nat} {a : Allocator} {next : Heap} {g : List Nat}
variable {l x la : Nat → List Nat} {ga : Unit → List Nat} {s : State} {t : Nat}
variable {c : Shared (TlFreelistCalls.State Nat) Nat Call Nat}

theorem length_of_refilled {batch : Nat} {g ga l la x : List Nat}
    (hrefilled : refilled batch ga la = (g, x ++ l)) (hla : la.length ≤ 2 * batch) :
    l.length + x.length ≤ 2 * batch + 1 := by
  have hlength : (refilled batch ga la).2.length ≤ 2 * batch + 1 := by
    unfold refilled
    split
    · rw [List.length_append]
      have htake := List.length_take_le (max batch 1) ga
      omega
    · exact Nat.le_succ_of_le hla
  rw [hrefilled] at hlength
  simp only [List.length_append] at hlength
  omega

/-- A flush loses no node. -/
theorem length_flushed (batch : Nat) {g l : List Nat} :
    (flushed batch g l).1.length + (flushed batch g l).2.length = g.length + l.length := by
  have hperm := (flushed_perm batch g l).length_eq
  rwa [List.length_append, List.length_append] at hperm

/-- While nodes are pushed, those that are not yet on the list. -/
theorem length_of_flushed {batch block : Nat} {g ga l la x : List Nat}
    (hflushed : flushed batch ga (block :: la) = (x.reverse ++ g, l))
    (hle : ga.length ≤ g.length) (hla : la.length ≤ 2 * batch) :
    l.length + x.length ≤ 2 * batch + 1 := by
  have heq : _ = ga.length + (block :: la).length := length_flushed batch
  rw [hflushed] at heq
  simp only [List.length_append, List.length_reverse, List.length_cons] at heq
  omega

/-- The nodes that are left on the chain. -/
theorem length_le_of_flushed {batch block : Nat} {g ga l la : List Nat}
    (hflushed : flushed batch ga (block :: la) = (g, l)) : l.length ≤ la.length + 1 := by
  have hlength : (flushed batch ga (block :: la)).2.length ≤ (block :: la).length := by
    unfold flushed
    split
    · rw [List.length_drop]
      omega
    · exact Nat.le_refl _
  rwa [hflushed] at hlength

/-- An `alloc` has taken one node. -/
theorem Took.length_le {batch : Nat} {l la x : List Nat} {stage : Stage Call Nat}
    (h : Took la (x ++ l) stage) (hla : la.length ≤ 2 * batch) :
    l.length + x.length ≤ 2 * batch + 1 := by
  rw [h.2, List.length_tail, List.length_append] at hla
  omega

/-- The nodes of a chain on which a `dealloc` has put its block. -/
theorem Flushing.length_eq {batch excess : Nat} {la : List Nat} {stage : Stage Call Nat}
    {h : Hand} (hflushing : Flushing batch la stage h excess) :
    h.chain.length = la.length + 1 := by
  obtain ⟨block, -, hchain, -⟩ := hflushing
  rw [hchain, List.length_cons]

/-- Wherever it is, a thread has few more nodes than its cache between calls. -/
theorem Matches.length_le {batch n localHead : Nat} {next : Heap} {pc : Pc}
    {g ga lt xt la : List Nat} {stage : Stage Call Nat}
    (hm : Matches batch g ga la stage ⟨pc, n, lt, xt⟩) (hholds : At next localHead lt xt pc)
    (hla : la.length ≤ 2 * batch) : lt.length + xt.length ≤ 2 * batch + 1 := by
  cases pc with
  | refillMore start tail count =>
      simp only [Matches, Same] at hm
      obtain ⟨-, ⟨rfl, hsize⟩, hlow, -, hcount, -, hle⟩ := hm
      omega
  | refillLink start tail count following =>
      simp only [Matches, Same] at hm
      obtain ⟨-, ⟨rfl, hsize⟩, hlow, -, hcount, hlt⟩ := hm
      omega
  | refillNull start tail =>
      exact length_of_refilled hm.2.2.2 hla
  | refillUnlock start =>
      exact length_of_refilled hm.2.2.2 hla
  | refillWalk start tail count =>
      exact Took.length_le hm.1 hla
  | refillAdvance start tail count =>
      exact Took.length_le hm.1 hla
  | refillSplice start tail count =>
      exact Took.length_le hm.1 hla
  | refillSet start count =>
      exact Took.length_le hm.1 hla
  | allocTake =>
      rw [hholds.2]
      exact Took.length_le (x := []) hm.1 hla
  | allocated block =>
      obtain ⟨-, rfl, -⟩ := hm
      rw [hholds.2, List.length_singleton]
      omega
  | deallocLink block =>
      obtain ⟨-, rfl, -⟩ := hm
      rw [hholds.2, List.length_singleton]
      omega
  | deallocSet block =>
      obtain ⟨-, rfl, -⟩ := hm
      rw [hholds.2.1, List.length_singleton]
      omega
  | flushTest excess =>
      have heq : lt.length = la.length + 1 := Flushing.length_eq hm
      rw [hholds.2, List.length_nil]
      omega
  | flushWalk excess batchHead batchTail count =>
      have heq : lt.length = la.length + 1 := Flushing.length_eq hm.1
      rw [hholds.2.1, List.length_nil]
      omega
  | flushAdvance excess batchHead batchTail count =>
      have heq : lt.length = la.length + 1 := Flushing.length_eq hm.1
      rw [hholds.2.1, List.length_nil]
      omega
  | flushCut batchHead batchTail count =>
      obtain ⟨excess, hflushing, -⟩ := hm
      have heq : lt.length = la.length + 1 := Flushing.length_eq hflushing
      rw [hholds.2.1, List.length_nil]
      omega
  | flushNull batchHead batchTail count =>
      obtain ⟨block, -, hflushed, -⟩ := hm
      exact length_of_flushed (hflushed ga) (Nat.le_refl _) hla
  | flushShrink batchHead batchTail count =>
      obtain ⟨block, -, hflushed, -⟩ := hm
      exact length_of_flushed (hflushed ga) (Nat.le_refl _) hla
  | pushLock batchHead batchTail =>
      obtain ⟨block, -, hflushed, -⟩ := hm
      exact length_of_flushed (hflushed ga) (Nat.le_refl _) hla
  | pushNull batchHead batchTail =>
      obtain ⟨block, -, hflushed, -, hle⟩ := hm
      exact length_of_flushed hflushed hle hla
  | pushRead node =>
      obtain ⟨block, -, hflushed, -, hle⟩ := hm
      exact length_of_flushed hflushed hle hla
  | pushNode node following =>
      obtain ⟨block, -, hflushed, -, hle⟩ := hm
      exact length_of_flushed hflushed hle hla
  | pushUnlock =>
      obtain ⟨block, -, hflushed, -⟩ := hm
      have hle : lt.length ≤ la.length + 1 := length_le_of_flushed hflushed
      rw [hholds.2, List.length_nil]
      omega
  | _ =>
      have hsame : la = lt := by
        first
          | exact hm.2.1
          | exact hm.2.1.1
      rw [hholds.2, ← hsame, List.length_nil]
      omega

/-- Between two steps no thread has more than `2 * batch + 1` nodes. -/
theorem Related.length_le (h : Related a g l x ga la s c)
    (hbatch : a.batchSize * 2 < 2 ^ 64) (t : Nat) :
    (l t).length + (x t).length ≤ 2 * a.batchSize + 1 :=
  (h.matched t).length_le (h.inv.holds t) (h.answering.whole.short hbatch t)

end Bounds

/-! ## The moment a refill finds nothing -/

section Dry

variable {blockSz numBlocks batch : Nat} {a : Allocator} {next : Heap} {g g' : List Nat}
variable {l x la : Nat → List Nat} {ga : Unit → List Nat} {s s' : State} {t : Nat}
variable {c : Shared (TlFreelistCalls.State Nat) Nat Call Nat}

/-- `pop_bulk` returns null only if the global list is empty. -/
theorem Related.global_nil (h : Related a g l x ga la s c)
    (hpc : (s.threads t).pc = .refillUnlock 0) : g = [] ∧ x t = [] := by
  obtain ⟨-, hchain⟩ := h.inv.holds_at hpc
  have hnone : x t = [] := hchain.eq_nil_iff.mpr rfl
  have hmatched := h.matched t
  simp only [State.hand, hpc, hnone] at hmatched
  obtain ⟨-, ⟨hsame, hsize⟩, hlow, hrefilled⟩ := hmatched
  simp only [List.nil_append] at hsame hsize hlow hrefilled
  rw [refilled, if_pos (by rw [hsame, ← hsize]; exact hlow), hsame] at hrefilled
  obtain ⟨hdrop, htake⟩ := Prod.mk.inj hrefilled
  rw [List.append_left_eq_self, List.take_eq_nil_iff] at htake
  refine ⟨?_, hnone⟩
  rcases htake with hzero | hempty
  · omega
  · rw [← hdrop, hempty, List.drop_nil]

/-- A chain is empty after a refill only if the refill has found nothing. -/
theorem Matches.dried {batch : Nat} {ga la : List Nat} {stage : Stage Call Nat} {h h' : Hand}
    (hm : Matches batch g ga la stage h) (hmoves : Moves batch g h g' h')
    (hpc : h'.pc = .allocTake) (hnil : h'.chain = []) :
    h.pc = .refillUnlock 0 ∧ h.chain = [] := by
  cases hmoves with
  | allocHigh hlow =>
      obtain ⟨-, -, hsize⟩ := hm
      simp only at hnil hsize
      rw [hsize, hnil] at hlow
      exact (hlow (Nat.zero_le _)).elim
  | unlockNone => exact ⟨rfl, hnil⟩
  | refillSet => exact (hm.2.2.2 (List.append_eq_nil_iff.mp hnil).1).elim
  | _ => cases hpc

/-- Then every block is live or with another thread that has called the allocator. -/
theorem Related.shortage (ha : Constructed blockSz numBlocks batch a next)
    (h : Related a g l x ga la s c) (hbatch : a.batchSize * 2 < 2 ^ 64)
    (hpc : (s.threads t).pc = .refillUnlock 0) (hnull : (s.threads t).localHead = 0)
    {users : List Nat} (husers : ∀ u, u ∉ users → l u = [] ∧ x u = []) :
    a.blockCount ≤ s.live.length + (users.erase t).length * (2 * a.batchSize + 1) := by
  obtain ⟨hg, hx⟩ := h.global_nil hpc
  have hl : l t = [] := (h.inv.holds_at hpc).1.eq_nil_iff.mpr hnull
  have hsub : blocksOf a.blockSize a.region a.blockCount ⊆
      s.live ++ (users.erase t).flatMap fun u => l u ++ x u := by
    have hheld : ∀ u b, b ∈ l u ++ x u → u ∈ users.erase t := by
      intro u b hb
      have hne : u ≠ t := by
        rintro rfl
        rw [hl, hx] at hb
        cases hb
      refine (List.mem_erase_of_ne hne).mpr (Classical.not_not.mp fun hidle => ?_)
      rw [(husers u hidle).1, (husers u hidle).2] at hb
      cases hb
    intro b hb
    rw [List.mem_append, List.mem_flatMap]
    obtain ⟨k, hk⟩ := (h.inv.ledger.mem b).mp hb
    cases k with
    | global =>
        have hmem : b ∈ g := hk
        rw [hg] at hmem
        cases hmem
    | user => exact .inl hk
    | cache u =>
        have hmem : b ∈ l u ++ x u := List.mem_append_left _ hk
        exact .inr ⟨u, hheld u b hmem, hmem⟩
    | transit u =>
        have hmem : b ∈ l u ++ x u := List.mem_append_right _ hk
        exact .inr ⟨u, hheld u b hmem, hmem⟩
  have hall := (List.subperm_of_subset (nodup_blocksOf ha.placed) hsub).length_le
  have hheld : ((users.erase t).flatMap fun u => l u ++ x u).length ≤
      (users.erase t).length * (2 * a.batchSize + 1) := by
    rw [List.length_flatMap]
    have hsum := List.sum_le_card_nsmul
      ((users.erase t).map fun u => (l u ++ x u).length) (2 * a.batchSize + 1)
      (by simpa using fun u _ => h.length_le hbatch u)
    rwa [List.length_map, nsmul_eq_mul, Nat.cast_id] at hsum
  rw [List.length_append, length_blocksOf] at hall
  omega

end Dry

/-! ## Runs -/

/-- What is noted of a run: the threads that have called the allocator, and for the
running `alloc` of a thread how many blocks were live when its refill found nothing. -/
structure Past where
  users : List Nat
  dry : Nat → Option Nat

def Past.after (s : State) (e : Event) (past : Past) : Past :=
  match e with
  | .callAlloc t =>
      { users := past.users.insert t, dry := Function.update past.dry t none }
  | .callDealloc t _ => { past with users := past.users.insert t }
  | .step t =>
      if (s.threads t).pc = .refillUnlock 0 ∧ (s.threads t).localHead = 0 then
        { past with dry := Function.update past.dry t (some s.live.length) }
      else past
  | .scribble _ _ => past

def pasts (a : Allocator) (next : Heap) : System (State × Past) Event :=
  recorded (fun s => s = start a next) (exec a.batchSize) { users := [], dry := fun _ => none }
    fun s e _ past => past.after s e

/-- What holds of a run so far. -/
structure Scarce (a : Allocator) (s : State) (past : Past) : Prop where
  users : past.users.Nodup
  idle : ∀ u, u ∉ past.users → (s.threads u).pc = .idle ∧ (s.threads u).localHead = 0
  null : ∀ t, (s.threads t).pc = .allocTake → (s.threads t).localHead = 0 →
    ∃ n, past.dry t = some n ∧
      a.blockCount ≤ n + (past.users.erase t).length * (2 * a.batchSize + 1)

section Runs

variable {blockSz numBlocks batch : Nat} {a : Allocator} {next : Heap} {g : List Nat}
variable {l x la : Nat → List Nat} {ga : Unit → List Nat} {s s' : State} {t u : Nat}
variable {c : Shared (TlFreelistCalls.State Nat) Nat Call Nat} {past : Past}

theorem length_erase_insert_le (users : List Nat) (t u : Nat) :
    (users.erase u).length ≤ ((users.insert t).erase u).length := by
  by_cases ht : t ∈ users
  · rw [List.insert_of_mem ht]
  · rw [List.insert_of_not_mem ht]
    by_cases hu : t = u
    · subst hu
      rw [List.erase_cons_head]
      exact List.length_erase_le
    · rw [List.erase_cons_tail (by simpa using hu), List.length_cons]
      exact Nat.le_succ _

/-- A call begins: nobody is about to return null who was not before. -/
theorem Scarce.called (h : Scarce a s past) {dry : Nat → Option Nat}
    (hothers : ∀ u, u ≠ t → s'.threads u = s.threads u ∧ dry u = past.dry u)
    (hself : (s'.threads t).pc ≠ .allocTake) :
    Scarce a s' { users := past.users.insert t, dry := dry } where
  users := h.users.insert
  idle u hu := by
    rw [List.mem_insert_iff, not_or] at hu
    rw [(hothers u hu.1).1]
    exact h.idle u hu.2
  null u hpc hnull := by
    have hu : u ≠ t := fun heq => hself (heq ▸ hpc)
    rw [(hothers u hu).1] at hpc hnull
    obtain ⟨n, hdry, hle⟩ := h.null u hpc hnull
    refine ⟨n, (hothers u hu).2.trans hdry, hle.trans ?_⟩
    have hmono := Nat.mul_le_mul_right (2 * a.batchSize + 1)
      (length_erase_insert_le past.users t u)
    exact Nat.add_le_add_left hmono n

/-- Threads that have not called hold nothing. -/
theorem Scarce.unused (h : Scarce a s past) (hrelated : Related a g l x ga la s c)
    (hu : u ∉ past.users) : l u = [] ∧ x u = [] := by
  obtain ⟨hidle, hnull⟩ := h.idle u hu
  obtain ⟨hchain, hnone⟩ := hrelated.inv.holds_at hidle
  exact ⟨hchain.eq_nil_iff.mpr hnull, hnone⟩

theorem busy_of_step {batchSize : Nat} (hexec : exec batchSize s (.step t) = some s') :
    (s.threads t).pc ≠ .idle := by
  intro hidle
  simp [exec, hidle, callStep, refillStep, flushStep] at hexec

theorem Scarce.stepped (ha : Constructed blockSz numBlocks batch a next)
    (hbatch : a.batchSize * 2 < 2 ^ 64) (h : Scarce a s past)
    (hrelated : Related a g l x ga la s c) (hexec : exec a.batchSize s (.step t) = some s') :
    Scarce a s' (past.after s (.step t)) := by
  have hothers : ∀ u, u ≠ t → s'.threads u = s.threads u := (footprint hexec).others
  have husers : (past.after s (.step t)).users = past.users := by
    simp only [Past.after]
    split <;> rfl
  have hcaller : t ∈ past.users := Classical.not_not.mp fun hnew =>
    busy_of_step hexec (h.idle t hnew).1
  refine ⟨husers ▸ h.users, fun u hu => ?_, fun u hpc hnull => ?_⟩
  · rw [husers] at hu
    have hne : u ≠ t := fun heq => hu (heq ▸ hcaller)
    rw [hothers u hne]
    exact h.idle u hu
  · rw [husers]
    by_cases hu : u = t
    · subst hu
      obtain ⟨g', l', x', hmoves, -, hinv⟩ := hrelated.inv.moves hexec
      have hempty : l' u = [] := (hinv.holds u).chain.eq_nil_iff.mpr hnull
      obtain ⟨hbefore, hnil⟩ := (hrelated.matched u).dried hmoves hpc hempty
      have hhead : (s.threads u).localHead = 0 :=
        (hrelated.inv.holds u).chain.eq_nil_iff.mp hnil
      refine ⟨s.live.length, ?_, hrelated.shortage ha hbatch hbefore hhead fun v hv =>
        h.unused hrelated hv⟩
      have hmoment : (s.threads u).pc = .refillUnlock 0 ∧ (s.threads u).localHead = 0 :=
        ⟨hbefore, hhead⟩
      simp only [Past.after, if_pos hmoment, Function.update_self]
    · rw [hothers u hu] at hpc hnull
      obtain ⟨n, hdry, hle⟩ := h.null u hpc hnull
      refine ⟨n, ?_, hle⟩
      rw [← hdry]
      simp only [Past.after]
      split
      · exact Function.update_of_ne hu _ _
      · rfl

theorem Scarce.step (ha : Constructed blockSz numBlocks batch a next)
    (hbatch : a.batchSize * 2 < 2 ^ 64) (h : Scarce a s past)
    (hs : Reachable (steps a next) s) {e : Event} (hexec : exec a.batchSize s e = some s') :
    Scarce a s' (past.after s e) := by
  cases e with
  | callAlloc t =>
      simp only [exec, Option.ite_none_right_eq_some, Option.some.injEq] at hexec
      obtain ⟨-, rfl⟩ := hexec
      refine h.called (fun u hu => ⟨Function.update_of_ne hu _ _,
        Function.update_of_ne hu _ _⟩) ?_
      simp [State.goto, State.setThread]
  | callDealloc t ptr =>
      simp only [exec, Option.ite_none_right_eq_some] at hexec
      obtain ⟨hidle, hexec⟩ := hexec
      split at hexec
      · cases hexec
        exact h.called (fun _ _ => ⟨rfl, rfl⟩) (by simp [hidle])
      · simp only [Option.ite_none_right_eq_some, Option.some.injEq] at hexec
        obtain ⟨-, rfl⟩ := hexec
        refine h.called (fun u hu => ⟨Function.update_of_ne hu _ _, rfl⟩) ?_
        simp [State.goto, State.setThread]
  | step t =>
      obtain ⟨c, g, l, x, ga, la, hrelated⟩ := related_of_steps ha hs
      exact h.stepped ha hbatch hrelated hexec
  | scribble block value =>
      simp only [exec, Option.ite_none_right_eq_some, Option.some.injEq] at hexec
      obtain ⟨-, rfl⟩ := hexec
      exact ⟨h.users, h.idle, h.null⟩

/-- What an `alloc` that returns null says about the pool, whatever the others do. -/
theorem null_scarce (blockSz numBlocks batch : Nat) (a : Allocator) (next : Heap)
    (ha : Constructed blockSz numBlocks batch a next) (hbatch : a.batchSize * 2 < 2 ^ 64)
    (s : State) (past : Past) (h : Reachable (pasts a next) (s, past)) :
    Scarce a s past ∧
      (∀ t, (nodes 0 s.next addresses (s.threads t).localHead).length ≤ 2 * a.batchSize + 1) ∧
      ∀ t, (s.threads t).pc = .refillUnlock 0 → s.head.ptr = 0 := by
  have hs : Reachable (steps a next) s := h.forget
  obtain ⟨c, g, l, x, ga, la, hrelated⟩ := related_of_steps ha hs
  refine ⟨?_, fun t => ?_, fun t hpc => ?_⟩
  · refine h.invariant (P := fun s => Scarce a s.1 s.2) ?_ ?_
    · rintro ⟨s, past⟩ ⟨rfl, rfl⟩
      exact ⟨List.nodup_nil, fun _ _ => ⟨rfl, rfl⟩, fun _ hpc _ => nomatch hpc⟩
    · rintro ⟨s, past⟩ e ⟨s', past'⟩ hreach hscarce hexec
      obtain ⟨hexec, rfl⟩ := record_eq hexec
      exact hscarce.step ha hbatch hreach.forget hexec
  · have hle := hrelated.length_le hbatch t
    have hlen := hrelated.length_lt ha t
    rw [Chain.nodes_eq (hrelated.inv.holds t).chain (by unfold addresses; omega)]
    omega
  · exact hrelated.inv.chain.eq_nil_iff.mp (hrelated.global_nil hpc).1

/-- Thread 0 has cached two blocks and thread 1 the third; thread 2's `pop_bulk` has found
nothing. -/
def drained : List Event :=
  [.callAlloc 0] ++ List.replicate 15 (.step 0) ++ [.callAlloc 1] ++
    List.replicate 11 (.step 1) ++ [.callAlloc 2] ++ List.replicate 4 (.step 2)

theorem null_scarce_tlPool3 : ∃ s,
    replay (record (exec 2) fun s e _ past => Past.after s e past)
      (start TlFreelistAllocator.tlPool3 TlFreelistAllocator.tlHeap3,
        { users := [], dry := fun _ => none }) drained = some s ∧
    ((s.1.threads 2).pc = .allocTake ∧ (s.1.threads 2).localHead = 0 ∧ s.2.dry 2 = some 2) ∧
    Scarce TlFreelistAllocator.tlPool3 s.1 s.2 ∧
      (∀ t, (nodes 0 s.1.next addresses (s.1.threads t).localHead).length ≤ 2 * 2 + 1) ∧
      ∀ t, (s.1.threads t).pc = .refillUnlock 0 → s.1.head.ptr = 0 :=
  ⟨_, rfl, ⟨rfl, rfl, rfl⟩,
    null_scarce 48 3 2 _ _ TlFreelistAllocator.tlPool3_constructed (by decide) _ _
      (Reachable.replay (s := (start TlFreelistAllocator.tlPool3 TlFreelistAllocator.tlHeap3,
        { users := [], dry := fun _ => none })) drained (.init ⟨rfl, rfl⟩) rfl)⟩

end Runs

end PoolMemalloc.Ports.TlFreelistLinearizable
