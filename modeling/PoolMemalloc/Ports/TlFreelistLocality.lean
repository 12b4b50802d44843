import PoolMemalloc.Ports.TlFreelistMutex

/-!
# What a step of one `ThreadLocalFreelistAllocator` reads and writes

A step of a running call reads the links of nodes its thread holds and, in a `pop`, that
of the top of the global list; it writes the link of one node in transit; it never looks
at the blocks of the users.  So it is the same step on any other heap that agrees on what
is read, and leaves the two heaps as alike as they were.

`step_local` is what the models above this one rest on: one that looks inside `push` and
`pop`, and one with a pool for each node.
-/

namespace PoolMemalloc.Ports.TlFreelistInterleaving

open PoolMemalloc.Verified.SizeT
open PoolMemalloc.Verified.LinkedChain
open PoolMemalloc.Ports.FreelistAllocator

/-- From `s` with the heap `n` and the live blocks `live` thread `t`, which holds the nodes
`held`, goes on to `c'` as it goes on from `s` to `s'`. -/
structure Follows (held : List Nat) (n : Heap) (live : List Nat) (s : State) (t : Nat)
    (s' c' : State) : Prop where
  eq : c' = { s' with next := c'.next, live := (s.threads t).pc.grants ++ live }
  /-- Links that agreed agree still. -/
  agree : ∀ b, s.next b = n b → s'.next b = c'.next b
  frame : ∀ b, b ∉ held → s'.next b = s.next b ∧ c'.next b = n b

section Locality

variable {held l x live : List Nat} {batchSize t b v : Nat} {n : Heap} {s s' c' : State}
variable {pc : Pc}

/-- A step that writes no link. -/
theorem Follows.quiet (hnext : s'.next = s.next)
    (hc : c' = { s' with next := n, live := (s.threads t).pc.grants ++ live }) :
    Follows held n live s t s' c' where
  eq := by
    subst hc
    rfl
  agree b hb := by
    subst hc
    rw [hnext]
    exact hb
  frame b _ := by
    subst hc
    exact ⟨congrFun hnext b, rfl⟩

/-- A step that writes one link. -/
theorem Follows.write (hb : b ∈ held) (hnext : s'.next = Function.update s.next b v)
    (hc : c' = { s' with
      next := Function.update n b v, live := (s.threads t).pc.grants ++ live }) :
    Follows held n live s t s' c' where
  eq := by
    subst hc
    rfl
  agree d hd := by
    subst hc
    show s'.next d = Function.update n b v d
    rw [hnext]
    by_cases hdb : d = b
    · rw [hdb, Function.update_self, Function.update_self]
    · rw [Function.update_of_ne hdb, Function.update_of_ne hdb]
      exact hd
  frame d hd := by
    subst hc
    have hdb : d ≠ b := fun heq => hd (heq ▸ hb)
    constructor
    · rw [hnext, Function.update_of_ne hdb]
    · exact Function.update_of_ne hdb _ _

theorem callStep_local (live : List Nat) (hpc : (s.threads t).pc = pc)
    (hat : At n (s.threads t).localHead l x pc) (hread : ∀ b ∈ l ++ x, s.next b = n b)
    (hexec : callStep batchSize s t pc = some s') :
    ∃ c', callStep batchSize { s with next := n, live := live } t pc = some c' ∧
      Follows (l ++ x) n live s t s' c' := by
  cases pc with
  | allocTest =>
      simp only [callStep] at hexec ⊢
      split at hexec
      all_goals
        next hlow =>
        cases hexec
        simp only [hlow, if_true, if_false]
        exact ⟨_, rfl, .quiet rfl (by rw [hpc]; rfl)⟩
  | allocTake =>
      simp only [callStep] at hexec ⊢
      split at hexec
      · next hnull =>
          cases hexec
          rw [if_pos hnull]
          exact ⟨_, rfl, .quiet rfl (by rw [hpc]; rfl)⟩
      · next hne =>
          cases hexec
          obtain ⟨rest, rfl, -⟩ := hat.1.pop hne
          rw [if_neg hne, ← hread (s.threads t).localHead (by simp)]
          exact ⟨_, rfl, .quiet rfl (by rw [hpc]; rfl)⟩
  | allocated block =>
      cases hexec
      exact ⟨_, rfl, .quiet rfl (by rw [hpc]; rfl)⟩
  | deallocLink block =>
      cases hexec
      have hmem : block ∈ l ++ x := by
        rw [hat.2]
        simp
      exact ⟨_, rfl, .write hmem rfl (by rw [hpc]; rfl)⟩
  | deallocSet block =>
      simp only [callStep] at hexec ⊢
      split at hexec
      all_goals
        next hhigh =>
        cases hexec
        simp only [hhigh, if_true, if_false]
        exact ⟨_, rfl, .quiet rfl (by rw [hpc]; rfl)⟩
  | _ => cases hexec

/-- A `pop` reads the link of the top. -/
theorem pop_congr {head : TaggedPtr} {next : Heap}
    (htop : head.ptr ≠ 0 → next head.ptr = n head.ptr) : pop next head = pop n head := by
  by_cases hnull : head.ptr = 0
  · rw [pop_null hnull, pop_null hnull]
  · rw [pop_top hnull, pop_top hnull, htop hnull]

theorem refillStep_local (live : List Nat) (hpc : (s.threads t).pc = pc)
    (hat : At n (s.threads t).localHead l x pc) (hread : ∀ b ∈ l ++ x, s.next b = n b)
    (htop : s.head.ptr ≠ 0 → s.next s.head.ptr = n s.head.ptr)
    (hexec : refillStep batchSize s t pc = some s') :
    ∃ c', refillStep batchSize { s with next := n, live := live } t pc = some c' ∧
      Follows (l ++ x) n live s t s' c' := by
  have hpop : pop s.next s.head = pop n s.head := pop_congr htop
  cases pc with
  | refillLock =>
      simp only [refillStep] at hexec ⊢
      split at hexec
      · next hfree =>
          cases hexec
          rw [if_pos hfree]
          exact ⟨_, rfl, .quiet rfl (by rw [hpc]; rfl)⟩
      · cases hexec
  | refillPop =>
      simp only [refillStep, ← hpop] at hexec ⊢
      split at hexec
      all_goals
        next hnull =>
        cases hexec
        simp only [hnull, if_true, if_false]
        exact ⟨_, rfl, .quiet rfl (by rw [hpc]; rfl)⟩
  | refillMore start tail count =>
      simp only [refillStep, ← hpop] at hexec ⊢
      split at hexec
      · next hmore =>
          rw [if_pos hmore]
          split at hexec
          all_goals
            next hnull =>
            cases hexec
            simp only [hnull, if_true, if_false]
            exact ⟨_, rfl, .quiet rfl (by rw [hpc]; rfl)⟩
      · next hmore =>
          cases hexec
          rw [if_neg hmore]
          exact ⟨_, rfl, .quiet rfl (by rw [hpc]; rfl)⟩
  | refillLink start tail count following =>
      cases hexec
      obtain ⟨-, -, nodes, rfl, hbuilt⟩ := hat
      have htail : tail ∈ nodes := hbuilt.tail_mem
      exact ⟨_, rfl, .write (b := tail) (by simp [htail]) rfl (by rw [hpc]; rfl)⟩
  | refillNull start tail =>
      cases hexec
      have htail : tail ∈ x := hat.2.tail_mem
      exact ⟨_, rfl, .write (b := tail) (by simp [htail]) rfl (by rw [hpc]; rfl)⟩
  | refillUnlock batch =>
      simp only [refillStep] at hexec ⊢
      split at hexec
      all_goals
        next hnull =>
        cases hexec
        simp only [hnull, if_true, if_false]
        exact ⟨_, rfl, .quiet rfl (by rw [hpc]; rfl)⟩
  | refillWalk batch tail count =>
      obtain ⟨-, front, back, rfl, -⟩ := hat
      have htail : s.next tail = n tail := hread tail (by simp)
      simp only [refillStep, ← htail] at hexec ⊢
      split at hexec
      · next hmore =>
          cases hexec
          rw [if_pos hmore]
          exact ⟨_, rfl, .quiet rfl (by rw [hpc]; rfl)⟩
      · next hmore =>
          cases hexec
          rw [if_neg hmore]
          exact ⟨_, rfl, .quiet rfl (by rw [hpc]; rfl)⟩
  | refillAdvance batch tail count =>
      obtain ⟨-, ⟨front, back, rfl, -⟩, -⟩ := hat
      have htail : s.next tail = n tail := hread tail (by simp)
      simp only [refillStep, ← htail] at hexec ⊢
      cases hexec
      exact ⟨_, rfl, .quiet rfl (by rw [hpc]; rfl)⟩
  | refillSplice batch tail count =>
      cases hexec
      have htail : tail ∈ x := hat.2.tail_mem
      exact ⟨_, rfl, .write (b := tail) (by simp [htail]) rfl (by rw [hpc]; rfl)⟩
  | refillSet batch count =>
      cases hexec
      exact ⟨_, rfl, .quiet rfl (by rw [hpc]; rfl)⟩
  | _ => cases hexec

theorem flushStep_local (live : List Nat) (hpc : (s.threads t).pc = pc)
    (hat : At n (s.threads t).localHead l x pc) (hread : ∀ b ∈ l ++ x, s.next b = n b)
    (hexec : flushStep s t pc = some s') :
    ∃ c', flushStep { s with next := n, live := live } t pc = some c' ∧
      Follows (l ++ x) n live s t s' c' := by
  cases pc with
  | flushTest excess =>
      simp only [flushStep] at hexec ⊢
      split at hexec
      all_goals
        next hnone =>
        cases hexec
        simp only [hnone, if_true, if_false]
        exact ⟨_, rfl, .quiet rfl (by rw [hpc]; rfl)⟩
  | flushWalk excess batchHead batchTail count =>
      obtain ⟨-, -, front, back, rfl, -⟩ := hat
      have htail : s.next batchTail = n batchTail := hread batchTail (by simp)
      simp only [flushStep, ← htail] at hexec ⊢
      split at hexec
      · next hmore =>
          cases hexec
          rw [if_pos hmore]
          exact ⟨_, rfl, .quiet rfl (by rw [hpc]; rfl)⟩
      · next hmore =>
          cases hexec
          rw [if_neg hmore]
          exact ⟨_, rfl, .quiet rfl (by rw [hpc]; rfl)⟩
  | flushAdvance excess batchHead batchTail count =>
      obtain ⟨-, -, ⟨front, back, rfl, -⟩, -⟩ := hat
      have htail : s.next batchTail = n batchTail := hread batchTail (by simp)
      simp only [flushStep, ← htail] at hexec ⊢
      cases hexec
      exact ⟨_, rfl, .quiet rfl (by rw [hpc]; rfl)⟩
  | flushCut batchHead batchTail count =>
      obtain ⟨-, -, front, back, rfl, -⟩ := hat
      have htail : s.next batchTail = n batchTail := hread batchTail (by simp)
      simp only [flushStep, ← htail] at hexec ⊢
      cases hexec
      exact ⟨_, rfl, .quiet rfl (by rw [hpc]; rfl)⟩
  | flushNull batchHead batchTail count =>
      cases hexec
      have htail : batchTail ∈ x := hat.2.tail_mem
      exact ⟨_, rfl, .write (b := batchTail) (by simp [htail]) rfl (by rw [hpc]; rfl)⟩
  | flushShrink batchHead batchTail count =>
      cases hexec
      exact ⟨_, rfl, .quiet rfl (by rw [hpc]; rfl)⟩
  | pushLock batchHead batchTail =>
      simp only [flushStep] at hexec ⊢
      split at hexec
      · next hfree =>
          cases hexec
          rw [if_pos hfree]
          exact ⟨_, rfl, .quiet rfl (by rw [hpc]; rfl)⟩
      · cases hexec
  | pushNull batchHead batchTail =>
      cases hexec
      have htail : batchTail ∈ x := hat.2.tail_mem
      exact ⟨_, rfl, .write (b := batchTail) (by simp [htail]) rfl (by rw [hpc]; rfl)⟩
  | pushRead node =>
      simp only [flushStep] at hexec ⊢
      split at hexec
      · next hnull =>
          cases hexec
          rw [if_pos hnull]
          exact ⟨_, rfl, .quiet rfl (by rw [hpc]; rfl)⟩
      · next hne =>
          cases hexec
          obtain ⟨rest, rfl, -⟩ := hat.2.pop hne
          rw [if_neg hne, ← hread node (by simp)]
          exact ⟨_, rfl, .quiet rfl (by rw [hpc]; rfl)⟩
  | pushNode node following =>
      cases hexec
      obtain ⟨-, rest, rfl, -⟩ := hat
      exact ⟨_, rfl, .write (b := node) (by simp) rfl (by rw [hpc]; rfl)⟩
  | pushUnlock =>
      cases hexec
      exact ⟨_, rfl, .quiet rfl (by rw [hpc]; rfl)⟩
  | _ => cases hexec

/-- The program counter says which of the three functions takes the step. -/
theorem callStep_of_refill {c : State} (h : refillStep batchSize s t pc = some s') :
    callStep batchSize c t pc = none := by
  cases pc
  all_goals first | rfl | cases h

theorem steps_of_flush {c : State} (h : flushStep s t pc = some s') :
    callStep batchSize c t pc = none ∧ refillStep batchSize c t pc = none := by
  cases pc
  all_goals first | exact ⟨rfl, rfl⟩ | cases h

/-- The step of a running call from `s` is the same step on the heap `n`, where the thread
holds `l` and `x`, and with any other live blocks. -/
theorem step_local (live : List Nat)
    (hat : At n (s.threads t).localHead l x (s.threads t).pc)
    (hread : ∀ b ∈ l ++ x, s.next b = n b)
    (htop : s.head.ptr ≠ 0 → s.next s.head.ptr = n s.head.ptr)
    (hexec : exec batchSize s (.step t) = some s') :
    ∃ c', exec batchSize { s with next := n, live := live } (.step t) = some c' ∧
      Follows (l ++ x) n live s t s' c' := by
  simp only [exec, Option.or_eq_some_iff] at hexec
  rcases hexec with hcall | ⟨-, hrefill | ⟨-, hflush⟩⟩
  · obtain ⟨c', hc', hfollows⟩ := callStep_local live rfl hat hread hcall
    refine ⟨c', ?_, hfollows⟩
    rw [exec, hc', Option.some_or]
  · obtain ⟨c', hc', hfollows⟩ := refillStep_local live rfl hat hread htop hrefill
    refine ⟨c', ?_, hfollows⟩
    rw [exec, callStep_of_refill hrefill, Option.none_or, hc', Option.some_or]
  · obtain ⟨c', hc', hfollows⟩ := flushStep_local live rfl hat hread hflush
    obtain ⟨hnone, hnone'⟩ := steps_of_flush hflush
    refine ⟨c', ?_, hfollows⟩
    rw [exec, hnone, hnone', Option.none_or, Option.none_or, hc']

end Locality

end PoolMemalloc.Ports.TlFreelistInterleaving
