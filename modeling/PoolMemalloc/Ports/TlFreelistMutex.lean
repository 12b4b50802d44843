import Mathlib.Data.List.Perm.Subperm
import PoolMemalloc.Ports.TlFreelistInterleaving

/-!
# The bulk mutex of one `ThreadLocalFreelistAllocator`

`push_bulk` and `pop_bulk` hold the mutex from before their first access to the global
list to their return.  `exclusive_of_reachable` says that at most one thread is inside at
any moment, which is what lets a single `push` or `pop` be one step of the machine.

A thread waits only for the mutex, and who holds it never waits: `remaining` bounds the
steps a running call still takes when the others stand still, `Moves.remaining_lt` that
each step makes it smaller, and `finishes` puts the two together.
-/

namespace PoolMemalloc.Ports.TlFreelistInterleaving

open PoolMemalloc.Verified.SizeT
open PoolMemalloc.Verified.Transition
open PoolMemalloc.Verified.LinkedChain
open PoolMemalloc.Verified.Conservation
open PoolMemalloc.Ports.BlockArray
open PoolMemalloc.Ports.FreelistAllocator
open PoolMemalloc.Ports.TlFreelistAllocator (Allocator Constructed blocksOf length_blocksOf)

/-! ## Who holds the mutex -/

/-- The thread is in `push_bulk` or `pop_bulk`, past the `lock_guard`. -/
def Pc.locked : Pc → Bool
  | .refillPop => true
  | .refillMore _ _ _ => true
  | .refillLink _ _ _ _ => true
  | .refillNull _ _ => true
  | .refillUnlock _ => true
  | .pushNull _ _ => true
  | .pushRead _ => true
  | .pushNode _ _ => true
  | .pushUnlock => true
  | _ => false

/-- The thread is about to take the mutex. -/
def Pc.waits : Pc → Bool
  | .refillLock => true
  | .pushLock _ _ => true
  | _ => false

/-- The block a step gives to the user. -/
def Pc.grants : Pc → List Nat
  | .allocated block => [block]
  | _ => []

/-- What a step of thread `t` does besides moving its own nodes. -/
structure Footprint (s : State) (t : Nat) (s' : State) : Prop where
  others : ∀ u, u ≠ t → s'.threads u = s.threads u
  live : s'.live = (s.threads t).pc.grants ++ s.live
  waited : (s.threads t).pc.waits = true → s.bulkLock = none
  lock : ((s.threads t).pc.locked = (s'.threads t).pc.locked ∧ s'.bulkLock = s.bulkLock) ∨
    ((s.threads t).pc.locked = false ∧ (s'.threads t).pc.locked = true ∧
      s.bulkLock = none ∧ s'.bulkLock = some t) ∨
    ((s.threads t).pc.locked = true ∧ (s'.threads t).pc.locked = false ∧
      s'.bulkLock = none)

section Steps

variable {s s' : State} {t batchSize : Nat} {before : Pc} {th : Thread}

/-- A step that leaves the mutex alone. -/
theorem Footprint.keep (hpc : (s.threads t).pc = before)
    (hthreads : s'.threads = Function.update s.threads t th)
    (hlive : s'.live = before.grants ++ s.live) (hwaits : before.waits = false)
    (hlocked : before.locked = th.pc.locked) (hlock : s'.bulkLock = s.bulkLock) :
    Footprint s t s' where
  others u hu := by rw [hthreads, Function.update_of_ne hu]
  live := by rw [hpc, hlive]
  waited hwaiting := by simp [hpc, hwaits] at hwaiting
  lock := by
    rw [hpc, hthreads, Function.update_self]
    exact .inl ⟨hlocked, hlock⟩

theorem Footprint.take (hpc : (s.threads t).pc = before)
    (hthreads : s'.threads = Function.update s.threads t th)
    (hlive : s'.live = before.grants ++ s.live) (hbefore : before.locked = false)
    (hafter : th.pc.locked = true) (hfree : s.bulkLock = none)
    (hlock : s'.bulkLock = some t) : Footprint s t s' where
  others u hu := by rw [hthreads, Function.update_of_ne hu]
  live := by rw [hpc, hlive]
  waited _ := hfree
  lock := by
    rw [hpc, hthreads, Function.update_self]
    exact .inr (.inl ⟨hbefore, hafter, hfree, hlock⟩)

theorem Footprint.release (hpc : (s.threads t).pc = before)
    (hthreads : s'.threads = Function.update s.threads t th)
    (hlive : s'.live = before.grants ++ s.live) (hwaits : before.waits = false)
    (hbefore : before.locked = true) (hafter : th.pc.locked = false)
    (hlock : s'.bulkLock = none) : Footprint s t s' where
  others u hu := by rw [hthreads, Function.update_of_ne hu]
  live := by rw [hpc, hlive]
  waited hwaiting := by simp [hpc, hwaits] at hwaiting
  lock := by
    rw [hpc, hthreads, Function.update_self]
    exact .inr (.inr ⟨hbefore, hafter, hlock⟩)

theorem footprint_call (hstep : callStep batchSize s t (s.threads t).pc = some s') :
    Footprint s t s' := by
  cases hpc : (s.threads t).pc
  all_goals simp only [hpc, callStep] at hstep
  all_goals try split at hstep
  all_goals cases hstep
  all_goals exact .keep hpc rfl rfl rfl rfl rfl

theorem footprint_refill (hstep : refillStep batchSize s t (s.threads t).pc = some s') :
    Footprint s t s' := by
  cases hpc : (s.threads t).pc with
  | refillLock =>
      simp only [hpc, refillStep, Option.ite_none_right_eq_some, Option.some.injEq] at hstep
      obtain ⟨hfree, rfl⟩ := hstep
      exact .take hpc rfl rfl rfl rfl hfree rfl
  | refillUnlock batch =>
      simp only [hpc, refillStep] at hstep
      split at hstep
      · cases hstep
        exact .release hpc rfl rfl rfl rfl rfl rfl
      · cases hstep
        exact .release hpc rfl rfl rfl rfl rfl rfl
  | _ =>
      simp only [hpc, refillStep] at hstep
      repeat' split at hstep
      all_goals cases hstep
      all_goals exact .keep hpc rfl rfl rfl rfl rfl

theorem footprint_flush (hstep : flushStep s t (s.threads t).pc = some s') :
    Footprint s t s' := by
  cases hpc : (s.threads t).pc with
  | pushLock batchHead batchTail =>
      simp only [hpc, flushStep, Option.ite_none_right_eq_some, Option.some.injEq] at hstep
      obtain ⟨hfree, rfl⟩ := hstep
      exact .take hpc rfl rfl rfl rfl hfree rfl
  | pushUnlock =>
      simp only [hpc, flushStep] at hstep
      cases hstep
      exact .release hpc rfl rfl rfl rfl rfl rfl
  | _ =>
      simp only [hpc, flushStep] at hstep
      repeat' split at hstep
      all_goals cases hstep
      all_goals exact .keep hpc rfl rfl rfl rfl rfl

theorem footprint (hstep : exec batchSize s (.step t) = some s') : Footprint s t s' := by
  simp only [exec, Option.or_eq_some_iff] at hstep
  rcases hstep with hcall | ⟨-, hrefill | ⟨-, hflush⟩⟩
  · exact footprint_call hcall
  · exact footprint_refill hrefill
  · exact footprint_flush hflush

/-- A thread between two steps of a call can take the next one unless it waits for the
mutex. -/
theorem enabled (batchSize : Nat) (hbusy : (s.threads t).pc ≠ .idle)
    (hfree : (s.threads t).pc.waits = true → s.bulkLock = none) :
    ∃ s', exec batchSize s (.step t) = some s' := by
  rw [← Option.isSome_iff_exists]
  simp only [exec]
  cases hpc : (s.threads t).pc with
  | idle => exact (hbusy hpc).elim
  | refillLock => simp [callStep, refillStep, hfree (by rw [hpc]; rfl)]
  | pushLock batchHead batchTail =>
      simp [callStep, refillStep, flushStep, hfree (by rw [hpc]; rfl)]
  | _ =>
      simp only [callStep, refillStep, flushStep, Option.none_or]
      repeat' split
      all_goals rfl

end Steps

/-! ## Mutual exclusion -/

/-- The thread that holds the mutex is the one inside. -/
def Exclusive (s : State) : Prop :=
  ∀ t, (s.threads t).pc.locked = true ↔ s.bulkLock = some t

section Exclusion

variable {s s' : State} {t u batchSize : Nat}

theorem Exclusive.unique (h : Exclusive s) (ht : (s.threads t).pc.locked = true)
    (hu : (s.threads u).pc.locked = true) : t = u :=
  Option.some.inj (((h t).mp ht).symm.trans ((h u).mp hu))

theorem Footprint.exclusive (h : Footprint s t s') (hs : Exclusive s) : Exclusive s' := by
  intro u
  by_cases hu : u = t
  · subst hu
    have hbefore := hs u
    rcases h.lock with ⟨hsame, hlock⟩ | ⟨-, hafter, -, hlock⟩ | ⟨-, hafter, hlock⟩
    · rw [← hsame, hlock, hbefore]
    · simp [hafter, hlock]
    · simp [hafter, hlock]
  · rw [h.others u hu]
    have hbefore := hs u
    rcases h.lock with ⟨-, hlock⟩ | ⟨-, -, hfree, hlock⟩ | ⟨hinside, -, hlock⟩
    · rw [hlock, hbefore]
    · rw [hbefore, hfree, hlock]
      simp [Ne.symm hu]
    · rw [hlock, hbefore, (hs t).mp hinside]
      simp [Ne.symm hu]

/-- A thread that starts a call is not inside before or after. -/
theorem Exclusive.goto (hs : Exclusive s) {pc : Pc} {live : List Nat}
    (hidle : (s.threads t).pc = .idle) (hpc : pc.locked = false) :
    Exclusive { s.goto t pc with live := live } := by
  intro u
  by_cases hu : u = t
  · subst hu
    have hbefore : false = true ↔ s.bulkLock = some u := by
      have hold := hs u
      rwa [hidle] at hold
    simp only [State.goto, State.setThread, Function.update_self, hpc, hbefore]
  · simp only [State.goto, State.setThread, Function.update_of_ne hu]
    exact hs u

theorem Exclusive.step (hs : Exclusive s) {e : Event} (hstep : exec batchSize s e = some s') :
    Exclusive s' := by
  cases e with
  | callAlloc t =>
      simp only [exec, Option.ite_none_right_eq_some, Option.some.injEq] at hstep
      obtain ⟨hidle, rfl⟩ := hstep
      exact hs.goto hidle rfl
  | callDealloc t ptr =>
      simp only [exec, Option.ite_none_right_eq_some] at hstep
      obtain ⟨hidle, hstep⟩ := hstep
      split at hstep
      · cases hstep
        exact hs
      · simp only [Option.ite_none_right_eq_some, Option.some.injEq] at hstep
        obtain ⟨-, rfl⟩ := hstep
        exact hs.goto hidle rfl
  | step t => exact (footprint hstep).exclusive hs
  | scribble block value =>
      simp only [exec, Option.ite_none_right_eq_some, Option.some.injEq] at hstep
      obtain ⟨-, rfl⟩ := hstep
      exact hs

theorem exclusive_of_reachable {a : Allocator} {next : Heap}
    (h : Reachable (steps a next) s) : Exclusive s := by
  refine h.invariant (P := Exclusive) ?_ ?_
  · rintro s rfl t
    simp [start, Pc.locked]
  · intro s e s' _ hs hstep
    exact hs.step hstep

end Exclusion

/-! ## Progress -/

/-- Nodes of `l` up to and including `b`. -/
def upTo (b : Nat) (l : List Nat) : Nat := l.idxOf b + 1

/-- A bound on the steps a running call still takes. -/
def remaining (g : List Nat) (h : Hand) : Nat :=
  match h.pc with
  | .idle => 0
  | .allocTest => 4 * g.length + 7
  | .refillLock => 4 * g.length + 6
  | .refillPop => 4 * g.length + 5
  | .refillMore _ _ _ => 4 * g.length + 2 * h.transit.length + 6
  | .refillLink _ _ _ _ => 4 * g.length + 2 * h.transit.length + 7
  | .refillNull _ _ => 2 * h.transit.length + 5
  | .refillUnlock _ => 2 * h.transit.length + 4
  | .refillWalk _ tail _ => 2 * (h.transit.length - upTo tail h.transit) + 5
  | .refillAdvance _ tail _ => 2 * (h.transit.length - upTo tail h.transit) + 4
  | .refillSplice _ _ _ => 4
  | .refillSet _ _ => 3
  | .allocTake => 2
  | .allocated _ => 1
  | .deallocLink _ => 4 * h.chain.length + 4 * h.transit.length + 9
  | .deallocSet _ => 4 * h.chain.length + 4 * h.transit.length + 8
  | .flushTest _ => 4 * h.chain.length + 7
  | .flushWalk _ _ tail _ => 4 * h.chain.length + 8 - 2 * upTo tail h.chain
  | .flushAdvance _ _ tail _ => 4 * h.chain.length + 7 - 2 * upTo tail h.chain
  | .flushCut _ tail _ => 2 * upTo tail h.chain + 7
  | .flushNull _ _ _ => 2 * h.transit.length + 6
  | .flushShrink _ _ _ => 2 * h.transit.length + 5
  | .pushLock _ _ => 2 * h.transit.length + 4
  | .pushNull _ _ => 2 * h.transit.length + 3
  | .pushRead _ => 2 * h.transit.length + 2
  | .pushNode _ _ => 2 * h.transit.length + 1
  | .pushUnlock => 1

theorem upTo_eq {b : Nat} {front back : List Nat} (h : (front ++ b :: back).Nodup) :
    upTo b (front ++ b :: back) = front.length + 1 := by
  have hnew : b ∉ front := fun hmem =>
    (List.nodup_append.mp h).2.2 b hmem b List.mem_cons_self rfl
  rw [upTo, List.idxOf_append_of_notMem hnew, List.idxOf_cons_self, Nat.add_zero]

/-- The node after `b` is one further. -/
theorem upTo_succ {b c : Nat} {front back : List Nat} (h : (front ++ b :: c :: back).Nodup) :
    upTo c (front ++ b :: c :: back) = front.length + 2 := by
  rw [List.append_cons] at h ⊢
  rw [upTo_eq h, List.length_append, List.length_singleton]

/-- Each step of a call leaves fewer. -/
theorem Moves.remaining_lt {batchSize : Nat} {g g' : List Nat} {h h' : Hand}
    (hmoves : Moves batchSize g h g' h') (hchain : h.chain.Nodup)
    (htransit : h.transit.Nodup) : remaining g' h' < remaining g h := by
  cases hmoves with
  | unlockSome =>
      simp only [remaining, upTo, List.idxOf_cons_self, List.length_cons]
      omega
  | walkMore => simp [remaining]
  | refillAdvance =>
      simp only [remaining]
      rw [upTo_eq htransit, upTo_succ htransit]
      simp only [List.length_append, List.length_cons]
      omega
  | flushSome =>
      simp only [remaining, upTo, List.idxOf_cons_self, List.length_cons]
      omega
  | flushMore =>
      simp only [remaining]
      rw [upTo_eq hchain]
      simp only [List.length_append, List.length_cons]
      omega
  | flushEnd =>
      simp only [remaining]
      rw [upTo_eq hchain]
      simp only [List.length_append, List.length_cons]
      omega
  | flushAdvance =>
      simp only [remaining]
      rw [upTo_eq hchain, upTo_succ hchain]
      simp only [List.length_append, List.length_cons]
      omega
  | flushCut =>
      simp only [remaining]
      rw [upTo_eq hchain, List.length_append, List.length_singleton]
      omega
  | _ =>
      simp only [remaining, List.length_cons, List.length_append, List.length_nil]
      omega

theorem remaining_le (g : List Nat) (h : Hand) :
    remaining g h ≤ 4 * (g.length + h.chain.length + h.transit.length) + 9 := by
  unfold remaining
  cases h.pc with
  | flushCut batchHead tail count =>
      have hidx : h.chain.idxOf tail ≤ h.chain.length := List.idxOf_le_length
      simp only [upTo]
      omega
  | _ =>
      simp only
      omega

/-! ## A call alone -/

section Finishing

variable {pool : Nat → Prop} {g : List Nat} {l x : Nat → List Nat} {s : State}
variable {t batchSize : Nat}

/-- The global list and what one thread has are different blocks. -/
theorem Inv.nodup_held (h : Inv pool g l x s) (t : Nat) : (g ++ (l t ++ x t)).Nodup := by
  have hown := h.ledger.nodup_append (k := .cache t) (l := .transit t)
    (fun heq => nomatch heq)
  exact List.nodup_append.mpr ⟨h.ledger.nodup .global, hown, fun b hb c hc heq =>
    h.notMem_global (heq ▸ hc) hb⟩

theorem Inv.length_held_le (h : Inv pool g l x s) {blocks : List Nat}
    (hpool : ∀ b, pool b → b ∈ blocks) (t : Nat) :
    g.length + (l t).length + (x t).length ≤ blocks.length := by
  have hsub : g ++ (l t ++ x t) ⊆ blocks := by
    intro b hb
    refine hpool b ((h.ledger.mem b).mpr ?_)
    rcases List.mem_append.mp hb with hg | hown
    · exact ⟨.global, hg⟩
    · rcases List.mem_append.mp hown with hl | hx
      · exact ⟨.cache t, hl⟩
      · exact ⟨.transit t, hx⟩
  have hle := (List.subperm_of_subset (h.nodup_held t) hsub).length_le
  rw [List.length_append, List.length_append] at hle
  omega

/-- The mutex is free, or thread `t` holds it. -/
def Unhindered (s : State) (t : Nat) : Prop := s.bulkLock = none ∨ s.bulkLock = some t

theorem Footprint.unhindered {s' : State} (h : Footprint s t s') (hs : Unhindered s t) :
    Unhindered s' t := by
  rcases h.lock with ⟨-, hlock⟩ | ⟨-, -, -, hlock⟩ | ⟨-, -, hlock⟩
  · rwa [Unhindered, hlock]
  · exact .inr hlock
  · exact .inl hlock

/-- Thread `t` is unhindered and has at most `n` steps to take. -/
structure Ready (pool : Nat → Prop) (t n : Nat) (s : State) : Prop where
  exclusive : Exclusive s
  unhindered : Unhindered s t
  short : ∃ g l x, Inv pool g l x s ∧ remaining g (s.hand t (l t) (x t)) = n

theorem Ready.step {n : Nat} (h : Ready pool t n s) (hbusy : (s.threads t).pc ≠ .idle) :
    ∃ m s', exec batchSize s (.step t) = some s' ∧ Ready pool t m s' ∧ m < n := by
  obtain ⟨g, l, x, hinv, rfl⟩ := h.short
  have hfree : (s.threads t).pc.waits = true → s.bulkLock = none := by
    intro hwaits
    refine h.unhindered.resolve_right fun hmine => ?_
    have hinside := (h.exclusive t).mpr hmine
    cases hpc : (s.threads t).pc <;> simp [hpc, Pc.waits, Pc.locked] at hwaits hinside
  obtain ⟨s', hexec⟩ := enabled batchSize hbusy hfree
  obtain ⟨g', l', x', hmoves, -, hinv'⟩ := hinv.moves hexec
  have hfoot := footprint hexec
  exact ⟨_, s', hexec, ⟨hfoot.exclusive h.exclusive, hfoot.unhindered h.unhindered,
    g', l', x', hinv', rfl⟩,
    hmoves.remaining_lt (hinv.ledger.nodup (.cache t)) (hinv.ledger.nodup (.transit t))⟩

/-- It finishes its call. -/
theorem Ready.finishes {n : Nat} (h : Ready pool t n s) :
    ∃ k s', k ≤ n ∧ replay (exec batchSize) s (List.replicate k (.step t)) = some s' ∧
      Exclusive s' ∧ Unhindered s' t ∧ (s'.threads t).pc = .idle := by
  have hstep : ∀ n s, Ready pool t n s → (s.threads t).pc = .idle ∨
      ∃ m s', exec batchSize s (.step t) = some s' ∧ Ready pool t m s' ∧ m < n := by
    intro n s hs
    exact (Classical.em _).imp_right hs.step
  obtain ⟨k, m, s', hk, hrun, hready, hdone⟩ := exists_replay_within (Event.step t) hstep h
  exact ⟨k, s', hk, hrun, hready.exclusive, hready.unhindered, hdone⟩

end Finishing

section Progress

variable {blockSz numBlocks batch : Nat} {a : Allocator} {next : Heap} {s : State}

/-- An unhindered thread's call takes few more steps. -/
theorem ready_of_reachable (ha : Constructed blockSz numBlocks batch a next)
    (h : Reachable (steps a next) s) {t : Nat} (ht : Unhindered s t) :
    ∃ n, n ≤ 4 * a.blockCount + 9 ∧ Ready (IsBlock a) t n s := by
  obtain ⟨g, l, x, hinv⟩ := partitioned_of_reachable ha h
  refine ⟨_, ?_, exclusive_of_reachable h, ht, g, l, x, hinv, rfl⟩
  have hle := hinv.length_held_le (fun b hb => hb) t
  rw [length_blocksOf] at hle
  have hremaining := remaining_le g (s.hand t (l t) (x t))
  simp only [State.hand] at hremaining
  exact hremaining.trans (by omega)

/-- What holds between any two steps of any threads. -/
structure Unblocked (a : Allocator) (s : State) : Prop where
  /-- At most one thread is between the lock and the unlock of the bulk mutex. -/
  exclusive : ∀ t u, (s.threads t).pc.locked = true → (s.threads u).pc.locked = true → t = u
  /-- A running call's next step is possible, or it waits for a mutex that another
  thread holds. -/
  enabled : ∀ t, (s.threads t).pc ≠ .idle → (∃ s', exec a.batchSize s (.step t) = some s') ∨
    ((s.threads t).pc.waits = true ∧ ∃ u, u ≠ t ∧ s.bulkLock = some u)
  /-- Every running call can return, if need be after the steps of one other call. -/
  finishes : ∀ t, ∃ u k k' s', k ≤ 4 * a.blockCount + 9 ∧ k' ≤ 4 * a.blockCount + 9 ∧
    replay (exec a.batchSize) s
      (List.replicate k (.step u) ++ List.replicate k' (.step t)) = some s' ∧
    (s'.threads t).pc = .idle

/-- Mutual exclusion and freedom from deadlock. -/
theorem calls_unblocked (blockSz numBlocks batch : Nat) (a : Allocator) (next : Heap)
    (ha : Constructed blockSz numBlocks batch a next) (s : State)
    (h : Reachable (steps a next) s) : Unblocked a s where
  exclusive t u ht hu := (exclusive_of_reachable h).unique ht hu
  enabled t hbusy := by
    by_cases hfree : (s.threads t).pc.waits = true → s.bulkLock = none
    · exact .inl (TlFreelistInterleaving.enabled a.batchSize hbusy hfree)
    · obtain ⟨hwaits, hheld⟩ := Classical.not_imp.mp hfree
      obtain ⟨u, hu⟩ := Option.ne_none_iff_exists'.mp hheld
      refine .inr ⟨hwaits, u, ?_, hu⟩
      rintro rfl
      have hinside := (exclusive_of_reachable h u).mpr hu
      cases hpc : (s.threads u).pc <;> simp [hpc, Pc.waits, Pc.locked] at hwaits hinside
  finishes t := by
    -- first the call that holds the mutex, if it is another's, then `t`
    obtain ⟨u, k, mid, hk, hrun, hunhindered⟩ : ∃ u k mid, k ≤ 4 * a.blockCount + 9 ∧
        replay (exec a.batchSize) s (List.replicate k (.step u)) = some mid ∧
        Unhindered mid t := by
      cases hlock : s.bulkLock with
      | none => exact ⟨t, 0, s, Nat.zero_le _, rfl, .inl hlock⟩
      | some u =>
          obtain ⟨n, hn, hready⟩ := ready_of_reachable ha h (.inr hlock)
          obtain ⟨k, mid, hk, hrun, hexclusive, hfree, hdone⟩ := hready.finishes
          refine ⟨u, k, mid, hk.trans hn, hrun, .inl (hfree.resolve_right fun hmine => ?_)⟩
          have hinside := (hexclusive u).mpr hmine
          simp [hdone, Pc.locked] at hinside
    have hmid : Reachable (steps a next) mid := h.replay _ hrun
    obtain ⟨n, hn, hready⟩ := ready_of_reachable ha hmid hunhindered
    obtain ⟨k', s', hk', hrun', -, -, hdone⟩ := hready.finishes
    exact ⟨u, k, k', s', hk, hk'.trans hn, replay_append hrun hrun', hdone⟩

/-- Thread 1 waits for thread 0 to finish its refill. -/
theorem calls_unblocked_tlPool3 : ∃ s,
    replay (exec 2) (start TlFreelistAllocator.tlPool3 TlFreelistAllocator.tlHeap3)
      [.callAlloc 0, .step 0, .step 0, .callAlloc 1, .step 1] = some s ∧
    Unblocked TlFreelistAllocator.tlPool3 s :=
  ⟨_, rfl, calls_unblocked 48 3 2 _ _ TlFreelistAllocator.tlPool3_constructed _
    (Reachable.replay [.callAlloc 0, .step 0, .step 0, .callAlloc 1, .step 1] (.init rfl) rfl)⟩

end Progress

end PoolMemalloc.Ports.TlFreelistInterleaving
