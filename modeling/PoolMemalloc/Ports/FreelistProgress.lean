import PoolMemalloc.Ports.FreelistInterleaving
import PoolMemalloc.Verified.Contention

/-!
# Progress of `push` and `pop`

Neither loop of the free list takes a lock, and neither has a bound.  A thread whose
exchange has failed without being spurious has been overtaken: another thread's exchange
has succeeded since its load of `head`.  So some call always gets on, and each call pays
only for the exchanges of others that fall between a load of its own and the exchange
that goes with it.

Nothing is assumed of the tag, nor of what the users do with their blocks: `Fresh`, that
`head` is what was loaded unless an exchange has succeeded since, is kept by any step.
-/

namespace PoolMemalloc.Ports.FreelistInterleaving

open PoolMemalloc.Verified.Transition
open PoolMemalloc.Verified.Contention
open PoolMemalloc.Ports.FreelistAllocator

/-- The thread that takes a step. -/
def Event.thread : Event → Nat
  | .callPush t _ => t
  | .callPop t => t
  | .load t => t
  | .link t => t
  | .readNext t => t
  | .exchange t _ => t
  | .ret t => t
  | .scribble t _ _ => t
  | .give t _ _ => t

/-- What a thread has loaded, between its load and its exchange, and the number of
successful exchanges then. -/
def snapshot : Pc → Option (TaggedPtr × Nat)
  | .pushLink _ old count => some (old, count)
  | .pushExchange _ old count => some (old, count)
  | .popNext old count => some (old, count)
  | .popExchange old _ count => some (old, count)
  | _ => none

/-- Exchanges have succeeded since thread `t` loaded `head`. -/
def stale (t : Nat) (s : State) : Bool :=
  (snapshot (s.pc t)).any fun loaded => decide (loaded.2 < s.exchanges)

/-- The steps left when no exchange fails. -/
def rank : Pc → Nat
  | .idle => 0
  | .pushLoad _ => 3
  | .pushLink _ _ _ => 2
  | .pushExchange _ _ _ => 1
  | .popLoad => 4
  | .popNext _ _ => 3
  | .popExchange _ _ _ => 2
  | .popped _ => 1

/-- What a step of thread `t` is for itself. -/
def ownKind (t : Nat) (s s' : State) : Event → Kind
  | .callPush _ _ => .call
  | .callPop _ => .call
  | .scribble _ _ _ => .apart
  | .give _ _ _ => .apart
  | .exchange _ _ =>
      if s'.exchanges ≠ s.exchanges then .step
      else if (snapshot (s.pc t)).map Prod.fst = some s.head then .slip
      else .lose
  | _ => .step

theorem ownKind_of_swing {t u : Nat} {s s' : State} {spurious : Bool}
    (h : s'.exchanges ≠ s.exchanges) : ownKind t s s' (.exchange u spurious) = .step :=
  if_pos h

/-- What a step from `s` to `s'` is for thread `t`. -/
def kind (t : Nat) (s : State) (e : Event) (s' : State) : Kind :=
  if e.thread = t then ownKind t s s' e
  else if s'.exchanges ≠ s.exchanges ∧ (snapshot (s.pc t)).isSome then .rival
  else .apart

theorem kind_own {t : Nat} {s s' : State} {e : Event} (h : e.thread = t) :
    kind t s e s' = ownKind t s s' e := if_pos h

/-- What the threads have loaded is in `head` until an exchange succeeds. -/
def Fresh (s : State) : Prop :=
  ∀ t, ∀ loaded ∈ snapshot (s.pc t),
    loaded.2 ≤ s.exchanges ∧ (loaded.2 = s.exchanges → s.head = loaded.1)

section Progress

variable {s s' : State} {e : Event} {t u : Nat} {pc : Pc}

@[simp] theorem goto_pc_self : (s.goto t pc).pc t = pc := Function.update_self ..

/-- What the thread that has moved has loaded is what is there now. -/
theorem Fresh.move (h : Fresh s)
    (hpc : s'.pc = Function.update s.pc t pc)
    (hcell : (s'.head = s.head ∧ s'.exchanges = s.exchanges) ∨
      s'.exchanges = s.exchanges + 1)
    (hloaded : ∀ loaded ∈ snapshot pc, loaded = (s'.head, s'.exchanges) ∨
      loaded ∈ snapshot (s.pc t)) : Fresh s' := by
  have hold : ∀ u, ∀ loaded ∈ snapshot (s.pc u),
      loaded.2 ≤ s'.exchanges ∧ (loaded.2 = s'.exchanges → s'.head = loaded.1) := by
    intro u loaded hmem
    obtain ⟨hle, hcurrent⟩ := h u loaded hmem
    rcases hcell with ⟨hhead, hcount⟩ | hcount
    · rw [hhead, hcount]
      exact ⟨hle, hcurrent⟩
    · constructor
      · omega
      · intro heq
        omega
  intro u loaded hmem
  rw [hpc] at hmem
  by_cases hu : u = t
  · rw [hu, Function.update_self] at hmem
    rcases hloaded loaded hmem with hnew | hkept
    · rw [hnew]
      exact ⟨Nat.le_refl _, fun _ => rfl⟩
    · exact hold t loaded hkept
  · rw [Function.update_of_ne hu] at hmem
    exact hold u loaded hmem

theorem Fresh.step (h : Fresh s) (hexec : exec s e = some s') : Fresh s' := by
  cases taken_of_exec hexec with
  | callPush hpc hmem => exact h.move rfl (.inl ⟨rfl, rfl⟩) (by simp [snapshot])
  | callPop hpc => exact h.move rfl (.inl ⟨rfl, rfl⟩) (by simp [snapshot])
  | pushLoad hpc => exact h.move rfl (.inl ⟨rfl, rfl⟩) (by simp [snapshot, State.goto])
  | popEmpty hpc hnull => exact h.move rfl (.inl ⟨rfl, rfl⟩) (by simp [snapshot])
  | popLoad hpc hne => exact h.move rfl (.inl ⟨rfl, rfl⟩) (by simp [snapshot, State.goto])
  | link hpc => exact h.move rfl (.inl ⟨rfl, rfl⟩) (by simp [snapshot, hpc])
  | readNext hpc => exact h.move rfl (.inl ⟨rfl, rfl⟩) (by simp [snapshot, hpc])
  | pushed hpc hsame => exact h.move rfl (.inr rfl) (by simp [snapshot])
  | pushFailed hpc hfail => exact h.move rfl (.inl ⟨rfl, rfl⟩) (by simp [snapshot])
  | popped hpc hsame => exact h.move rfl (.inr rfl) (by simp [snapshot])
  | popFailed hpc hfail => exact h.move rfl (.inl ⟨rfl, rfl⟩) (by simp [snapshot])
  | retNull hpc => exact h.move rfl (.inl ⟨rfl, rfl⟩) (by simp [snapshot])
  | ret hpc hne => exact h.move rfl (.inl ⟨rfl, rfl⟩) (by simp [snapshot])
  | scribble hmem => exact h
  | give hmem hne => exact h

/-- A step of another thread. -/
theorem turn_of_other (hexec : exec s e = some s') (hother : e.thread ≠ t) :
    Turn 4 3 (stale t s) (rank (s.pc t)) (kind t s e s') (stale t s') (rank (s'.pc t)) := by
  have hpc : s'.pc t = s.pc t := by
    cases taken_of_exec hexec with
    | scribble hmem => rfl
    | give hmem hne => rfl
    | _ => exact Function.update_of_ne (Ne.symm hother) _ _
  rw [kind, if_neg hother, hpc]
  split
  · exact .rival
  · next hquiet =>
      have hstale : stale t s' = stale t s := by
        rw [stale, stale, hpc]
        cases hloaded : snapshot (s.pc t) with
        | none => rfl
        | some loaded =>
            simp only [hloaded, Option.isSome_some, and_true, not_not] at hquiet
            rw [hquiet]
      rw [hstale]
      exact .apart

theorem stale_of_none (hnone : snapshot (s.pc t) = none) : stale t s = false := by
  rw [stale, hnone]
  rfl

/-- A step of a call, after which the thread has loaded nothing, or has just loaded, or
has what it had. -/
theorem turn_of_move {pc' : Pc} (hpc : s.pc t = pc) (hpc' : s'.pc t = pc')
    (hrank : rank pc' < rank pc)
    (hloaded : snapshot pc' = none ∨ snapshot pc' = some (s'.head, s'.exchanges) ∨
      (snapshot pc' = snapshot pc ∧ s'.exchanges = s.exchanges)) :
    Turn 4 3 (stale t s) (rank (s.pc t)) .step (stale t s') (rank (s'.pc t)) := by
  rw [hpc, hpc']
  refine .step ?_ hrank
  intro hstale
  rw [stale, hpc'] at hstale
  rcases hloaded with hnone | hnew | ⟨hkept, hcount⟩
  · rw [hnone] at hstale
    cases hstale
  · rw [hnew] at hstale
    exact (Nat.lt_irrefl _ (of_decide_eq_true hstale)).elim
  · rw [stale, hpc, ← hkept, ← hcount]
    exact hstale

theorem turn_of_call {pc' : Pc} (hpc : s.pc t = .idle) (hpc' : s'.pc t = pc')
    (hrank : rank pc' ≤ 4) (hnone : snapshot pc' = none) :
    Turn 4 3 (stale t s) (rank (s.pc t)) .call (stale t s') (rank (s'.pc t)) := by
  have hstale : stale t s' = false := stale_of_none (by rw [hpc', hnone])
  rw [hpc, hpc', hstale]
  apply Turn.call
  rw [rank, Nat.zero_add]
  exact hrank

/-- An exchange that finds another head has been overtaken. -/
theorem Fresh.stale_of_ne (h : Fresh s) {loaded : TaggedPtr × Nat}
    (hload : snapshot (s.pc t) = some loaded) (hne : s.head ≠ loaded.1) :
    stale t s = true := by
  obtain ⟨hle, hcurrent⟩ := h t loaded hload
  rw [stale, hload, Option.any_some]
  apply decide_eq_true
  apply Nat.lt_of_le_of_ne hle
  intro heq
  exact hne (hcurrent heq)

/-- A failed exchange takes the thread back to its load. -/
theorem Fresh.failed (h : Fresh s) {loaded : TaggedPtr × Nat} {pc pc' : Pc}
    (hpc : s.pc t = pc) (hload : snapshot pc = some loaded) (hnone : snapshot pc' = none)
    (hrank : rank pc' < rank pc + 3) (spurious : Bool) :
    Turn 4 3 (stale t s) (rank (s.pc t)) (ownKind t s (s.goto t pc') (.exchange t spurious))
      (stale t (s.goto t pc')) (rank ((s.goto t pc').pc t)) := by
  have hload' : snapshot (s.pc t) = some loaded := by rw [hpc, hload]
  have hback : stale t (s.goto t pc') = false := stale_of_none (by rw [goto_pc_self, hnone])
  have hsame : ¬ (s.goto t pc').exchanges ≠ s.exchanges := fun hne => hne rfl
  rw [ownKind, if_neg hsame, hback, goto_pc_self, hpc, hload]
  split
  · exact .slip hrank
  · next hhead =>
      apply Turn.lose
      · apply h.stale_of_ne hload'
        intro heq
        exact hhead (by rw [heq]; rfl)
      · exact hrank

/-- A step of the thread itself. -/
theorem turn_of_own (hfresh : Fresh s) (hexec : exec s e = some s') (hown : e.thread = t) :
    Turn 4 3 (stale t s) (rank (s.pc t)) (kind t s e s') (stale t s') (rank (s'.pc t)) := by
  rw [kind_own hown]
  cases taken_of_exec hexec with
  | callPush hpc hmem =>
      cases hown
      exact turn_of_call hpc goto_pc_self (by simp [rank]) rfl
  | callPop hpc =>
      cases hown
      exact turn_of_call hpc goto_pc_self (by simp [rank]) rfl
  | pushLoad hpc =>
      cases hown
      exact turn_of_move hpc goto_pc_self (by simp [rank]) (.inr (.inl rfl))
  | popEmpty hpc hnull =>
      cases hown
      exact turn_of_move hpc goto_pc_self (by simp [rank]) (.inl rfl)
  | popLoad hpc hne =>
      cases hown
      exact turn_of_move hpc goto_pc_self (by simp [rank]) (.inr (.inl rfl))
  | link hpc =>
      cases hown
      exact turn_of_move hpc goto_pc_self (by simp [rank]) (.inr (.inr ⟨rfl, rfl⟩))
  | readNext hpc =>
      cases hown
      exact turn_of_move hpc goto_pc_self (by simp [rank]) (.inr (.inr ⟨rfl, rfl⟩))
  | pushed hpc hsame =>
      cases hown
      rw [ownKind_of_swing]
      · exact turn_of_move hpc goto_pc_self (by simp [rank]) (.inl rfl)
      · exact Nat.succ_ne_self _
  | pushFailed hpc hfail =>
      cases hown
      exact hfresh.failed hpc rfl rfl (by simp [rank]) _
  | popped hpc hsame =>
      cases hown
      rw [ownKind_of_swing]
      · exact turn_of_move hpc goto_pc_self (by simp [rank]) (.inl rfl)
      · exact Nat.succ_ne_self _
  | popFailed hpc hfail =>
      cases hown
      exact hfresh.failed hpc rfl rfl (by simp [rank]) _
  | retNull hpc =>
      cases hown
      exact turn_of_move hpc goto_pc_self (by simp [rank]) (.inl rfl)
  | ret hpc hne =>
      cases hown
      exact turn_of_move hpc goto_pc_self (by simp [rank]) (.inl rfl)
  | scribble hmem => exact .apart
  | give hmem hne => exact .apart

theorem turn_of_exec (hfresh : Fresh s) (hexec : exec s e = some s') :
    Turn 4 3 (stale t s) (rank (s.pc t)) (kind t s e s') (stale t s') (rank (s'.pc t)) := by
  by_cases hown : e.thread = t
  · exact turn_of_own hfresh hexec hown
  · exact turn_of_other hexec hown

/-- The exchange of a running call, not failing spuriously. -/
theorem exchange_enabled {pc pc' pc'' : Pc} {old : TaggedPtr} {count ptr : Nat}
    (hpc : s.pc t = pc) (hload : snapshot pc = some (old, count))
    (hexec : exec s (.exchange t false) =
      if s.head = old ∧ false = false then some ((s.swing ptr).goto t pc')
      else some (s.goto t pc'')) :
    ∃ s', exec s (.exchange t false) = some s' ∧
      (kind t s (.exchange t false) s' = .step ∨ kind t s (.exchange t false) s' = .lose) := by
  have hown : (Event.exchange t false).thread = t := rfl
  by_cases hsame : s.head = old
  · rw [if_pos ⟨hsame, rfl⟩] at hexec
    refine ⟨_, hexec, .inl ?_⟩
    rw [kind_own hown]
    exact ownKind_of_swing (Nat.succ_ne_self _)
  · rw [if_neg fun h => hsame h.1] at hexec
    refine ⟨_, hexec, .inr ?_⟩
    have hother : (snapshot (s.pc t)).map Prod.fst ≠ some s.head := by
      rw [hpc, hload]
      intro heq
      exact hsame (Option.some.inj heq).symm
    have hquiet : ¬ (s.goto t pc'').exchanges ≠ s.exchanges := fun hne => hne rfl
    rw [kind_own hown, ownKind, if_neg hquiet, if_neg hother]

/-- A running call is never held up: it always has a next step that does not fail
spuriously. -/
theorem exists_step (hbusy : s.pc t ≠ .idle) :
    ∃ e s', exec s e = some s' ∧ (kind t s e s' = .step ∨ kind t s e s' = .lose) := by
  cases hpc : s.pc t with
  | idle => exact (hbusy hpc).elim
  | pushLoad node =>
      refine ⟨.load t, _, by rw [exec, hpc], .inl (if_pos rfl)⟩
  | pushLink node old count =>
      refine ⟨.link t, _, by rw [exec, hpc], .inl (if_pos rfl)⟩
  | pushExchange node old count =>
      exact ⟨_, exchange_enabled hpc rfl (by rw [exec, hpc])⟩
  | popLoad =>
      by_cases hnull : s.head.ptr = 0
      · exact ⟨.load t, s.goto t (.popped 0), by simp only [exec, hpc, if_pos hnull],
          .inl (if_pos rfl)⟩
      · exact ⟨.load t, s.goto t (.popNext s.head s.exchanges),
          by simp only [exec, hpc, if_neg hnull], .inl (if_pos rfl)⟩
  | popNext old count =>
      refine ⟨.readNext t, _, by rw [exec, hpc], .inl (if_pos rfl)⟩
  | popExchange old next count =>
      exact ⟨_, exchange_enabled hpc rfl (by rw [exec, hpc])⟩
  | popped ptr =>
      by_cases hnull : ptr = 0
      · exact ⟨.ret t, s.goto t .idle, by simp only [exec, hpc, if_pos hnull],
          .inl (if_pos rfl)⟩
      · exact ⟨.ret t, (s.own t (ptr :: s.owned t)).goto t .idle,
          by simp only [exec, hpc, if_neg hnull], .inl (if_pos rfl)⟩

theorem fresh_of_reachable {pool : Nat → Prop}
    (h : Reachable (ofExec (Initial pool) exec) s) : Fresh s := by
  refine h.invariant (P := Fresh) ?_ ?_
  · intro s hs u loaded hmem
    rw [hs.idle u] at hmem
    cases hmem
  · intro s e s' _ hs hstep
    exact hs.step hstep

theorem rank_le (pc : Pc) : rank pc ≤ 4 := by
  cases pc
  all_goals simp [rank]

theorem rank_lt_of_stale (hstale : stale t s = true) : rank (s.pc t) < 4 := by
  rw [stale] at hstale
  cases hpc : s.pc t with
  | popLoad =>
      rw [hpc] at hstale
      cases hstale
  | _ => simp [rank]

theorem idle_of_rank (hrank : rank pc = 0) : pc = .idle := by
  cases pc
  all_goals first | rfl | cases hrank

/-- The progress of thread `t` in a run that has the counts `n`. -/
structure LockFree (t : Nat) (s : State) (n : Tally) : Prop where
  /-- A running call has a next step, whatever the others do. -/
  enabled : s.pc t ≠ .idle →
    ∃ e s', exec s e = some s' ∧ (kind t s e s' = .step ∨ kind t s e s' = .lose)
  /-- It is overtaken only by exchanges of others between a load and an exchange of its
  own, and once by one before the run. -/
  losses : n.losses ≤ n.rivals + 1
  /-- A call takes four steps, and three more for each time it starts again. -/
  steps : n.steps ≤ 4 + 4 * n.calls + 3 * (n.losses + n.slips)
  /-- A call that no one overtakes and that does not fail spuriously ends within six
  steps, wherever it was. -/
  alone : n.calls = 0 → n.rivals = 0 → n.slips = 0 →
    n.steps ≤ 6 ∧ (n.steps = 6 → s.pc t = .idle)

/-- `push` and `pop` are lock-free: from any moment on, each thread's steps are bounded by
its calls, by the exchanges of others that overtake it and by its spurious failures. -/
theorem push_pop_lock_free (pool : Nat → Prop) (s₀ : State)
    (h₀ : Reachable (ofExec (Initial pool) exec) s₀) (t : Nat) (s : State) (n : Tally)
    (h : Reachable (counted exec (kind t) s₀) (s, n)) : LockFree t s n := by
  have hkeep : ∀ s e s', Fresh s → exec s e = some s' → Fresh s' :=
    fun s e s' hs hexec => hs.step hexec
  have hturn : ∀ s e s', Fresh s → exec s e = some s' →
      Turn 4 3 (stale t s) (rank (s.pc t)) (kind t s e s') (stale t s') (rank (s'.pc t)) :=
    fun s e s' hs hexec => turn_of_exec hs hexec
  have hbounded :
      Bounded 4 3 (stale t s₀) (rank (s₀.pc t)) (stale t s) (rank (s.pc t)) n :=
    (bounded_of_reachable (fresh_of_reachable h₀) hkeep hturn h).2
  obtain ⟨hlosses, hsteps⟩ := hbounded
  have hrank := rank_le (s₀.pc t)
  have hone := (stale t s₀).toNat_le
  refine ⟨exists_step, by omega, by omega, ?_⟩
  intro hcalls hrivals hslips
  have htotal : n.steps + rank (s.pc t) ≤ 6 := by
    cases hstale : stale t s₀ with
    | false =>
        rw [hstale] at hlosses
        simp only [Bool.toNat_false] at hlosses
        omega
    | true =>
        have hlt := rank_lt_of_stale hstale
        rw [hstale] at hlosses
        simp only [Bool.toNat_true] at hlosses
        omega
  constructor
  · omega
  · intro hsix
    apply idle_of_rank
    omega

/-- Thread 0 has loaded `head` for a `push` when thread 1 takes over: it loses one exchange
and needs three more steps. -/
theorem push_pop_lock_free_twoBlocks : ∃ s₀ s n,
    replay exec twoBlocks [.give 0 1 128, .callPush 0 64, .load 0, .callPush 1 128, .load 1,
      .link 1] = some s₀ ∧
    replay (record exec fun s e s' n => n.add (kind 0 s e s')) (s₀, .zero)
      [.exchange 1 false, .link 0, .exchange 0 false, .load 0, .link 0, .exchange 0 false] =
        some (s, n) ∧
    n = ⟨0, 5, 1, 1, 0⟩ ∧ LockFree 0 s n :=
  ⟨_, _, _, rfl, rfl, rfl, push_pop_lock_free (fun b => b ∈ [64, 128]) _
    (Reachable.replay [.give 0 1 128, .callPush 0 64, .load 0, .callPush 1 128, .load 1,
      .link 1] (.init twoBlocks_initial) rfl) 0 _ _
    (Reachable.replay (s := (_, _)) [.exchange 1 false, .link 0, .exchange 0 false, .load 0,
      .link 0, .exchange 0 false] (.init ⟨rfl, rfl⟩) rfl)⟩

end Progress

end PoolMemalloc.Ports.FreelistInterleaving
