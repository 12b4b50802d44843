import PoolMemalloc.Ports.BitmapInterleaving
import PoolMemalloc.Ports.TlBitmapInterleaving
import PoolMemalloc.Verified.Contention

/-!
# Progress of the bitmap allocators

`alloc` goes over the words of a region and tries each by exchanges until it is full;
`dealloc` clears a bit in one `fetch_and`.  An exchange that fails leaves the thread with
the word as it is now, so it has another try at the cost of one step, and it has failed
because some other thread has changed that very word since, unless it was spurious.

Hence a call takes a number of steps fixed by the number of words, and one more for each
failed exchange; the rest is `PoolMemalloc.Verified.Contention`.
-/

namespace PoolMemalloc.Ports.RegionInterleaving

open PoolMemalloc.Verified.SizeT
open PoolMemalloc.Verified.WordBitmap
open PoolMemalloc.Verified.Transition
open PoolMemalloc.Verified.Contention
open PoolMemalloc.Ports.BitmapRegion

/-- The word a thread is about to exchange. -/
def target (L : Layout) : Pc → Option (Nat × Nat)
  | .exchange k start probe _ => some (k, probeIndex L.wordCount start probe)
  | _ => none

/-- Whether the word of thread `t`'s exchange is not the one it has loaded. -/
def stale (L : Layout) (t : Nat) (s : State) : Bool :=
  match s.pc t with
  | .exchange k start probe word =>
      decide (wordAt (s.bitmap k) (probeIndex L.wordCount start probe) ≠ word)
  | _ => false

/-- The steps left when no exchange fails. -/
def rank (L : Layout) : Pc → Nat
  | .idle => 0
  | .loadHint _ => L.wordCount + 4
  | .loadWord _ _ probe => L.wordCount - probe + 3
  | .exchange _ _ probe _ => L.wordCount - (probe + 1) + 3
  | .settle _ _ _ => 2
  | .done _ _ => 1
  | .fetchAnd _ _ => 2
  | .storeHint _ _ => 1

/-- What a step of thread `t` is for itself. -/
def ownKind (L : Layout) (t : Nat) (s : State) : Event → Kind
  | .callAlloc _ _ => .call
  | .callDealloc _ _ => .call
  | .exchange _ spurious =>
      if stale L t s then .lose else if spurious then .slip else .step
  | _ => .step

/-- What a step from `s` to `s'` is for thread `t`: one of another thread matters when it
changes the word `t` is about to exchange. -/
def kind (L : Layout) (t : Nat) (s : State) (e : Event) (s' : State) : Kind :=
  if e.thread = t then ownKind L t s e
  else match target L (s.pc t) with
    | none => .apart
    | some (k, i) => if wordAt (s'.bitmap k) i ≠ wordAt (s.bitmap k) i then .rival else .apart

section Progress

variable {L : Layout} {s s' : State} {e : Event} {t : Nat} {pc pc' : Pc}

theorem stale_of_none (hpc : s.pc t = pc) (hnone : target L pc = none) :
    stale L t s = false := by
  rw [stale, hpc]
  cases pc with
  | exchange k start probe word => cases hnone
  | _ => rfl

/-- A word that has just been loaded is there. -/
theorem stale_of_load {k start probe : Nat}
    (hpc : s.pc t = .exchange k start probe
      (wordAt (s.bitmap k) (probeIndex L.wordCount start probe))) : stale L t s = false := by
  rw [stale, hpc]
  exact decide_eq_false fun hne => hne rfl

/-- A step of another thread. -/
theorem turn_of_other (hexec : exec L s e = some s') (hother : e.thread ≠ t) :
    Turn (L.wordCount + 4) 1 (stale L t s) (rank L (s.pc t)) (kind L t s e s')
      (stale L t s') (rank L (s'.pc t)) := by
  have hpc : s'.pc t = s.pc t := by
    cases step_of_exec hexec with
    | ignored hpc hlive hlocate => rfl
    | _ => exact Function.update_of_ne (Ne.symm hother) _ _
  rw [kind, if_neg hother, hpc]
  cases htarget : target L (s.pc t) with
  | none =>
      have hbefore : stale L t s = false := stale_of_none rfl htarget
      have hafter : stale L t s' = false := stale_of_none hpc htarget
      rw [hbefore, hafter]
      exact .apart
  | some word =>
      obtain ⟨k, i⟩ := word
      simp only
      split
      · exact .rival
      · next hsame =>
          have hstale : stale L t s' = stale L t s := by
            rw [stale, stale, hpc]
            cases hat : s.pc t with
            | exchange k' start probe word =>
                rw [hat] at htarget
                cases htarget
                show decide (wordAt (s'.bitmap k) _ ≠ word) =
                  decide (wordAt (s.bitmap k) _ ≠ word)
                rw [Decidable.not_not.mp hsame]
            | _ => rfl
          rw [hstale]
          exact .apart

/-- A step of a call other than a failed exchange. -/
theorem turn_of_move (hpc : s.pc t = pc) (hpc' : s'.pc t = pc')
    (hrank : rank L pc' < rank L pc) (hfresh : stale L t s' = false) :
    Turn (L.wordCount + 4) 1 (stale L t s) (rank L (s.pc t)) .step (stale L t s')
      (rank L (s'.pc t)) := by
  rw [hpc, hpc', hfresh]
  exact .step (fun h => nomatch h) hrank

theorem turn_of_call (hpc : s.pc t = .idle) (hpc' : s'.pc t = pc')
    (hrank : rank L pc' ≤ L.wordCount + 4) (hfresh : stale L t s' = false) :
    Turn (L.wordCount + 4) 1 (stale L t s) (rank L (s.pc t)) .call (stale L t s')
      (rank L (s'.pc t)) := by
  rw [hpc, hpc', hfresh]
  apply Turn.call
  rw [rank, Nat.zero_add]
  exact hrank

/-- A failed exchange leaves the thread with the word as it is. -/
theorem turn_of_failed {k start probe : Nat} {word : Word} {spurious : Bool}
    (hpc : s.pc t = .exchange k start probe word)
    (hfail : ¬ (wordAt (s.bitmap k) (probeIndex L.wordCount start probe) = word ∧
      spurious = false)) (hpc' : s'.pc t = pc')
    (hrank : rank L pc' ≤ rank L (.exchange k start probe word))
    (hfresh : stale L t s' = false) :
    Turn (L.wordCount + 4) 1 (stale L t s) (rank L (s.pc t))
      (ownKind L t s (.exchange t spurious)) (stale L t s') (rank L (s'.pc t)) := by
  rw [ownKind, hpc, hpc', hfresh]
  split
  · next hstale => exact .lose hstale (Nat.lt_succ_of_le hrank)
  · next hfound =>
      have hsame : wordAt (s.bitmap k) (probeIndex L.wordCount start probe) = word := by
        rw [stale, hpc] at hfound
        by_contra hne
        exact hfound (decide_eq_true hne)
      have hspurious : spurious = true := by
        rw [← Bool.not_eq_false]
        intro hnot
        exact hfail ⟨hsame, hnot⟩
      rw [if_pos hspurious]
      exact .slip (Nat.lt_succ_of_le hrank)

/-- The exchange that succeeds. -/
theorem ownKind_of_claim {k start probe : Nat} {word : Word}
    (hpc : s.pc t = .exchange k start probe word)
    (hword : wordAt (s.bitmap k) (probeIndex L.wordCount start probe) = word) :
    ownKind L t s (.exchange t false) = .step := by
  have hfound : stale L t s = false := by
    rw [stale, hpc]
    exact decide_eq_false fun hne => hne hword
  simp [ownKind, hfound]

theorem kind_own (h : e.thread = t) : kind L t s e s' = ownKind L t s e := if_pos h

/-- A step of the thread itself. -/
theorem turn_of_own (hexec : exec L s e = some s') (hown : e.thread = t) :
    Turn (L.wordCount + 4) 1 (stale L t s) (rank L (s.pc t)) (kind L t s e s')
      (stale L t s') (rank L (s'.pc t)) := by
  rw [kind_own hown]
  cases step_of_exec hexec with
  | callAlloc hpc hk =>
      cases hown
      exact turn_of_call hpc (State.goto_pc ..) (Nat.le_refl _)
        (stale_of_none (State.goto_pc ..) rfl)
  | loadHint hpc hread =>
      cases hown
      exact turn_of_move hpc (State.goto_pc ..) (Nat.lt_succ_self _)
        (stale_of_none (State.goto_pc ..) rfl)
  | full hpc hprobe hword =>
      cases hown
      refine turn_of_move hpc (State.goto_pc ..) ?_ (stale_of_none (State.goto_pc ..) rfl)
      simp only [rank]
      omega
  | loaded hpc hprobe hword =>
      cases hown
      refine turn_of_move hpc (State.goto_pc ..) ?_ (stale_of_load (State.goto_pc ..))
      simp only [rank]
      omega
  | exhausted hpc hprobe =>
      cases hown
      refine turn_of_move hpc (State.goto_pc ..) ?_ (stale_of_none (State.goto_pc ..) rfl)
      simp only [rank]
      omega
  | claimed hpc hword =>
      cases hown
      simp only [Event.thread]
      rw [ownKind_of_claim hpc hword]
      refine turn_of_move hpc (State.goto_pc ..) ?_ (stale_of_none (State.goto_pc ..) rfl)
      simp only [rank]
      omega
  | overtaken hpc hword hfail =>
      cases hown
      refine turn_of_failed hpc (hword ▸ hfail) (State.goto_pc ..) ?_
        (stale_of_none (State.goto_pc ..) rfl)
      exact Nat.le_refl _
  | @reloaded u k start probe word spurious hpc hword =>
      cases hown
      refine turn_of_failed hpc ?_ (State.goto_pc ..) (Nat.le_refl _)
        (stale_of_load (State.goto_pc ..))
      -- otherwise the exchange would have set a bit
      intro hclaim
      simp only [exec, hpc, if_pos hclaim] at hexec
      have hpcs := congrArg (fun next => next.pc) (Option.some.inj hexec)
      have hat := congrFun hpcs u
      simp only [State.goto, Function.update_self] at hat
      cases hat
  | undone hpc hpad =>
      cases hown
      exact turn_of_move hpc (State.goto_pc ..) (by simp [rank])
        (stale_of_none (State.goto_pc ..) rfl)
  | kept hpc hin =>
      cases hown
      exact turn_of_move hpc (State.goto_pc ..) (by simp [rank])
        (stale_of_none (State.goto_pc ..) rfl)
  | ret hpc =>
      cases hown
      exact turn_of_move hpc (State.goto_pc ..) (by simp [rank])
        (stale_of_none (State.goto_pc ..) rfl)
  | callDealloc hpc hlive hlocate =>
      cases hown
      refine turn_of_call hpc (State.goto_pc ..) ?_ (stale_of_none (State.goto_pc ..) rfl)
      simp only [rank]
      omega
  | ignored hpc hlive hlocate =>
      cases hown
      exact turn_of_call hpc hpc (Nat.zero_le _) (stale_of_none hpc rfl)
  | fetchAnd hpc =>
      cases hown
      exact turn_of_move hpc (State.goto_pc ..) (by simp [rank])
        (stale_of_none (State.goto_pc ..) rfl)
  | storeHint hpc =>
      cases hown
      exact turn_of_move hpc (State.goto_pc ..) (by simp [rank])
        (stale_of_none (State.goto_pc ..) rfl)

theorem turn_of_exec (hexec : exec L s e = some s') :
    Turn (L.wordCount + 4) 1 (stale L t s) (rank L (s.pc t)) (kind L t s e s')
      (stale L t s') (rank L (s'.pc t)) := by
  by_cases hown : e.thread = t
  · exact turn_of_own hexec hown
  · exact turn_of_other hexec hown

/-! ## The accounts of a thread -/

/-- Every hint has been written. -/
def Hinted (s : State) : Prop := ∀ k, s.hints k ≠ []

theorem Hinted.step (h : Hinted s) (hexec : exec L s e = some s') : Hinted s' := by
  have hwrite : ∀ k value, Hinted (s.writeHint k value) := by
    intro k value j
    show Function.update s.hints k _ j ≠ []
    by_cases hj : j = k
    · rw [hj, Function.update_self]
      exact List.cons_ne_nil _ _
    · rw [Function.update_of_ne hj]
      exact h j
  cases step_of_exec hexec with
  | kept hpc hin => exact hwrite _ _
  | storeHint hpc => exact hwrite _ _
  | _ => exact h

/-- A load of a hint that has been written returns something. -/
def Loads (L : Layout) : Prop :=
  ∀ written, written ≠ [] → ∃ value, L.readable written value = true

/-- A running call is never held up: it always has a next step that does not fail
spuriously. -/
theorem exists_step (hloads : Loads L) (h : Hinted s) (hbusy : s.pc t ≠ .idle) :
    ∃ e s', exec L s e = some s' ∧ (kind L t s e s' = .step ∨ kind L t s e s' = .lose) := by
  have hstep : ∀ {e s'}, exec L s e = some s' → e.thread = t →
      ownKind L t s e = .step ∨ ownKind L t s e = .lose →
      ∃ e s', exec L s e = some s' ∧ (kind L t s e s' = .step ∨ kind L t s e s' = .lose) := by
    intro e s' hexec hown hkind
    refine ⟨e, s', hexec, ?_⟩
    rw [kind_own hown]
    exact hkind
  cases hpc : s.pc t with
  | idle => exact (hbusy hpc).elim
  | loadHint k =>
      obtain ⟨value, hread⟩ := hloads (s.hints k) (h k)
      have hexec : exec L s (.loadHint t value) = some (s.goto t (.loadWord k value 0)) := by
        simp only [exec, hpc, hread, if_true]
      exact hstep hexec rfl (.inl rfl)
  | loadWord k start probe =>
      obtain ⟨s', hexec⟩ : ∃ s', exec L s (.loadWord t) = some s' := by
        simp only [exec, hpc]
        split
        · split
          · exact ⟨_, rfl⟩
          · exact ⟨_, rfl⟩
        · exact ⟨_, rfl⟩
      exact hstep hexec rfl (.inl rfl)
  | exchange k start probe word =>
      obtain ⟨s', hexec⟩ : ∃ s', exec L s (.exchange t false) = some s' := by
        simp only [exec, hpc]
        split
        · exact ⟨_, rfl⟩
        · split
          · exact ⟨_, rfl⟩
          · exact ⟨_, rfl⟩
      refine hstep hexec rfl ?_
      rw [ownKind]
      split
      · exact .inr rfl
      · exact .inl rfl
  | settle k wordIndex freeBit =>
      obtain ⟨s', hexec⟩ : ∃ s', exec L s (.settle t) = some s' := by
        simp only [exec, hpc]
        split
        · exact ⟨_, rfl⟩
        · exact ⟨_, rfl⟩
      exact hstep hexec rfl (.inl rfl)
  | done k index =>
      obtain ⟨s', hexec⟩ : ∃ s', exec L s (.ret t) = some s' := by
        simp only [exec, hpc]
        exact ⟨_, rfl⟩
      exact hstep hexec rfl (.inl rfl)
  | fetchAnd k ptr =>
      obtain ⟨s', hexec⟩ : ∃ s', exec L s (.fetchAnd t) = some s' := by
        simp only [exec, hpc]
        exact ⟨_, rfl⟩
      exact hstep hexec rfl (.inl rfl)
  | storeHint k wordIndex =>
      obtain ⟨s', hexec⟩ : ∃ s', exec L s (.storeHint t) = some s' := by
        simp only [exec, hpc]
        exact ⟨_, rfl⟩
      exact hstep hexec rfl (.inl rfl)

theorem rank_le (pc : Pc) : rank L pc ≤ L.wordCount + 4 := by
  cases pc
  all_goals
    simp only [rank]
    omega

theorem rank_lt_of_stale (hstale : stale L t s = true) :
    rank L (s.pc t) < L.wordCount + 4 := by
  rw [stale] at hstale
  cases hpc : s.pc t with
  | exchange k start probe word =>
      simp only [rank]
      omega
  | _ =>
      rw [hpc] at hstale
      cases hstale

theorem idle_of_rank (hrank : rank L pc = 0) : pc = .idle := by
  cases pc with
  | idle => rfl
  | _ =>
      simp only [rank] at hrank
      omega

/-- The progress of thread `t` in a run that has the counts `n`. -/
structure LockFree (L : Layout) (t : Nat) (s : State) (n : Tally) : Prop where
  /-- A running call has a next step, whatever the others do. -/
  enabled : s.pc t ≠ .idle →
    ∃ e s', exec L s e = some s' ∧ (kind L t s e s' = .step ∨ kind L t s e s' = .lose)
  /-- Its exchanges fail only on words that others have changed since it loaded them. -/
  losses : n.losses ≤ n.rivals + 1
  /-- A call takes at most four steps more than there are words, and one for each failed
  exchange. -/
  steps : n.steps ≤ (L.wordCount + 4) * (n.calls + 1) + n.losses + n.slips
  /-- A call whose words no one changes and that does not fail spuriously ends within as
  many steps, wherever it was. -/
  alone : n.calls = 0 → n.rivals = 0 → n.slips = 0 →
    n.steps ≤ L.wordCount + 4 ∧ (n.steps = L.wordCount + 4 → s.pc t = .idle)

theorem lockFree_of_bounded {s₀ : State} {n : Tally} (hloads : Loads L) (hhinted : Hinted s)
    (h : Bounded (L.wordCount + 4) 1 (stale L t s₀) (rank L (s₀.pc t)) (stale L t s)
      (rank L (s.pc t)) n) : LockFree L t s n := by
  obtain ⟨hlosses, hsteps⟩ := h
  have hrank : rank L (s₀.pc t) ≤ L.wordCount + 4 := rank_le (s₀.pc t)
  have hone := (stale L t s₀).toNat_le
  rw [Nat.one_mul] at hsteps
  refine ⟨exists_step hloads hhinted, by omega, ?_, ?_⟩
  · rw [Nat.mul_add, Nat.mul_one]
    omega
  · intro hcalls hrivals hslips
    rw [hcalls, Nat.mul_zero] at hsteps
    have htotal : n.steps + rank L (s.pc t) ≤ L.wordCount + 4 := by
      cases hstale : stale L t s₀ with
      | false =>
          rw [hstale] at hlosses
          simp only [Bool.toNat_false] at hlosses
          omega
      | true =>
          have hlt := rank_lt_of_stale hstale
          rw [hstale] at hlosses
          simp only [Bool.toNat_true] at hlosses
          omega
    constructor
    · omega
    · intro hall
      apply idle_of_rank (L := L)
      omega

end Progress

/-! ## The two allocators -/

section Machines

universe u

variable {L : Layout} {σ : Type u} {exec' : σ → Event → Option σ} {t : Nat}

/-- A machine that runs the regions of `L`, from newly constructed ones. -/
theorem hinted_of_reachable {init : σ → Prop} (core : σ → State)
    (hinit : ∀ s, init s → core s = start L)
    (hcore : ∀ s e s', exec' s e = some s' → exec L (core s) e = some (core s')) {s : σ}
    (h : Reachable (ofExec init exec') s) : Hinted (core s) := by
  refine h.invariant (P := fun s => Hinted (core s)) ?_ ?_
  · intro s hs k
    rw [hinit s hs]
    exact List.cons_ne_nil _ _
  · intro s e s' _ hs hstep
    exact hs.step (hcore s e s' hstep)

theorem lockFree_of_counted (core : σ → State) (hloads : Loads L)
    (hcore : ∀ s e s', exec' s e = some s' → exec L (core s) e = some (core s')) {s₀ s : σ}
    {n : Tally} (h₀ : Hinted (core s₀))
    (h : Reachable (counted exec' (fun s e s' => kind L t (core s) e (core s')) s₀) (s, n)) :
    LockFree L t (core s) n := by
  have hkeep : ∀ s e s', Hinted (core s) → exec' s e = some s' → Hinted (core s') :=
    fun s e s' hs hexec => hs.step (hcore s e s' hexec)
  have hturn : ∀ s e s', Hinted (core s) → exec' s e = some s' →
      Turn (L.wordCount + 4) 1 (stale L t (core s)) (rank L ((core s).pc t))
        (kind L t (core s) e (core s')) (stale L t (core s')) (rank L ((core s').pc t)) :=
    fun s e s' _ hexec => turn_of_exec (hcore s e s' hexec)
  obtain ⟨hhinted, hbounded⟩ :=
    bounded_of_reachable (P := fun s => Hinted (core s)) h₀ hkeep hturn h
  exact lockFree_of_bounded hloads hhinted hbounded

/-- Both bitmap allocators are lock-free: from any moment on, each thread's steps are
bounded by its calls, by the changes others make to the words it is about to exchange,
and by its spurious failures. -/
theorem alloc_dealloc_lock_free (t : Nat) :
    (∀ (a : BitmapAllocator.Allocator) (s₀ s : State) (n : Tally),
      Reachable (steps (BitmapInterleaving.layout a)) s₀ →
      Reachable (counted (exec (BitmapInterleaving.layout a))
        (kind (BitmapInterleaving.layout a) t) s₀) (s, n) →
      LockFree (BitmapInterleaving.layout a) t s n) ∧
    ∀ (a : TlBitmapAllocator.Allocator) (s₀ s : TlBitmapInterleaving.State) (n : Tally),
      Reachable (TlBitmapInterleaving.steps a) s₀ →
      Reachable (counted (TlBitmapInterleaving.exec a)
        (fun s e s' => kind (TlBitmapInterleaving.layout a) t s.core e s'.core) s₀) (s, n) →
      LockFree (TlBitmapInterleaving.layout a) t s.core n := by
  constructor
  · intro a s₀ s n h₀ h
    have hloads : Loads (BitmapInterleaving.layout a) := by
      intro written hne
      refine ⟨written.head hne, ?_⟩
      simp [BitmapInterleaving.layout, List.head?_eq_some_head hne]
    have hhinted : Hinted s₀ :=
      hinted_of_reachable id (fun s hs => hs) (fun s e s' hexec => hexec) h₀
    exact lockFree_of_counted id hloads (fun s e s' hexec => hexec) hhinted h
  · intro a s₀ s n h₀ h
    have hloads : Loads (TlBitmapInterleaving.layout a) := by
      intro written hne
      refine ⟨written.head hne, ?_⟩
      simp [TlBitmapInterleaving.layout]
    have hinit : ∀ s, s = (⟨start (TlBitmapInterleaving.layout a), fun _ => sizeMax,
        a.threadCounter⟩ : TlBitmapInterleaving.State) →
        s.core = start (TlBitmapInterleaving.layout a) := by
      rintro s rfl
      rfl
    have hcore : ∀ s e s', TlBitmapInterleaving.exec a s e = some s' →
        exec (TlBitmapInterleaving.layout a) s.core e = some s'.core :=
      fun s e s' hexec => TlBitmapInterleaving.exec_core hexec
    exact lockFree_of_counted _ hloads hcore (hinted_of_reachable _ hinit hcore h₀) h

set_option maxRecDepth 4000 in
/-- Both threads have loaded the first word when thread 1 sets its lowest bit: thread 0
loses one exchange. -/
theorem alloc_dealloc_lock_free_pool65 :
    (∃ s₀ s n,
      replay (exec (BitmapInterleaving.layout BitmapAllocator.pool65))
        (start (BitmapInterleaving.layout BitmapAllocator.pool65))
        [.callAlloc 0 0, .loadHint 0 0, .loadWord 0, .callAlloc 1 0, .loadHint 1 0,
          .loadWord 1] = some s₀ ∧
      replay (record (exec (BitmapInterleaving.layout BitmapAllocator.pool65)) fun s e s' n =>
        n.add (kind (BitmapInterleaving.layout BitmapAllocator.pool65) 0 s e s'))
        (s₀, .zero) [.exchange 1 false, .exchange 0 false] = some (s, n) ∧
      n = ⟨0, 1, 1, 1, 0⟩ ∧
      LockFree (BitmapInterleaving.layout BitmapAllocator.pool65) 0 s n) ∧
    ∃ s n,
      replay (record (TlBitmapInterleaving.exec TlBitmapAllocator.tlPool65) fun s e s' n =>
        n.add (kind (TlBitmapInterleaving.layout TlBitmapAllocator.tlPool65) 0 s.core e
          s'.core))
        (⟨start (TlBitmapInterleaving.layout TlBitmapAllocator.tlPool65), fun _ => sizeMax,
          0⟩, .zero) [.callAlloc 0 0, .loadHint 0 0] = some (s, n) ∧
      n = ⟨1, 1, 0, 0, 0⟩ ∧
      LockFree (TlBitmapInterleaving.layout TlBitmapAllocator.tlPool65) 0 s.core n :=
  ⟨⟨_, _, _, rfl, rfl, rfl, (alloc_dealloc_lock_free 0).1 BitmapAllocator.pool65 _ _ _
      (Reachable.replay [.callAlloc 0 0, .loadHint 0 0, .loadWord 0, .callAlloc 1 0,
        .loadHint 1 0, .loadWord 1] (.init rfl) rfl)
      (Reachable.replay (s := (_, _)) [.exchange 1 false, .exchange 0 false]
        (.init ⟨rfl, rfl⟩) rfl)⟩,
    ⟨_, _, rfl, rfl, (alloc_dealloc_lock_free 0).2 TlBitmapAllocator.tlPool65 _ _ _
      (.init rfl)
      (Reachable.replay (s := (_, _)) [.callAlloc 0 0, .loadHint 0 0]
        (.init ⟨rfl, rfl⟩) rfl)⟩⟩

end Machines

end PoolMemalloc.Ports.RegionInterleaving
