/-!
# Labelled transition systems

Everything in this development that runs — a sequence of whole calls, or the
interleaved atomic steps of many threads — is a transition system: a predicate
on initial states and a labelled step relation.  The induction over runs is
done here once.

* `Reachable.invariant` — a property of the initial states that every step from
  a reachable state preserves holds in every reachable state.
* `restrict` — the runs all of whose steps meet a condition; the condition is
  about the state before the step and the label.
* `Reachable.simulate` — a forward simulation carries reachable states to
  reachable states.
* `ofExec`, `replay` — systems given by an executable partial step function, and
  the states a concrete list of labels leads to.
* `exists_replay_within`, `exists_replay_until` — repeating one label while a measure
  decreases.
* `firstAlong`, `slot_replay` — a slot that keeps the first thing a run offers it.
* `recorded` — a system that carries a history no step reads.
* `Reachable.simulate_recorded` — a simulation that keeps the history.
-/

namespace PoolMemalloc.Verified.Transition

universe u v w

/-- A labelled transition system. -/
structure System (σ : Type u) (ε : Type v) where
  init : σ → Prop
  step : σ → ε → σ → Prop

variable {σ : Type u} {ε : Type v}

/-- States reached by some run from an initial state. -/
inductive Reachable (S : System σ ε) : σ → Prop
  | init {s : σ} (h : S.init s) : Reachable S s
  | step {s s' : σ} {e : ε} (h : Reachable S s) (hstep : S.step s e s') :
      Reachable S s'

/-- The invariant rule. -/
theorem Reachable.invariant {S : System σ ε} {P : σ → Prop}
    (hinit : ∀ s, S.init s → P s)
    (hstep : ∀ s e s', Reachable S s → P s → S.step s e s' → P s')
    {s : σ} (h : Reachable S s) : P s := by
  induction h with
  | init h => exact hinit _ h
  | step h hs ih => exact hstep _ _ _ h ih hs

/-- The system that takes only the steps meeting `C`. -/
def restrict (S : System σ ε) (C : σ → ε → Prop) : System σ ε where
  init := S.init
  step s e s' := C s e ∧ S.step s e s'

theorem Reachable.of_restrict {S : System σ ε} {C : σ → ε → Prop} {s : σ}
    (h : Reachable (restrict S C) s) : Reachable S s := by
  induction h with
  | init h => exact .init h
  | step _ hs ih => exact .step ih hs.2

/-- Forward simulation: related initial states exist, and a step of the
concrete system is answered by a step of the abstract one. -/
theorem Reachable.simulate {σ' : Type u} {ε' : Type v} {S : System σ ε}
    {T : System σ' ε'} (R : σ → σ' → Prop)
    (hinit : ∀ s, S.init s → ∃ t, T.init t ∧ R s t)
    (hstep : ∀ s t e s', R s t → S.step s e s' →
      ∃ e' t', T.step t e' t' ∧ R s' t')
    {s : σ} (h : Reachable S s) : ∃ t, Reachable T t ∧ R s t := by
  induction h with
  | init h =>
      obtain ⟨t, ht, hR⟩ := hinit _ h
      exact ⟨t, .init ht, hR⟩
  | step _ hs ih =>
      obtain ⟨t, ht, hR⟩ := ih
      obtain ⟨e', t', hT, hR'⟩ := hstep _ _ _ _ hR hs
      exact ⟨t', .step ht hT, hR'⟩

/-! ## Executable systems -/

/-- The system of a partial step function. -/
def ofExec (init : σ → Prop) (exec : σ → ε → Option σ) : System σ ε where
  init := init
  step s e s' := exec s e = some s'

/-- Run a list of labels; `none` as soon as one is not enabled. -/
def replay (exec : σ → ε → Option σ) : σ → List ε → Option σ
  | s, [] => some s
  | s, e :: rest => (exec s e).bind fun s' => replay exec s' rest

theorem replay_append {exec : σ → ε → Option σ} {labels labels' : List ε} {s mid s' : σ}
    (h : replay exec s labels = some mid) (h' : replay exec mid labels' = some s') :
    replay exec s (labels ++ labels') = some s' := by
  induction labels generalizing s with
  | nil =>
      cases h
      exact h'
  | cons e rest ih =>
      obtain ⟨next, hnext, hrest⟩ := Option.bind_eq_some_iff.mp h
      rw [List.cons_append, replay, hnext, Option.bind_some, ih hrest]

/-- A successful replay from a reachable state ends in a reachable state. -/
theorem Reachable.replay {init : σ → Prop} {exec : σ → ε → Option σ}
    (labels : List ε) {s s' : σ} (h : Reachable (ofExec init exec) s)
    (hrun : replay exec s labels = some s') :
    Reachable (ofExec init exec) s' := by
  induction labels generalizing s with
  | nil =>
      cases hrun
      exact h
  | cons e rest ih =>
      obtain ⟨mid, hmid, hrest⟩ := Option.bind_eq_some_iff.mp hrun
      exact ih (.step h hmid) hrest

/-- The labels of a run all meet `C` in the states where they are taken. -/
def Along (exec : σ → ε → Option σ) (C : σ → ε → Prop) : σ → List ε → Prop
  | _, [] => True
  | s, e :: rest =>
      C s e ∧
        match exec s e with
        | none => True
        | some s' => Along exec C s' rest

instance Along.decidable (exec : σ → ε → Option σ) (C : σ → ε → Prop)
    [∀ s e, Decidable (C s e)] : ∀ s labels, Decidable (Along exec C s labels)
  | _, [] => isTrue trivial
  | s, e :: rest =>
      match h : exec s e with
      | none => decidable_of_iff (C s e) (by simp [Along, h])
      | some s' =>
          have := Along.decidable exec C s' rest
          decidable_of_iff (C s e ∧ Along exec C s' rest) (by simp [Along, h])

theorem Reachable.replay_restrict {init : σ → Prop} {exec : σ → ε → Option σ}
    {C : σ → ε → Prop} (labels : List ε) {s s' : σ}
    (h : Reachable (restrict (ofExec init exec) C) s) (hmeet : Along exec C s labels)
    (hrun : Transition.replay exec s labels = some s') :
    Reachable (restrict (ofExec init exec) C) s' := by
  induction labels generalizing s with
  | nil =>
      cases hrun
      exact h
  | cons e rest ih =>
      obtain ⟨mid, hmid, hrest⟩ := Option.bind_eq_some_iff.mp hrun
      obtain ⟨hfirst, hlater⟩ := hmeet
      rw [hmid] at hlater
      exact ih (.step h ⟨hfirst, hmid⟩) hlater hrest

/-- Repeating one label until `Q` holds: `P n s` gives it at most `n` more steps. -/
theorem exists_replay_within {exec : σ → ε → Option σ} (e : ε) {P : Nat → σ → Prop}
    {Q : σ → Prop}
    (hstep : ∀ n s, P n s → Q s ∨ ∃ m s', exec s e = some s' ∧ P m s' ∧ m < n)
    {n : Nat} {s : σ} (hs : P n s) :
    ∃ k m s', k ≤ n ∧ replay exec s (List.replicate k e) = some s' ∧ P m s' ∧ Q s' := by
  induction n using Nat.strongRecOn generalizing s with
  | ind n ih =>
      rcases hstep n s hs with hdone | ⟨m, mid, hexec, hmid, hlt⟩
      · exact ⟨0, n, s, Nat.zero_le n, rfl, hs, hdone⟩
      · obtain ⟨k, m', s', hk, hrun, hs', hdone⟩ := ih m hlt hmid
        refine ⟨k + 1, m', s', by omega, ?_, hs', hdone⟩
        rw [List.replicate_succ, replay, hexec, Option.bind_some, hrun]

/-- It does in the end if each step keeps `P` and makes `measure` smaller. -/
theorem exists_replay_until {exec : σ → ε → Option σ} (e : ε) (measure : σ → Nat)
    {P Q : σ → Prop}
    (hstep : ∀ s, P s → Q s ∨ ∃ s', exec s e = some s' ∧ P s' ∧ measure s' < measure s)
    {s : σ} (hs : P s) :
    ∃ n s', replay exec s (List.replicate n e) = some s' ∧ P s' ∧ Q s' := by
  obtain ⟨k, -, s', -, hrun, ⟨hs', -⟩, hdone⟩ :=
    exists_replay_within (P := fun n s => P s ∧ measure s = n) e
      (fun n s ⟨hs, hn⟩ => (hstep s hs).imp_right fun ⟨s', hexec, hs', hlt⟩ =>
        ⟨measure s', s', hexec, ⟨hs', rfl⟩, hn ▸ hlt⟩) ⟨hs, rfl⟩
  exact ⟨k, s', hrun, hs', hdone⟩

/-- What the steps of a run offer first. -/
def firstAlong {α : Type w} (exec : σ → ε → Option σ) (offer : σ → ε → Option α) :
    σ → List ε → Option α
  | _, [] => none
  | s, e :: rest =>
      (offer s e).or ((exec s e).bind fun s' => firstAlong exec offer s' rest)

theorem firstAlong_eq_none {α : Type w} {exec : σ → ε → Option σ} {offer : σ → ε → Option α}
    {labels : List ε} (h : ∀ e ∈ labels, ∀ s, offer s e = none) (s : σ) :
    firstAlong exec offer s labels = none := by
  induction labels generalizing s with
  | nil => rfl
  | cons e rest ih =>
      rw [firstAlong, h e List.mem_cons_self, Option.none_or, Option.bind_eq_none_iff]
      intro s' _
      exact ih (fun e he => h e (List.mem_cons_of_mem _ he)) s'

/-- A slot that is filled once, as long as it is kept. -/
theorem slot_replay {α : Type w} {exec : σ → ε → Option σ} {offer : σ → ε → Option α}
    {slot : σ → Option α} {kept : σ → Prop}
    (hstep : ∀ s e s', exec s e = some s' → kept s' →
      kept s ∧ slot s' = (slot s).or (offer s e))
    (labels : List ε) {s s' : σ} (hrun : replay exec s labels = some s') (hkept : kept s') :
    kept s ∧ slot s' = (slot s).or (firstAlong exec offer s labels) := by
  induction labels generalizing s with
  | nil =>
      cases hrun
      exact ⟨hkept, Option.or_none.symm⟩
  | cons e rest ih =>
      obtain ⟨mid, hmid, hrest⟩ := Option.bind_eq_some_iff.mp hrun
      obtain ⟨hkeptMid, hlater⟩ := ih hrest
      obtain ⟨hkept, hfirst⟩ := hstep s e mid hmid hkeptMid
      refine ⟨hkept, ?_⟩
      rw [hlater, hfirst, firstAlong, hmid, Option.bind_some, Option.or_assoc]

/-! ## Histories -/

/-- One step of a system that keeps a history beside its state. -/
def record {η : Type w} (exec : σ → ε → Option σ) (note : σ → ε → σ → η → η) (s : σ × η)
    (e : ε) : Option (σ × η) :=
  (exec s.1 e).map fun s' => (s', note s.1 e s' s.2)

/-- The runs of a system together with what has been noted since the beginning. -/
def recorded {η : Type w} (init : σ → Prop) (exec : σ → ε → Option σ) (blank : η)
    (note : σ → ε → σ → η → η) : System (σ × η) ε :=
  ofExec (fun s => init s.1 ∧ s.2 = blank) (record exec note)

section Histories

variable {η : Type w} {init : σ → Prop} {exec : σ → ε → Option σ} {blank : η}
variable {note : σ → ε → σ → η → η} {s s' : σ × η} {e : ε}

theorem record_eq (h : record exec note s e = some s') :
    exec s.1 e = some s'.1 ∧ s'.2 = note s.1 e s'.1 s.2 := by
  obtain ⟨next, hexec, rfl⟩ := Option.map_eq_some_iff.mp h
  exact ⟨hexec, rfl⟩

/-- Every run has its history. -/
theorem Reachable.remember {s : σ} (h : Reachable (ofExec init exec) s) (blank : η)
    (note : σ → ε → σ → η → η) :
    ∃ past, Reachable (recorded init exec blank note) (s, past) := by
  induction h with
  | init h => exact ⟨blank, .init ⟨h, rfl⟩⟩
  | @step s s' e _ hstep ih =>
      obtain ⟨past, hpast⟩ := ih
      exact ⟨note s e s' past, .step hpast (Option.map_eq_some_iff.mpr ⟨s', hstep, rfl⟩)⟩

/-- Without the history it is a run of the system. -/
theorem Reachable.forget (h : Reachable (recorded init exec blank note) s) :
    Reachable (ofExec init exec) s.1 := by
  induction h with
  | init h => exact .init h.1
  | step _ hstep ih => exact .step ih (record_eq hstep).1

/-- Forward simulation that keeps the history: a step is answered by one that notes the
same, or by none at all when it notes nothing. -/
theorem Reachable.simulate_recorded {σ' : Type u} {ε' : Type v} {init' : σ' → Prop}
    {exec' : σ' → ε' → Option σ'} {note' : σ' → ε' → σ' → η → η} (R : σ → σ' → Prop)
    (hinit : ∀ s, init s → ∃ t, init' t ∧ R s t)
    (hstep : ∀ s t e s', R s t → exec s e = some s' →
      (R s' t ∧ ∀ past, note s e s' past = past) ∨
        ∃ e' t', exec' t e' = some t' ∧ R s' t' ∧
          ∀ past, note s e s' past = note' t e' t' past)
    (h : Reachable (recorded init exec blank note) s) :
    ∃ t, Reachable (recorded init' exec' blank note') (t, s.2) ∧ R s.1 t := by
  induction h with
  | init h =>
      obtain ⟨t, ht, hR⟩ := hinit _ h.1
      exact ⟨t, .init ⟨ht, h.2⟩, hR⟩
  | @step s s' e _ hs ih =>
      obtain ⟨t, ht, hR⟩ := ih
      obtain ⟨hexec, hpast⟩ := record_eq hs
      rw [hpast]
      rcases hstep _ _ _ _ hR hexec with ⟨hR', hsilent⟩ | ⟨e', t', hexec', hR', hsame⟩
      · rw [hsilent]
        exact ⟨t, ht, hR'⟩
      · rw [hsame]
        exact ⟨t', .step ht (Option.map_eq_some_iff.mpr ⟨t', hexec', rfl⟩), hR'⟩

end Histories

end PoolMemalloc.Verified.Transition
