import PoolMemalloc.Ports.CacheFleet
import PoolMemalloc.Ports.InstrumentedCache
import PoolMemalloc.Verified.Transition

/-!
# What the debug checks of `dealloc` report

With `ALLOC_DEBUG` each thread keeps the set of the pointers that its own calls of `alloc`
have returned and its own calls of `dealloc` have not taken back.  A block that another
thread frees is not in that thread's set, and stays in the set of the thread that
allocated it.

Runs are whole calls of any threads on any `ThreadCache` objects, up to the first
`dealloc` of a pointer that is neither null nor live.  `reports_exact_iff` — the checks
report exactly these if and only if every block is freed by the thread that allocated it.
`free_elsewhere` is a run with a false report and a double free that is not reported.
-/

namespace PoolMemalloc.Ports.DoubleFree

open PoolMemalloc.Verified.Transition
open PoolMemalloc.Verified.LinkedChain
open PoolMemalloc.Ports.ThreadCache (refilled)
open PoolMemalloc.Ports.CacheWorld (World Place cell granted userWrite lt_addresses)
open PoolMemalloc.Ports.CacheFleet
open PoolMemalloc.Ports.Instrumentation
open PoolMemalloc.Ports.InstrumentedCache

/-- A `dealloc` of a pointer that is not null: whether it was reported as an error,
whether the pointer was live, and the thread whose `alloc` had returned it last. -/
structure Free (τ : Type) where
  thread : τ
  ptr : Nat
  reported : Bool
  live : Bool
  owner : Option τ
  deriving Repr, DecidableEq

/-- `live`, `owner` and `frees`, the last one first, are history variables. -/
structure State (τ κ π : Type) where
  process : Process τ κ π
  live : List Nat
  owner : Nat → Option τ
  frees : List (Free τ)

/-- Thread `t` calls the cache of key `k`. -/
inductive Event (τ κ : Type)
  | alloc (t : τ) (k : κ)
  | dealloc (t : τ) (k : κ) (ptr : Nat)
  | write (ptr v : Nat)

/-- No thread has called yet; the pools hold null-terminated lists of different nodes. -/
structure Start {τ κ π : Type} (s : State τ κ π) : Prop where
  caches : s.process.world.caches = fun _ => none
  vars : s.process.vars = fun _ => .initial
  live : s.live = []
  frees : s.frees = []
  lists : ∃ g : π → List Nat,
    (∀ p, Chain 0 s.process.world.next (s.process.world.globals p).ptr (g p)) ∧
      (∀ p q b, b ∈ g p → b ∈ g q → p = q) ∧ ∀ p, ∀ b ∈ g p, b < 2 ^ 64

section Runs

variable {τ κ π : Type} [DecidableEq τ] [DecidableEq κ] [DecidableEq π]

/-- The entry for a `dealloc` of a pointer that is not null. -/
def noted (s : State τ κ π) (t : τ) (ptr : Nat) (message : Option Message) : Free τ where
  thread := t
  ptr := ptr
  reported := decide (message = some (.doubleFree ptr))
  live := decide (ptr ∈ s.live)
  owner := s.owner ptr

def step (b : Build) (F : Fleet κ π) : State τ κ π → Event τ κ → Option (State τ κ π)
  | s, .alloc t k =>
      (allocFrom b s.process t k (F.pool k) (F.batch k)).map fun r =>
        { s with
          process := r.2
          live := granted r.1 s.live
          owner := Function.update s.owner r.1 (some t) }
  | s, .dealloc t k ptr =>
      let r := deallocTo b s.process t k (F.pool k) (F.batch k) ptr
      if ptr = 0 then r.2.map fun p => { s with process := p }
      else
        let free := noted s t ptr r.1
        if ptr ∈ s.live then
          r.2.map fun p =>
            { s with
              process := p
              live := s.live.erase ptr
              frees := free :: s.frees }
        -- what the memory holds from here on does not matter
        else some { s with frees := free :: s.frees }
  | s, .write ptr v =>
      if ptr ∈ s.live then
        some { s with process := { s.process with world := userWrite s.process.world ptr v } }
      else none

/-- The run ends with the first erroneous `dealloc`. -/
def exec (b : Build) (F : Fleet κ π) (s : State τ κ π) (e : Event τ κ) :
    Option (State τ κ π) :=
  if ∀ d ∈ s.frees, d.live = true then step b F s e else none

def runs (b : Build) (F : Fleet κ π) : System (State τ κ π) (Event τ κ) :=
  ofExec Start (exec b F)

/-- An error is reported just if the pointer was not live. -/
def Exact {τ : Type} (frees : List (Free τ)) : Prop :=
  ∀ d ∈ frees, d.reported = true ↔ d.live = false

/-- Blocks are freed by the threads that allocated them. -/
def OwnFrees {τ : Type} (frees : List (Free τ)) : Prop :=
  ∀ d ∈ frees, d.live = true → d.owner = some d.thread

theorem exact_cons {τ : Type} {d : Free τ} {frees : List (Free τ)} :
    Exact (d :: frees) ↔ (d.reported = true ↔ d.live = false) ∧ Exact frees :=
  List.forall_mem_cons

theorem ownFrees_cons {τ : Type} {d : Free τ} {frees : List (Free τ)} :
    OwnFrees (d :: frees) ↔ (d.live = true → d.owner = some d.thread) ∧ OwnFrees frees :=
  List.forall_mem_cons

/-- As long as nothing was freed in error.  The sets are right as long as the threads
free only their own blocks. -/
structure Tracks (F : Fleet κ π) (s : State τ κ π) : Prop where
  memory : ∃ block g l, F.Inv block s.process.world s.live g l
  sets : OwnFrees s.frees → ∀ t ptr,
    ptr ∈ (s.process.vars t).live ↔ ptr ∈ s.live ∧ s.owner ptr = some t

structure Inv (F : Fleet κ π) (s : State τ κ π) : Prop where
  exact : Exact s.frees ↔ OwnFrees s.frees
  tracks : (∀ d ∈ s.frees, d.live = true) → Tracks F s

variable {b : Build} {F : Fleet κ π} {s s' : State τ κ π} {t : τ} {k : κ} {ptr : Nat}

omit [DecidableEq τ] [DecidableEq κ] [DecidableEq π] in
theorem Start.inv (h : Start s) : Inv F s := by
  obtain ⟨g, hglobal, hapart, haddress⟩ := h.lists
  have hmemory := start_inv (F := F) h.caches hglobal hapart haddress
  rw [← h.live] at hmemory
  refine ⟨?_, fun _ => ⟨⟨_, _, _, hmemory⟩, fun _ u p => ?_⟩⟩
  · rw [h.frees]
    exact iff_of_true (fun _ hd => nomatch hd) (fun _ hd => nomatch hd)
  · rw [h.vars, h.live]
    simp [ThreadVars.initial]

/-! ## The sets of the threads -/

omit [DecidableEq κ] [DecidableEq π] in
/-- A block that was not live goes to thread `t`. -/
private theorem sets_insert {sets : τ → Finset Nat} {live : List Nat}
    {owner : Nat → Option τ} (h : ∀ u p, p ∈ sets u ↔ p ∈ live ∧ owner p = some u)
    (t : τ) {r : Nat} (hnew : r ∉ live) (u : τ) (p : Nat) :
    p ∈ Function.update sets t (insert r (sets t)) u ↔
      p ∈ r :: live ∧ Function.update owner r (some t) p = some u := by
  by_cases hu : u = t
  · subst hu
    rw [Function.update_self, Finset.mem_insert, List.mem_cons, h]
    by_cases hp : p = r
    · simp [hp]
    · simp [hp]
  · rw [Function.update_of_ne hu, List.mem_cons, h]
    by_cases hp : p = r
    · simp [hp, hnew, Ne.symm hu]
    · simp [hp]

omit [DecidableEq κ] [DecidableEq π] in
/-- A live block comes back from the thread that has it. -/
private theorem sets_erase {sets : τ → Finset Nat} {live : List Nat}
    {owner : Nat → Option τ} (h : ∀ u p, p ∈ sets u ↔ p ∈ live ∧ owner p = some u)
    {t : τ} (hnodup : live.Nodup) (hmine : owner ptr = some t) (u : τ) (p : Nat) :
    p ∈ Function.update sets t ((sets t).erase ptr) u ↔
      p ∈ live.erase ptr ∧ owner p = some u := by
  rw [hnodup.mem_erase_iff]
  by_cases hu : u = t
  · subst hu
    rw [Function.update_self, Finset.mem_erase, h, and_assoc]
  · rw [Function.update_of_ne hu, h]
    constructor
    · rintro ⟨hp, hpu⟩
      refine ⟨⟨?_, hp⟩, hpu⟩
      rintro rfl
      exact hu (Option.some.inj (hpu.symm.trans hmine))
    · rintro ⟨⟨-, hp⟩, hpu⟩
      exact ⟨hp, hpu⟩

omit [DecidableEq κ] [DecidableEq π] in
private theorem live_update (vars : τ → ThreadVars) (t : τ) (v : ThreadVars) (u : τ) :
    (Function.update vars t v u).live =
      Function.update (fun u => (vars u).live) t v.live u :=
  Function.apply_update (fun _ v => v.live) vars t v u

/-! ## Calls -/

/-- `alloc` returns, and its result is added to the thread's set. -/
theorem Tracks.alloc (hb : b.debug = true) (h : Tracks F s) (t : τ) (k : κ) :
    ∃ r p', allocFrom b s.process t k (F.pool k) (F.batch k) = some (r, p') ∧
      Tracks F
        { s with
          process := p'
          live := granted r s.live
          owner := Function.update s.owner r (some t) } := by
  obtain ⟨block, g, l, hmemory⟩ := h.memory
  obtain ⟨w', hrun, hafter⟩ := hmemory.alloc k
  have hbound := hmemory.length_lt k
  refine ⟨_, _, allocFrom_notes (hmemory.bound k) (hmemory.cached k)
    (lt_addresses hbound) hbound hrun, ⟨block, _, _, hafter⟩, fun hown u p => ?_⟩
  have hnew : (granted ((refilled (F.batch k) (g (F.pool k)) (l k)).2.headD 0)
      s.live).Nodup := hafter.ledger.nodup .user
  have hzero : ∀ p ∈ s.live, p ≠ 0 := fun p hp =>
    (hmemory.address p ((hmemory.ledger.mem p).mpr ⟨.user, hp⟩)).1
  simp only [live_update, allocNotes_live hb, refillNotes_live]
  generalize (refilled (F.batch k) (g (F.pool k)) (l k)).2.headD 0 = r at hnew ⊢
  unfold granted at hnew ⊢
  by_cases hr : r = 0
  · -- no set and no live block has changed
    rw [if_pos hr, if_pos hr, hr, Function.update_eq_self, h.sets hown]
    refine and_congr_right fun hp => ?_
    rw [Function.update_of_ne (hzero p hp)]
  · rw [if_neg hr] at hnew
    rw [if_neg hr, if_neg hr]
    exact sets_insert (h.sets hown) t (List.nodup_cons.mp hnew).1 u p

/-- `dealloc` of a live block returns, and takes it out of the thread's set. -/
theorem Tracks.dealloc (hb : b.debug = true) (h : Tracks F s) (t : τ) (k : κ)
    (hlive : ptr ∈ s.live) (d : Free τ) (hd : d.live = true) (howner : d.owner = s.owner ptr)
    (hthread : d.thread = t) :
    ∃ p', (deallocTo b s.process t k (F.pool k) (F.batch k) ptr).2 = some p' ∧
      Tracks F
        { s with
          process := p'
          live := s.live.erase ptr
          frees := d :: s.frees } := by
  obtain ⟨block, g, l, hmemory⟩ := h.memory
  obtain ⟨w', hrun, hafter⟩ := hmemory.dealloc k hlive
  have huser : ptr ∈ cell g l s.live .user := hlive
  have hne : ptr ≠ 0 := (hmemory.address ptr (hmemory.ledger.mem_of huser)).1
  have hnodup : s.live.Nodup := hmemory.ledger.nodup .user
  have hbound := CacheWorld.length_succ_lt_of_live hmemory.ledger hmemory.address hlive k
  have hnotes := deallocTo_notes (b := b) (t := t) (hmemory.bound k) (hmemory.cached k) hne
    (CacheWorld.notMem_of_live hmemory.ledger hlive (F.pool k) k) hbound hrun
  refine ⟨_, congrArg Prod.snd hnotes, ⟨block, _, _, hafter⟩, fun hown u p => ?_⟩
  obtain ⟨hmine, hown⟩ := List.forall_mem_cons.mp hown
  have hmine : s.owner ptr = some t := by rw [← howner, hmine hd, hthread]
  simp only [live_update, flushNotes_live, debugOnDealloc_eq hb hne, allocStatInc_live]
  exact sets_erase (h.sets hown) hnodup hmine u p

/-- What is reported are the pointers outside the thread's set. -/
theorem reported_iff (hb : b.debug = true) (hne : ptr ≠ 0) :
    (noted s t ptr (deallocTo b s.process t k (F.pool k) (F.batch k) ptr).1).reported =
      true ↔ ptr ∉ (s.process.vars t).live := by
  rw [noted, decide_eq_true_eq, deallocTo_message hne, debugOnDealloc_eq hb hne,
    allocStatInc_live]
  by_cases hmem : ptr ∈ (s.process.vars t).live <;> simp [hmem]

/-- The report of one more `dealloc` is right just if the block is not another
thread's. -/
theorem Inv.exact_noted (hb : b.debug = true) (h : Inv F s) (htracks : Tracks F s)
    (hne : ptr ≠ 0) {d : Free τ}
    (hd : d = noted s t ptr (deallocTo b s.process t k (F.pool k) (F.batch k) ptr).1) :
    Exact (d :: s.frees) ↔ OwnFrees (d :: s.frees) := by
  subst hd
  rw [exact_cons, ownFrees_cons, h.exact]
  refine and_congr_left fun hown => ?_
  rw [reported_iff hb hne, htracks.sets hown t ptr]
  by_cases hlive : ptr ∈ s.live
  · simp [noted, hlive]
  · simp [noted, hlive]

theorem Inv.step (hb : b.debug = true) (h : Inv F s) {e : Event τ κ}
    (hstep : exec b F s e = some s') : Inv F s' := by
  unfold exec at hstep
  split at hstep
  · next hlegal =>
      have htracks := h.tracks hlegal
      cases e with
      | alloc t k =>
          obtain ⟨r, p', hrun, hafter⟩ := htracks.alloc hb t k
          rw [DoubleFree.step, hrun, Option.map_some, Option.some.injEq] at hstep
          exact hstep ▸ ⟨h.exact, fun _ => hafter⟩
      | dealloc t k ptr =>
          simp only [DoubleFree.step] at hstep
          split at hstep
          · next hnull =>
              subst hnull
              obtain ⟨block, g, l, hmemory⟩ := htracks.memory
              obtain ⟨w', hrun, hafter⟩ := hmemory.dealloc_null k
              rw [deallocTo_null hrun, Option.map_some, Option.some.injEq] at hstep
              exact hstep ▸ ⟨h.exact, fun _ => ⟨⟨block, g, l, hafter⟩, htracks.sets⟩⟩
          · next hne =>
              have hexact := h.exact_noted (F := F) (k := k) hb htracks hne
                (Eq.refl (noted s t ptr _))
              split at hstep
              · next hlive =>
                  obtain ⟨p', hrun, hafter⟩ := htracks.dealloc hb t k hlive
                    (noted s t ptr _) (decide_eq_true hlive) rfl rfl
                  rw [hrun, Option.map_some, Option.some.injEq] at hstep
                  exact hstep ▸ ⟨hexact, fun _ => hafter⟩
              · next hdead =>
                  cases hstep
                  refine ⟨hexact, fun hall => ?_⟩
                  have hlive := hall _ List.mem_cons_self
                  exact (hdead (of_decide_eq_true hlive)).elim
      | write ptr v =>
          simp only [DoubleFree.step] at hstep
          split at hstep
          · next hlive =>
              cases hstep
              obtain ⟨block, g, l, hmemory⟩ := htracks.memory
              exact ⟨h.exact, fun _ => ⟨⟨block, g, l, hmemory.userWrite v hlive⟩,
                htracks.sets⟩⟩
          · cases hstep
  · cases hstep

theorem inv_of_reachable (hb : b.debug = true) (h : Reachable (runs b F) s) :
    Inv F s := by
  refine h.invariant (P := Inv F) ?_ ?_
  · exact fun s hstart => Start.inv hstart
  · exact fun s e s' _ hinv hstep => hinv.step hb hstep

/-- Until the first erroneous `dealloc` every call returns. -/
theorem returns (hb : b.debug = true) (h : Reachable (runs b F) s)
    (hlegal : ∀ d ∈ s.frees, d.live = true) :
    (∀ t k, (exec b F s (.alloc t k)).isSome) ∧
      ∀ t k ptr, (exec b F s (.dealloc t k ptr)).isSome := by
  have htracks := (inv_of_reachable hb h).tracks hlegal
  constructor
  · intro t k
    obtain ⟨r, p', hrun, -⟩ := htracks.alloc hb t k
    rw [exec, if_pos hlegal, step, hrun, Option.map_some, Option.isSome_some]
  · intro t k ptr
    rw [exec, if_pos hlegal]
    simp only [step]
    split
    · next hnull =>
        obtain ⟨block, g, l, hmemory⟩ := htracks.memory
        obtain ⟨w', hrun, -⟩ := hmemory.dealloc_null k
        rw [hnull, deallocTo_null hrun, Option.map_some, Option.isSome_some]
    · split
      · next hlive =>
          obtain ⟨p', hrun, -⟩ := htracks.dealloc hb t k hlive (noted s t ptr none)
            (decide_eq_true hlive) rfl rfl
          rw [hrun, Option.map_some, Option.isSome_some]
      · rfl

end Runs

/-- In a run up to the first erroneous `dealloc`, the reports are right exactly if no
block was freed by a thread other than the one that allocated it. -/
theorem reports_exact_iff {τ κ π : Type} [DecidableEq τ] [DecidableEq κ] [DecidableEq π]
    (b : Build) (hb : b.debug = true) (F : Fleet κ π) (s : State τ κ π)
    (h : Reachable (runs b F) s) : Exact s.frees ↔ OwnFrees s.frees :=
  (inv_of_reachable hb h).exact

/-- Three blocks on one pool. -/
def pool3 : State Nat Nat Unit where
  process :=
    { world :=
        { next := fun block => if block < 192 then block + 64 else 0
          globals := fun _ => ⟨64, 0⟩
          caches := fun _ => none
          exited := fun _ => none }
      vars := fun _ => .initial }
  live := []
  owner _ := none
  frees := []

theorem pool3_start : Start pool3 where
  caches := rfl
  vars := rfl
  live := rfl
  frees := rfl
  lists := by
    have hchain : Chain 0 (fun block => if block < 192 then block + 64 else 0) 64
        [64, 128, 192] := by decide
    have haddress : ∀ b ∈ [64, 128, 192], b < 2 ^ 64 := by decide
    exact ⟨fun _ => [64, 128, 192], fun _ => hchain, fun _ _ _ _ _ => rfl,
      fun _ => haddress⟩

/-- The caches of all threads draw on the pool, in batches of 2. -/
def fleet2 : Fleet Nat Unit where
  pool _ := ()
  batch _ := 2

/-- Thread 0 allocates a block and frees it twice: the second time is reported. -/
theorem reports_exact_own : ∃ s,
    replay (exec ⟨false, true⟩ fleet2) pool3
      [.alloc 0 0, .dealloc 0 0 64, .dealloc 0 0 64] = some s ∧
    (Exact s.frees ↔ OwnFrees s.frees) ∧
    s.frees = [⟨0, 64, true, false, some 0⟩, ⟨0, 64, false, true, some 0⟩] :=
  ⟨_, rfl, reports_exact_iff ⟨false, true⟩ rfl fleet2 _
    (Reachable.replay [.alloc 0 0, .dealloc 0 0 64, .dealloc 0 0 64] (.init pool3_start)
      rfl), rfl⟩

/-- Thread 1 frees a block of thread 0, which is reported; thread 0 frees it again, which
is not. -/
theorem free_elsewhere : ∃ s, Reachable (runs ⟨false, true⟩ fleet2) s ∧
    s.frees = [⟨0, 64, false, false, some 0⟩, ⟨1, 64, true, true, some 0⟩] ∧
    ¬ Exact s.frees := by
  refine ⟨_, Reachable.replay [.alloc 0 0, .dealloc 1 1 64, .dealloc 0 0 64]
    (.init pool3_start) rfl, rfl, fun h => ?_⟩
  have hmissed := h _ List.mem_cons_self
  exact absurd (hmissed.mpr rfl) (by decide)

end PoolMemalloc.Ports.DoubleFree
