import PoolMemalloc.Verified.Conservation
import PoolMemalloc.Verified.Transition

/-!
# Programs on top of a service that lends blocks

A `Service` lends blocks to threads: a thread asks for one and gets a block or null, and
later gives it back.  Calls take many steps, and those of different threads interleave.
Of all that the users see only who is in which call and the blocks they have, a `View`;
`Tells` says what each kind of notice changes in it.

A `Program` is what the threads do between their calls.  It never sees the state of the
service, so what is proved of it with `Custody`, that it keeps account of every block it
has, holds with any service (`Custody.kept`): a block is never given back twice, and none
is lost.
-/

namespace PoolMemalloc.Verified.BlockService

open PoolMemalloc.Verified.Transition
open PoolMemalloc.Verified.Conservation

/-- Where a thread is with its calls. -/
inductive Phase
  | outside
  | allocating
  | freeing
  deriving Repr, DecidableEq

/-- What the users notice. -/
inductive Notice
  | callAlloc (thread : Nat)
  /-- The call returns a block, or null. -/
  | gotBlock (thread block : Nat)
  | callDealloc (thread block : Nat)
  | freed (thread : Nat)
  deriving Repr, DecidableEq

def Notice.thread : Notice → Nat
  | .callAlloc t => t
  | .gotBlock t _ => t
  | .callDealloc t _ => t
  | .freed t => t

/-- What the users know of a service; `live` are the blocks they have. -/
structure View where
  phase : Nat → Phase
  live : List Nat

def View.enter (v : View) (t : Nat) (phase : Phase) : View :=
  { v with phase := Function.update v.phase t phase }

/-- A block is lent only to one user at a time. -/
inductive Tells (v : View) : Notice → View → Prop
  | callAlloc {t : Nat} (hphase : v.phase t = .outside) :
      Tells v (.callAlloc t) (v.enter t .allocating)
  | refused {t : Nat} (hphase : v.phase t = .allocating) :
      Tells v (.gotBlock t 0) (v.enter t .outside)
  | granted {t block : Nat} (hphase : v.phase t = .allocating) (hne : block ≠ 0)
      (hnew : block ∉ v.live) :
      Tells v (.gotBlock t block) { v.enter t .outside with live := block :: v.live }
  | callDealloc {t block : Nat} (hphase : v.phase t = .outside) (hmem : block ∈ v.live) :
      Tells v (.callDealloc t block)
        { v.enter t .freeing with live := v.live.erase block }
  | freed {t : Nat} (hphase : v.phase t = .freeing) :
      Tells v (.freed t) (v.enter t .outside)

/-- A step the users do not notice changes nothing for them. -/
def Told (v : View) : Option Notice → View → Prop
  | none, v' => v' = v
  | some n, v' => Tells v n v'

/-- Before the first call. -/
def View.blank : View where
  phase _ := .outside
  live := []

structure Service where
  State : Type
  Event : Type
  init : State
  exec : State → Event → Option State
  view : State → View
  notice : State → Event → State → Option Notice
  Inv : State → Prop
  start : Inv init ∧ view init = View.blank
  step : ∀ s e s', Inv s → exec s e = some s' →
    Inv s' ∧ Told (view s) (notice s e s') (view s')
  /-- A thread outside can always call `alloc`. -/
  asks : ∀ s t, Inv s → (view s).phase t = .outside →
    ∃ e s', exec s e = some s' ∧ notice s e s' = some (.callAlloc t)
  /-- It can always give back a block the users have. -/
  takes : ∀ s t block, Inv s → (view s).phase t = .outside → block ∈ (view s).live →
    ∃ e s', exec s e = some s' ∧ notice s e s' = some (.callDealloc t block)

/-- `own` are the threads' steps between calls; `hears` is `none` where a thread does not
make that call, or does not wait for that result. -/
structure Program where
  State : Type
  Act : Type
  init : State
  own : State → Act → Option State
  hears : State → Notice → Option State

/-- One step of a program and the service it runs on. -/
def stepBoth (P : Program) (S : Service) (s : P.State × S.State) :
    P.Act ⊕ S.Event → Option (P.State × S.State)
  | .inl act => (P.own s.1 act).map fun k => (k, s.2)
  | .inr e =>
      (S.exec s.2 e).bind fun s' =>
        match S.notice s.2 e s' with
        | none => some (s.1, s')
        | some n => (P.hears s.1 n).map fun k => (k, s')

/-- All runs of a program on a service. -/
def together (P : Program) (S : Service) : System (P.State × S.State) (P.Act ⊕ S.Event) :=
  ofExec (fun s => s = (P.init, S.init)) (stepBoth P S)

/-- A program that knows where its blocks are: `cell` says what each holder has, and
`fits` that its threads are where they think they are. -/
structure Custody (P : Program) where
  Holder : Type
  cell : P.State → Holder → List Nat
  fits : P.State → (Nat → Phase) → Prop
  start : fits P.init View.blank.phase ∧ ∀ i, cell P.init i = []
  own : ∀ k act k' phase, fits k phase → P.own k act = some k' →
    fits k' phase ∧ ∀ Q, Ledger Q (cell k) → Ledger Q (cell k')
  hears : ∀ k n k' v v', fits k v.phase → v.live.Nodup → Ledger (· ∈ v.live) (cell k) →
    Tells v n v' → P.hears k n = some k' →
      fits k' v'.phase ∧ Ledger (· ∈ v'.live) (cell k')

section Views

variable {v v' : View} {n : Notice} {t : Nat} {phase : Phase}

@[simp] theorem View.enter_phase (v : View) (t : Nat) (phase : Phase) :
    (v.enter t phase).phase = Function.update v.phase t phase := rfl

@[simp] theorem View.enter_live (v : View) (t : Nat) (phase : Phase) :
    (v.enter t phase).live = v.live := rfl

theorem Tells.nodup (h : Tells v n v') (hv : v.live.Nodup) : v'.live.Nodup := by
  cases h with
  | callAlloc _ => exact hv
  | refused _ => exact hv
  | granted _ _ hnew => exact List.nodup_cons.mpr ⟨hnew, hv⟩
  | callDealloc _ _ => exact hv.erase _
  | freed _ => exact hv

end Views

section Together

variable {P : Program} {S : Service} {s s' : P.State × S.State}

/-- Between any two steps. -/
structure Custody.Kept (C : Custody P) (S : Service) (s : P.State × S.State) : Prop where
  inv : S.Inv s.2
  nodup : (S.view s.2).live.Nodup
  fits : C.fits s.1 (S.view s.2).phase
  /-- What the holders have is what the service has lent. -/
  held : Ledger (· ∈ (S.view s.2).live) (C.cell s.1)

theorem Custody.kept_start (C : Custody P) : C.Kept S (P.init, S.init) := by
  obtain ⟨hinv, hview⟩ := S.start
  obtain ⟨hfits, hcell⟩ := C.start
  constructor
  · exact hinv
  · rw [hview]
    exact List.nodup_nil
  · rw [hview]
    exact hfits
  · rw [hview]
    exact
      { nodup := fun i => hcell i ▸ List.nodup_nil
        only := fun i j b hi _ => by
          rw [hcell i] at hi
          cases hi
        mem := fun b => by
          constructor
          · intro hb
            cases hb
          · intro hb
            obtain ⟨i, hi⟩ := hb
            rw [hcell i] at hi
            cases hi }

theorem Custody.Kept.step {C : Custody P} (h : C.Kept S s) {e : P.Act ⊕ S.Event}
    (hstep : stepBoth P S s e = some s') : C.Kept S s' := by
  cases e with
  | inl act =>
      obtain ⟨k, hown, rfl⟩ := Option.map_eq_some_iff.mp hstep
      obtain ⟨hfits, hheld⟩ := C.own _ _ _ _ h.fits hown
      exact ⟨h.inv, h.nodup, hfits, hheld _ h.held⟩
  | inr e =>
      obtain ⟨d, hexec, hheard⟩ := Option.bind_eq_some_iff.mp hstep
      obtain ⟨hinv, htold⟩ := S.step _ _ _ h.inv hexec
      cases hnotice : S.notice s.2 e d with
      | none =>
          rw [hnotice] at hheard htold
          cases hheard
          have hview : S.view d = S.view s.2 := htold
          constructor
          · exact hinv
          · rw [hview]
            exact h.nodup
          · rw [hview]
            exact h.fits
          · rw [hview]
            exact h.held
      | some n =>
          rw [hnotice] at hheard htold
          have htells : Tells (S.view s.2) n (S.view d) := htold
          obtain ⟨k, hhears, rfl⟩ := Option.map_eq_some_iff.mp hheard
          obtain ⟨hfits, hheld⟩ := C.hears _ _ _ _ _ h.fits h.nodup h.held htells hhears
          exact ⟨hinv, htells.nodup h.nodup, hfits, hheld⟩

/-- A program that keeps account of its blocks does so on any service. -/
theorem Custody.kept (C : Custody P) (h : Reachable (together P S) s) : C.Kept S s := by
  refine h.invariant (P := C.Kept S) ?_ ?_
  · intro s hs
    rw [hs]
    exact C.kept_start
  · intro s e s' _ hkept hstep
    exact hkept.step hstep

/-- A call the program makes, the service takes. -/
theorem stepBoth_notice {e : S.Event} {d : S.State} {n : Notice} {k : P.State}
    (hexec : S.exec s.2 e = some d) (hnotice : S.notice s.2 e d = some n)
    (hhears : P.hears s.1 n = some k) : stepBoth P S s (.inr e) = some (k, d) := by
  simp only [stepBoth, hexec, Option.bind_some, hnotice, hhears, Option.map_some]

end Together

end PoolMemalloc.Verified.BlockService
