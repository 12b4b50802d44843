import Mathlib.Logic.Function.Basic
import PoolMemalloc.Verified.Transition

/-!
# Linearizability

An `Object` is specified by its whole calls, one after the other.  Threads that share it
see only a history, the calls they make and the results they get.  `atomic` is the object
as threads may share it: a call takes effect in one step, at some moment between its
invocation and its return, and nothing takes effect but by a call.

* `Linearized` — the atomic object has this history.
* `object_of_reachable` — shared or not, the object goes through whole calls only.
* `linearizes` — an implementation each of whose steps is answered by marks of the atomic
  object has only histories of the atomic object.

Logs and histories have the newest entry first.
-/

namespace PoolMemalloc.Verified.Linearization

open PoolMemalloc.Verified.Transition

universe u v w x y

/-- A sequential object: `step c t o r c'` is a whole call `o` of thread `t` with result
`r`. -/
structure Object (σ : Type u) (τ : Type v) (ο : Type w) (ρ : Type x) where
  init : σ → Prop
  step : σ → τ → ο → ρ → σ → Prop

inductive Mark (τ : Type v) (ο : Type w) (ρ : Type x)
  | call (t : τ) (o : ο)
  /-- The moment at which the call of thread `t` takes effect. -/
  | effect (t : τ) (o : ο) (r : ρ)
  | ret (t : τ) (r : ρ)
  deriving Repr, DecidableEq

/-- Where a thread is with its call. -/
inductive Stage (ο : Type w) (ρ : Type x)
  | idle
  | called (o : ο)
  | done (o : ο) (r : ρ)
  deriving Repr, DecidableEq

/-- The object, its users and what has happened. -/
structure Shared (σ : Type u) (τ : Type v) (ο : Type w) (ρ : Type x) where
  object : σ
  stage : τ → Stage ο ρ
  log : List (Mark τ ο ρ)

section Marks

variable {τ : Type v} {ο : Type w} {ρ : Type x}

def Mark.thread : Mark τ ο ρ → τ
  | .call t _ => t
  | .effect t _ _ => t
  | .ret t _ => t

/-- What the users see of a log: calls and returns. -/
def history : List (Mark τ ο ρ) → List (Mark τ ο ρ)
  | [] => []
  | .effect _ _ _ :: log => history log
  | mark :: log => mark :: history log

theorem history_append (marks log : List (Mark τ ο ρ)) :
    history (marks ++ log) = history marks ++ history log := by
  induction marks with
  | nil => rfl
  | cons mark rest ih => cases mark <;> simp [history, ih]

end Marks

section Sharing

variable {σ : Type u} {τ : Type v} {ο : Type w} {ρ : Type x}

variable [DecidableEq τ]

/-- One step of the shared object. -/
inductive Moves (A : Object σ τ ο ρ) : Shared σ τ ο ρ → Mark τ ο ρ → Shared σ τ ο ρ → Prop
  | call {c : Shared σ τ ο ρ} {t : τ} {o : ο} (hidle : c.stage t = .idle) :
      Moves A c (.call t o)
        { c with stage := Function.update c.stage t (.called o), log := .call t o :: c.log }
  | effect {c : Shared σ τ ο ρ} {t : τ} {o : ο} {r : ρ} {object : σ}
      (hcalled : c.stage t = .called o) (hstep : A.step c.object t o r object) :
      Moves A c (.effect t o r)
        { object := object
          stage := Function.update c.stage t (.done o r)
          log := .effect t o r :: c.log }
  | ret {c : Shared σ τ ο ρ} {t : τ} {o : ο} {r : ρ} (hdone : c.stage t = .done o r) :
      Moves A c (.ret t r)
        { c with stage := Function.update c.stage t .idle, log := .ret t r :: c.log }

def atomic (A : Object σ τ ο ρ) : System (Shared σ τ ο ρ) (Mark τ ο ρ) where
  init c := A.init c.object ∧ (∀ t, c.stage t = .idle) ∧ c.log = []
  step := Moves A

/-- Some steps of the shared object, with their marks. -/
inductive Runs (A : Object σ τ ο ρ) :
    Shared σ τ ο ρ → List (Mark τ ο ρ) → Shared σ τ ο ρ → Prop
  | nil (c : Shared σ τ ο ρ) : Runs A c [] c
  | cons {c c' c'' : Shared σ τ ο ρ} {marks : List (Mark τ ο ρ)} {mark : Mark τ ο ρ}
      (h : Runs A c marks c') (hmove : Moves A c' mark c'') : Runs A c (mark :: marks) c''

variable {A : Object σ τ ο ρ} {c c' : Shared σ τ ο ρ} {mark : Mark τ ο ρ}
variable {marks : List (Mark τ ο ρ)}

theorem Moves.log (h : Moves A c mark c') : c'.log = mark :: c.log := by
  cases h <;> rfl

theorem Runs.log (h : Runs A c marks c') : c'.log = marks ++ c.log := by
  induction h with
  | nil => rfl
  | cons _ hmove ih => rw [hmove.log, ih, List.cons_append]

theorem Runs.reachable (h : Runs A c marks c') (hc : Reachable (atomic A) c) :
    Reachable (atomic A) c' := by
  induction h with
  | nil => exact hc
  | cons _ hmove ih => exact .step ih hmove

/-- The shared object goes through whole calls only. -/
theorem object_of_reachable {ε : Type y} {S : System σ ε} {event : τ → ο → ε}
    (hinit : ∀ c, A.init c → S.init c)
    (hstep : ∀ c t o r c', A.step c t o r c' → S.step c (event t o) c')
    (h : Reachable (atomic A) c) : Reachable S c.object := by
  refine h.invariant (P := fun c => Reachable S c.object) ?_ ?_
  · intro c hc
    exact .init (hinit c.object hc.1)
  · intro c mark c' _ hobject hmove
    cases hmove with
    | call _ => exact hobject
    | effect _ hcall => exact hobject.step (hstep _ _ _ _ _ hcall)
    | ret _ => exact hobject

/-- The history `past` is one of the atomic object, which it leaves as `c`: every call in
it takes effect once, between its invocation and its return, and with the result it
returns. -/
structure Linearized (A : Object σ τ ο ρ) (past : List (Mark τ ο ρ))
    (c : Shared σ τ ο ρ) : Prop where
  reach : Reachable (atomic A) c
  visible : history c.log = past

/-! ## Implementations -/

/-- If every step of an implementation is answered by steps of the shared object that look
the same to the users, so is every run. -/
theorem linearizes {κ : Type y} {ε : Type*} {init : κ → Prop} {exec : κ → ε → Option κ}
    {note : κ → ε → κ → List (Mark τ ο ρ)} (R : κ → Shared σ τ ο ρ → Prop)
    (hinit : ∀ s, init s → ∃ c, (atomic A).init c ∧ R s c)
    (hstep : ∀ s c e s', R s c → exec s e = some s' →
      ∃ marks c', Runs A c marks c' ∧ history marks = note s e s' ∧ R s' c')
    {s : κ × List (Mark τ ο ρ)}
    (h : Reachable (recorded init exec [] fun s e s' past => note s e s' ++ past) s) :
    ∃ c, Linearized A s.2 c ∧ R s.1 c := by
  refine h.invariant (P := fun s => ∃ c, Linearized A s.2 c ∧ R s.1 c) ?_ ?_
  · rintro s ⟨hs, hblank⟩
    obtain ⟨c, hc, hrel⟩ := hinit s.1 hs
    refine ⟨c, ⟨.init hc, ?_⟩, hrel⟩
    rw [hc.2.2, hblank, history]
  · rintro s e s' - ⟨c, hlinear, hrel⟩ hexec
    obtain ⟨hexec, hpast⟩ := record_eq hexec
    obtain ⟨marks, c', hruns, hmarks, hrel'⟩ := hstep s.1 c e s'.1 hrel hexec
    refine ⟨c', ⟨hruns.reachable hlinear.reach, ?_⟩, hrel'⟩
    rw [hruns.log, history_append, hmarks, hlinear.visible, hpast]

end Sharing

end PoolMemalloc.Verified.Linearization
