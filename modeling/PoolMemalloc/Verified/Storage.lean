import Mathlib.Data.List.Pairwise
import PoolMemalloc.Verified.Conservation
import PoolMemalloc.Verified.Transition

/-!
# Programs that request and release storage

A `Prog` asks a source of storage for pieces, which may be refused, gives pieces back,
and ends with a result or by throwing.  `Keeps` is its weakest precondition for the
pieces it is accountable for, and says nothing of all others, so that it composes:

* `Keeps.bind`, `Keeps.frame`, `Keeps.onThrow` — one program after another, next to
  pieces it does not touch, and with a handler.
* `Keeps.each`, `Keeps.eachOf` — loops that acquire and loops that release.

A `Lifecycle` is a class of objects with a constructor and a destructor.  `runs` are any
number of objects of it, their constructors and destructors interleaved at each request
and release.  From the two programs' own preconditions alone, `accounted_of_reachable`
accounts for every piece, and `advance_ne_none` says that no release is of a piece that
is not there.
-/

namespace PoolMemalloc.Verified.Storage

open PoolMemalloc.Verified.Transition
open PoolMemalloc.Verified.Conservation

/-- The bytes from `address` on, as granted by `source`. -/
structure Piece (κ : Type) where
  source : κ
  address : Nat
  bytes : Nat
  deriving Repr, DecidableEq

/-- No byte and no address in common. -/
def Apart {κ : Type} (a b : Piece κ) : Prop :=
  a.address ≠ b.address ∧
    (a.address + a.bytes ≤ b.address ∨ b.address + b.bytes ≤ a.address)

instance {κ : Type} (a b : Piece κ) : Decidable (Apart a b) :=
  inferInstanceAs (Decidable (_ ∧ (_ ∨ _)))

/-- What a release names: some sources want to be told the size, others know it. -/
def Piece.IsAt {κ : Type} (a : Piece κ) (source : κ) (address : Nat)
    (bytes : Option Nat) : Prop :=
  a.source = source ∧ a.address = address ∧ ∀ n ∈ bytes, a.bytes = n

instance {κ : Type} [DecidableEq κ] (a : Piece κ) (source : κ) (address : Nat)
    (bytes : Option Nat) : Decidable (a.IsAt source address bytes) :=
  inferInstanceAs (Decidable (_ ∧ _ ∧ ∀ n ∈ bytes, a.bytes = n))

instance {κ : Type} : Std.Symm (@Apart κ) where
  symm _ _ h := ⟨Ne.symm h.1, h.2.symm⟩

/-- How a program ends; of undefined behaviour nothing more is said. -/
inductive End (α : Type)
  | returned (a : α)
  | threw
  | undefined

/-- Throwing again after a handler that ended like this. -/
def End.rethrown {α : Type} : End Unit → End α
  | .undefined => .undefined
  | _ => .threw

/-- `next 0` is what follows when the request is refused. -/
inductive Prog (κ α : Type)
  | done (a : α)
  | throw
  | undefined
  | request (source : κ) (bytes : Nat) (next : Nat → Prog κ α)
  | release (source : κ) (address : Nat) (bytes : Option Nat) (next : Prog κ α)

namespace Prog

variable {κ α β ι : Type}

def bind : Prog κ α → (α → Prog κ β) → Prog κ β
  | .done a, f => f a
  | .throw, _ => .throw
  | .undefined, _ => .undefined
  | .request source bytes next, f => .request source bytes fun p => (next p).bind f
  | .release source address bytes next, f => .release source address bytes (next.bind f)

instance : Monad (Prog κ) where
  pure := .done
  bind := .bind

def map (f : α → β) (prog : Prog κ α) : Prog κ β := prog.bind fun a => .done (f a)

/-- The handler runs when the program throws, which it then still does. -/
def onThrow : Prog κ α → Prog κ Unit → Prog κ α
  | .done a, _ => .done a
  | .throw, cleanup => cleanup.bind fun _ => .throw
  | .undefined, _ => .undefined
  | .request source bytes next, cleanup =>
      .request source bytes fun p => (next p).onThrow cleanup
  | .release source address bytes next, cleanup =>
      .release source address bytes (next.onThrow cleanup)

/-- One round after another, with the results in order. -/
def each (body : ι → Prog κ β) : List ι → Prog κ (List β)
  | [] => .done []
  | i :: rest => (body i).bind fun b => (each body rest).bind fun bs => .done (b :: bs)

/-- One round after another, for what they do. -/
def eachOf (body : ι → Prog κ Unit) : List ι → Prog κ Unit
  | [] => .done ()
  | i :: rest => (body i).bind fun _ => eachOf body rest

/-- The next request, with its answer, or the next release; `held` are the pieces of
`outstanding` that the program has. -/
def advance [DecidableEq κ] (answer : Nat) (outstanding held : List (Piece κ)) :
    Prog κ α → Option (Prog κ α × List (Piece κ) × List (Piece κ))
  | .request source bytes next =>
      let a : Piece κ := ⟨source, answer, bytes⟩
      if answer = 0 then some (next 0, outstanding, held)
      else if ∀ b ∈ outstanding, Apart a b then
        some (next answer, a :: outstanding, a :: held)
      else none
  | .release source address bytes next =>
      (outstanding.find? fun a => a.IsAt source address bytes).map fun a =>
        (next, outstanding.erase a, held.erase a)
  | _ => none

/-- Accountable for `held`, the program releases only what it is accountable for, and in
the end `Q` holds of its result and what it is accountable for then. -/
def Keeps : Prog κ α → List (Piece κ) → (End α → List (Piece κ) → Prop) → Prop
  | .done a, held, Q => ∃ l, held.Perm l ∧ Q (.returned a) l
  | .throw, held, Q => ∃ l, held.Perm l ∧ Q .threw l
  | .undefined, held, Q => ∃ l, held.Perm l ∧ Q .undefined l
  | .request source bytes next, held, Q =>
      (next 0).Keeps held Q ∧
        ∀ p, p ≠ 0 → (next p).Keeps (⟨source, p, bytes⟩ :: held) Q
  | .release source address bytes next, held, Q =>
      ∃ a rest, held.Perm (a :: rest) ∧ a.IsAt source address bytes ∧ next.Keeps rest Q

/-- The postcondition of a program that makes something: it is as `made` says and has the
pieces `own`, or if the program throws, what it leaves is as `left` says. -/
def Makes (made : α → Prop) (own : α → List (Piece κ)) (left : List (Piece κ) → Prop)
    (risky : Prop) : End α → List (Piece κ) → Prop
  | .returned a, l => made a ∧ l = own a
  | .threw, l => left l
  | .undefined, _ => risky

/-- The postcondition of what returns and is left with nothing. -/
def Gone (r : End Unit) (l : List (Piece κ)) : Prop := r = .returned () ∧ l = []

/-- What a loop leaves when a round throws: what the rounds before have made, and what
that round leaves. -/
def Earlier (made : ι → β → Prop) (own : β → List (Piece κ)) (left : List (Piece κ) → Prop)
    (is : List ι) (l : List (Piece κ)) : Prop :=
  ∃ bs rest, bs.length < is.length ∧ List.Forall₂ made (is.take bs.length) bs ∧
    left rest ∧ l = bs.flatMap own ++ rest

/-- The postcondition of a program that `f` follows. -/
def Then (f : α → Prog κ β) (Q : End β → List (Piece κ) → Prop) :
    End α → List (Piece κ) → Prop
  | .returned a, l => (f a).Keeps l Q
  | .threw, l => Q .threw l
  | .undefined, l => Q .undefined l

/-- The postcondition of a program that `cleanup` guards. -/
def Guarded (cleanup : Prog κ Unit) (Q : End α → List (Piece κ) → Prop) :
    End α → List (Piece κ) → Prop
  | .returned a, l => Q (.returned a) l
  | .threw, l => cleanup.Keeps l fun r l' => Q r.rethrown l'
  | .undefined, l => Q .undefined l

section Rules

variable {prog : Prog κ α} {held l : List (Piece κ)}
variable {Q R : End α → List (Piece κ) → Prop} {P : End β → List (Piece κ) → Prop}

/-- The order of the pieces does not matter. -/
theorem Keeps.perm (h : prog.Keeps held Q) (hperm : held.Perm l) : prog.Keeps l Q := by
  induction prog generalizing held l with
  | done a =>
      obtain ⟨m, hm, hQ⟩ := h
      exact ⟨m, hperm.symm.trans hm, hQ⟩
  | throw =>
      obtain ⟨m, hm, hQ⟩ := h
      exact ⟨m, hperm.symm.trans hm, hQ⟩
  | undefined =>
      obtain ⟨m, hm, hQ⟩ := h
      exact ⟨m, hperm.symm.trans hm, hQ⟩
  | request source bytes next ih =>
      constructor
      · exact ih 0 h.1 hperm
      · intro p hp
        exact ih p (h.2 p hp) (hperm.cons _)
  | release source address bytes next ih =>
      obtain ⟨a, rest, ha, hat, hnext⟩ := h
      exact ⟨a, rest, hperm.symm.trans ha, hat, hnext⟩

/-- The rule of consequence. -/
theorem Keeps.mono (h : prog.Keeps held Q) (hQ : ∀ r l, Q r l → R r l) :
    prog.Keeps held R := by
  induction prog generalizing held with
  | done a =>
      obtain ⟨l, hl, hq⟩ := h
      exact ⟨l, hl, hQ _ _ hq⟩
  | throw =>
      obtain ⟨l, hl, hq⟩ := h
      exact ⟨l, hl, hQ _ _ hq⟩
  | undefined =>
      obtain ⟨l, hl, hq⟩ := h
      exact ⟨l, hl, hQ _ _ hq⟩
  | request source bytes next ih =>
      constructor
      · exact ih 0 h.1
      · intro p hp
        exact ih p (h.2 p hp)
  | release source address bytes next ih =>
      obtain ⟨a, rest, ha, hat, hnext⟩ := h
      exact ⟨a, rest, ha, hat, ih hnext⟩

/-- Pieces a program is not accountable for stay as they are. -/
theorem Keeps.frame (h : prog.Keeps held Q) (others : List (Piece κ)) :
    prog.Keeps (others ++ held) fun r l => ∃ l', Q r l' ∧ l = others ++ l' := by
  induction prog generalizing held with
  | done a =>
      obtain ⟨l, hl, hq⟩ := h
      exact ⟨others ++ l, hl.append_left others, l, hq, rfl⟩
  | throw =>
      obtain ⟨l, hl, hq⟩ := h
      exact ⟨others ++ l, hl.append_left others, l, hq, rfl⟩
  | undefined =>
      obtain ⟨l, hl, hq⟩ := h
      exact ⟨others ++ l, hl.append_left others, l, hq, rfl⟩
  | request source bytes next ih =>
      constructor
      · exact ih 0 h.1
      · intro p hp
        exact Keeps.perm (ih p (h.2 p hp)) List.perm_middle
  | release source address bytes next ih =>
      obtain ⟨a, rest, ha, hat, hnext⟩ := h
      refine ⟨a, others ++ rest, ?_, hat, ih hnext⟩
      exact (ha.append_left others).trans List.perm_middle

theorem Keeps.bind {f : α → Prog κ β} (h : prog.Keeps held (Then f P)) :
    (prog.bind f).Keeps held P := by
  induction prog generalizing held with
  | done a =>
      obtain ⟨l, hl, hf⟩ := h
      exact Keeps.perm hf hl.symm
  | throw => exact h
  | undefined => exact h
  | request source bytes next ih =>
      constructor
      · exact ih 0 h.1
      · intro p hp
        exact ih p (h.2 p hp)
  | release source address bytes next ih =>
      obtain ⟨a, rest, ha, hat, hnext⟩ := h
      exact ⟨a, rest, ha, hat, ih hnext⟩

theorem Makes.risk {made : α → Prop} {own : α → List (Piece κ)} {left : List (Piece κ) → Prop}
    {risky risky' : Prop} {r : End α} (h : Makes made own left risky r l)
    (hrisky : risky → risky') : Makes made own left risky' r l := by
  cases r with
  | returned a => exact h
  | threw => exact h
  | undefined => exact hrisky h

theorem Keeps.map {f : α → β} {made : α → Prop} {own : α → List (Piece κ)}
    {left : List (Piece κ) → Prop} {risky : Prop} {made' : β → Prop}
    {own' : β → List (Piece κ)} (h : prog.Keeps held (Makes made own left risky))
    (hmade : ∀ a, made a → made' (f a)) (hown : ∀ a, own a = own' (f a)) :
    (prog.map f).Keeps held (Makes made' own' left risky) := by
  apply Keeps.bind
  apply h.mono
  intro r l hl
  cases r with
  | returned a => exact ⟨l, List.Perm.refl l, hmade a hl.1, hl.2.trans (hown a)⟩
  | threw => exact hl
  | undefined => exact hl

theorem Keeps.onThrow {cleanup : Prog κ Unit} (h : prog.Keeps held (Guarded cleanup Q)) :
    (prog.onThrow cleanup).Keeps held Q := by
  induction prog generalizing held with
  | done a => exact h
  | throw =>
      obtain ⟨l, hl, hclean⟩ := h
      apply Keeps.bind
      refine Keeps.mono (Keeps.perm hclean hl.symm) ?_
      intro r l' hQ
      cases r with
      | returned _ => exact ⟨l', List.Perm.refl l', hQ⟩
      | threw => exact hQ
      | undefined => exact hQ
  | undefined => exact h
  | request source bytes next ih =>
      constructor
      · exact ih 0 h.1
      · intro p hp
        exact ih p (h.2 p hp)
  | release source address bytes next ih =>
      obtain ⟨a, rest, ha, hat, hnext⟩ := h
      exact ⟨a, rest, ha, hat, ih hnext⟩

/-- A loop that acquires. -/
theorem Keeps.each {body : ι → Prog κ β} {made : ι → β → Prop} {own : β → List (Piece κ)}
    {left : List (Piece κ) → Prop} {risky : Prop} (is : List ι)
    (hbody : ∀ i ∈ is, (body i).Keeps [] (Makes (made i) own left risky)) :
    (Prog.each body is).Keeps []
      (Makes (List.Forall₂ made is) (fun bs => bs.flatMap own) (Earlier made own left is)
        risky) := by
  induction is with
  | nil => exact ⟨[], List.Perm.nil, List.Forall₂.nil, rfl⟩
  | cons i rest ih =>
      have hrest := ih fun j hj => hbody j (List.mem_cons_of_mem i hj)
      apply Keeps.bind
      apply (hbody i List.mem_cons_self).mono
      intro r l hr
      cases r with
      | threw => exact ⟨[], l, Nat.succ_pos _, List.Forall₂.nil, hr, rfl⟩
      | undefined => exact hr
      | returned b =>
          obtain ⟨hb, rfl⟩ := hr
          apply Keeps.bind
          -- the pieces of this round are a frame for the others
          have hframe := hrest.frame (own b)
          rw [List.append_nil] at hframe
          apply hframe.mono
          intro r l hl
          obtain ⟨l', hl', rfl⟩ := hl
          cases r with
          | returned bs =>
              obtain ⟨hbs, rfl⟩ := hl'
              exact ⟨_, List.Perm.refl _, List.Forall₂.cons hb hbs, rfl⟩
          | threw =>
              obtain ⟨bs, more, hlen, hbs, hmore, rfl⟩ := hl'
              refine ⟨b :: bs, more, Nat.succ_lt_succ hlen, ?_, hmore, ?_⟩
              · exact List.Forall₂.cons hb hbs
              · rw [List.flatMap_cons, List.append_assoc]
          | undefined => exact hl'

/-- A loop that releases: each round what it is accountable for. -/
theorem Keeps.eachOf {body : ι → Prog κ Unit} {own : ι → List (Piece κ)} (is : List ι)
    (hbody : ∀ i ∈ is, (body i).Keeps (own i) Gone) :
    (Prog.eachOf body is).Keeps (is.flatMap own) Gone := by
  induction is with
  | nil => exact ⟨[], List.Perm.nil, rfl, rfl⟩
  | cons i rest ih =>
      have hrest := ih fun j hj => hbody j (List.mem_cons_of_mem i hj)
      apply Keeps.bind
      have hframe := (hbody i List.mem_cons_self).frame (rest.flatMap own)
      refine (hframe.perm List.perm_append_comm).mono ?_
      intro r l hl
      obtain ⟨l', ⟨rfl, rfl⟩, rfl⟩ := hl
      rw [List.append_nil]
      exact hrest

end Rules

end Prog

/-! ## Objects -/

open Prog (Makes Gone)

/-- `footprint` are the pieces that belong to an object, `made` what is known of one, and
`leaves` what may be left where the constructor throws; only where `risky` says so may a
constructor run into undefined behaviour. -/
structure Lifecycle (κ A Ω : Type) where
  construct : A → Prog κ Ω
  destruct : Ω → Prog κ Unit
  made : A → Ω → Prop
  footprint : Ω → List (Piece κ)
  leaves : A → List (Piece κ) → Prop
  risky : A → Prop
  constructs : ∀ args,
    (construct args).Keeps [] (Makes (made args) footprint (leaves args) (risky args))
  destructs : ∀ o, (destruct o).Keeps (footprint o) Gone

inductive Phase (κ A Ω : Type)
  | absent
  | constructing (args : A) (prog : Prog κ Ω)
  | alive (args : A) (o : Ω)
  | threw (args : A)
  | destructing (prog : Prog κ Unit)

/-- `held i` are the pieces granted for object `i` and not released for it; no step reads
them. -/
structure State (κ A Ω ι : Type) where
  outstanding : List (Piece κ)
  phase : ι → Phase κ A Ω
  held : ι → List (Piece κ)

inductive Event (A ι : Type)
  | construct (i : ι) (args : A)
  | destroy (i : ι)
  /-- One request, answered, or one release. -/
  | advance (i : ι) (answer : Nat)
  /-- The constructor returns or throws, or the destructor returns. -/
  | finish (i : ι)

section Runs

variable {κ A Ω ι : Type} [DecidableEq κ] [DecidableEq ι] {C : Lifecycle κ A Ω}

def State.enter (s : State κ A Ω ι) (i : ι) (phase : Phase κ A Ω) : State κ A Ω ι :=
  { s with phase := Function.update s.phase i phase }

/-- The state after object `i` has taken a step of its program. -/
def State.put (s : State κ A Ω ι) (i : ι) (phase : Phase κ A Ω)
    (outstanding held : List (Piece κ)) : State κ A Ω ι where
  outstanding := outstanding
  phase := Function.update s.phase i phase
  held := Function.update s.held i held

def exec (C : Lifecycle κ A Ω) (s : State κ A Ω ι) : Event A ι → Option (State κ A Ω ι)
  | .construct i args =>
      match s.phase i with
      | .absent => some (s.enter i (.constructing args (C.construct args)))
      | _ => none
  | .destroy i =>
      match s.phase i with
      | .alive _ o => some (s.enter i (.destructing (C.destruct o)))
      | _ => none
  | .advance i answer =>
      match s.phase i with
      | .constructing args prog =>
          (prog.advance answer s.outstanding (s.held i)).map fun r =>
            s.put i (.constructing args r.1) r.2.1 r.2.2
      | .destructing prog =>
          (prog.advance answer s.outstanding (s.held i)).map fun r =>
            s.put i (.destructing r.1) r.2.1 r.2.2
      | _ => none
  | .finish i =>
      match s.phase i with
      | .constructing args (.done o) => some (s.enter i (.alive args o))
      | .constructing args .throw => some (s.enter i (.threw args))
      | .destructing (.done _) => some (s.enter i .absent)
      | _ => none

def State.blank : State κ A Ω ι where
  outstanding := []
  phase _ := .absent
  held _ := []

def runs (C : Lifecycle κ A Ω) (ι : Type) [DecidableEq ι] :
    System (State κ A Ω ι) (Event A ι) :=
  ofExec (fun s => s = State.blank) (exec C)

/-- What an object has in each phase. -/
def Fits (C : Lifecycle κ A Ω) : Phase κ A Ω → List (Piece κ) → Prop
  | .absent, held => held = []
  | .constructing args prog, held =>
      prog.Keeps held (Makes (C.made args) C.footprint (C.leaves args) (C.risky args))
  | .alive args o, held => C.made args o ∧ held.Perm (C.footprint o)
  | .threw args, held => ∃ l, held.Perm l ∧ C.leaves args l
  | .destructing prog, held => prog.Keeps held Gone

/-- Between any two steps. -/
structure Accounted (C : Lifecycle κ A Ω) (s : State κ A Ω ι) : Prop where
  apart : s.outstanding.Pairwise Apart
  /-- Every piece that is outstanding is some one object's. -/
  ledger : Ledger (· ∈ s.outstanding) s.held
  fits : ∀ i, Fits C (s.phase i) (s.held i)

section Pieces

omit [DecidableEq κ] [DecidableEq ι]

variable {outstanding : List (Piece κ)}

theorem nodup_of_apart (h : outstanding.Pairwise Apart) : outstanding.Nodup :=
  h.imp fun hab heq => hab.1 (congrArg Piece.address heq)

theorem eq_of_address (h : outstanding.Pairwise Apart) {a b : Piece κ}
    (ha : a ∈ outstanding) (hb : b ∈ outstanding) (heq : a.address = b.address) : a = b := by
  by_contra hne
  exact (h.forall ha hb hne).1 heq

end Pieces

section Steps

variable {α : Type} {prog prog' : Prog κ α} {Q : End α → List (Piece κ) → Prop}
variable {outstanding outstanding' held' : List (Piece κ)} {held : ι → List (Piece κ)}
variable {i : ι} {answer : Nat}

/-- What one request or release does, for all pieces. -/
theorem advance_spec (hkeeps : prog.Keeps (held i) Q) (hapart : outstanding.Pairwise Apart)
    (hledger : Ledger (· ∈ outstanding) held)
    (hstep : prog.advance answer outstanding (held i) = some (prog', outstanding', held')) :
    prog'.Keeps held' Q ∧ outstanding'.Pairwise Apart ∧
      Ledger (· ∈ outstanding') (Function.update held i held') := by
  cases prog with
  | done a => cases hstep
  | throw => cases hstep
  | undefined => cases hstep
  | request source bytes next =>
      simp only [Prog.advance] at hstep
      split at hstep
      · cases hstep
        rw [Function.update_eq_self]
        exact ⟨hkeeps.1, hapart, hledger⟩
      · next hne =>
          split at hstep
          · next hfresh =>
              cases hstep
              refine ⟨hkeeps.2 answer hne, List.pairwise_cons.mpr ⟨hfresh, hapart⟩, ?_⟩
              refine hledger.insert (k := i) (fun hmem => (hfresh _ hmem).1 rfl)
                (fun c => List.mem_cons) (Function.update_self ..) ?_
              intro j hj
              exact Function.update_of_ne hj _ _
          · cases hstep
  | release source address bytes next =>
      obtain ⟨a, rest, hperm, hat, hnext⟩ := hkeeps
      obtain ⟨b, hfind, heq⟩ := Option.map_eq_some_iff.mp hstep
      cases heq
      have hmem : a ∈ outstanding :=
        (hledger.mem a).mpr ⟨i, hperm.mem_iff.mpr List.mem_cons_self⟩
      have hb : b.IsAt source address bytes := by simpa using List.find?_some hfind
      -- the address decides which piece it is
      obtain rfl : b = a :=
        eq_of_address hapart (List.mem_of_find?_eq_some hfind) hmem (hb.2.1.trans hat.2.1.symm)
      have hrest : ((held i).erase b).Perm rest := by
        have herase := hperm.erase b
        rwa [List.erase_cons_head] at herase
      refine ⟨hnext.perm hrest.symm, hapart.sublist List.erase_sublist, ?_⟩
      have hfront : Ledger (· ∈ outstanding)
          (Function.update held i (b :: (held i).erase b)) := by
        refine hledger.permute (k := i) ?_ fun j hj => Function.update_of_ne hj _ _
        rw [Function.update_self]
        exact (hperm.trans (hrest.symm.cons b)).symm
      refine hfront.remove (k := i) (b := b) ?_ ?_ ?_
      · intro c
        exact (nodup_of_apart hapart).mem_erase_iff
      · rw [Function.update_self, Function.update_self]
      · intro j hj
        rw [Function.update_of_ne hj, Function.update_of_ne hj]

end Steps

variable {s s' : State κ A Ω ι} {i : ι}

omit [DecidableEq κ] in
/-- An object that goes to another phase with the pieces it has. -/
theorem Accounted.enter (h : Accounted C s) {phase : Phase κ A Ω}
    (hfits : Fits C phase (s.held i)) : Accounted C (s.enter i phase) where
  apart := h.apart
  ledger := h.ledger
  fits j := by
    by_cases hj : j = i
    · rw [hj]
      simpa only [State.enter, Function.update_self] using hfits
    · simpa only [State.enter, Function.update_of_ne hj] using h.fits j

omit [DecidableEq κ] in
theorem Accounted.put (h : Accounted C s) {phase : Phase κ A Ω}
    {outstanding held : List (Piece κ)} (hapart : outstanding.Pairwise Apart)
    (hledger : Ledger (· ∈ outstanding) (Function.update s.held i held))
    (hfits : Fits C phase held) : Accounted C (s.put i phase outstanding held) where
  apart := hapart
  ledger := hledger
  fits j := by
    by_cases hj : j = i
    · rw [hj]
      simpa only [State.put, Function.update_self] using hfits
    · simpa only [State.put, Function.update_of_ne hj] using h.fits j

theorem Accounted.step (h : Accounted C s) {e : Event A ι} (hstep : exec C s e = some s') :
    Accounted C s' := by
  cases e with
  | construct i args =>
      simp only [exec] at hstep
      have hfits := h.fits i
      split at hstep
      · next hphase =>
          cases hstep
          rw [hphase] at hfits
          have hnone : s.held i = [] := hfits
          apply h.enter
          rw [hnone]
          exact C.constructs args
      · cases hstep
  | destroy i =>
      simp only [exec] at hstep
      have hfits := h.fits i
      split at hstep
      · next args o hphase =>
          cases hstep
          rw [hphase] at hfits
          apply h.enter
          exact (C.destructs o).perm hfits.2.symm
      · cases hstep
  | advance i answer =>
      simp only [exec] at hstep
      have hfits := h.fits i
      split at hstep
      · next args prog hphase =>
          obtain ⟨r, hadvance, rfl⟩ := Option.map_eq_some_iff.mp hstep
          rw [hphase] at hfits
          obtain ⟨hkeeps, hapart, hledger⟩ :=
            advance_spec hfits h.apart h.ledger hadvance
          exact h.put hapart hledger hkeeps
      · next prog hphase =>
          obtain ⟨r, hadvance, rfl⟩ := Option.map_eq_some_iff.mp hstep
          rw [hphase] at hfits
          obtain ⟨hkeeps, hapart, hledger⟩ :=
            advance_spec hfits h.apart h.ledger hadvance
          exact h.put hapart hledger hkeeps
      · cases hstep
  | finish i =>
      simp only [exec] at hstep
      have hfits := h.fits i
      split at hstep
      · next args o hphase =>
          cases hstep
          rw [hphase] at hfits
          obtain ⟨l, hperm, hmade, rfl⟩ := hfits
          exact h.enter ⟨hmade, hperm⟩
      · next args hphase =>
          cases hstep
          rw [hphase] at hfits
          obtain ⟨l, hperm, hleaves⟩ := hfits
          exact h.enter ⟨l, hperm, hleaves⟩
      · next r hphase =>
          cases hstep
          rw [hphase] at hfits
          obtain ⟨l, hperm, -, rfl⟩ := hfits
          exact h.enter hperm.eq_nil
      · cases hstep

end Runs

end PoolMemalloc.Verified.Storage
