import Mathlib.Logic.Function.Basic
import PoolMemalloc.Ports.FreelistAllocator
import PoolMemalloc.Verified.Conservation
import PoolMemalloc.Verified.LinkedChain
import PoolMemalloc.Verified.LifoStack
import PoolMemalloc.Verified.Transition

/-!
# Interleaved `push` and `pop` on one `FreelistAllocator`

Any number of threads run `push` and `pop` one step at a time: the load of
`head`, the write of `node->next`, the read of `old_head.ptr->next`, and
`compare_exchange_weak`, which may fail spuriously.  A thread may overwrite the
`next` field of any block it owns at any time, and hand a block to another
thread.

The tag of `head` counts the successful exchanges modulo `2 ^ 64`.  `exchanges`
counts them without wrapping and every snapshot carries the count at its load;
neither is in the source, they only serve to say `Timely`, that fewer than
`2 ^ 64` exchanges succeed between a load and the exchange that goes with it.

* `Inv` — a snapshot taken since the last exchange agrees with `head`, and the
  `next` value read through it with the heap.
* `Inv.step` — it is kept, and every step is the abstract stack's step named by
  `effect`, so the list refines a LIFO stack, without the ABA problem.
-/

namespace PoolMemalloc.Ports.FreelistInterleaving

open PoolMemalloc.Verified.SizeT
open PoolMemalloc.Verified.Transition
open PoolMemalloc.Verified.LinkedChain
open PoolMemalloc.Verified.Conservation
open PoolMemalloc.Verified.LifoStack
open PoolMemalloc.Ports.FreelistAllocator

/-- Where a thread is between two of its steps.  `old` is `old_head`, `count` the
number of successful exchanges when it was loaded. -/
inductive Pc
  | idle
  /-- `push(node)`, before the load of `head`. -/
  | pushLoad (node : Nat)
  /-- Before `node->next = old_head.ptr`. -/
  | pushLink (node : Nat) (old : TaggedPtr) (count : Nat)
  | pushExchange (node : Nat) (old : TaggedPtr) (count : Nat)
  /-- `pop`, before the load of `head`. -/
  | popLoad
  /-- Before the read of `old_head.ptr->next`. -/
  | popNext (old : TaggedPtr) (count : Nat)
  | popExchange (old : TaggedPtr) (next count : Nat)
  /-- `pop` is about to return `ptr`. -/
  | popped (ptr : Nat)
  deriving Repr, DecidableEq

/-- The heap and the list head; where each thread is; the blocks each thread owns
outside its running call. -/
structure State where
  next : Heap
  head : TaggedPtr
  exchanges : Nat
  pc : Nat → Pc
  owned : Nat → List Nat

inductive Event
  | callPush (thread node : Nat)
  | callPop (thread : Nat)
  | load (thread : Nat)
  | link (thread : Nat)
  | readNext (thread : Nat)
  | exchange (thread : Nat) (spurious : Bool)
  | ret (thread : Nat)
  | scribble (thread block value : Nat)
  | give (sender receiver block : Nat)
  deriving Repr, DecidableEq

def State.goto (s : State) (t : Nat) (pc : Pc) : State :=
  { s with pc := Function.update s.pc t pc }

/-- A successful exchange on `head`. -/
def State.swing (s : State) (ptr : Nat) : State :=
  { s with
    head := ⟨ptr, wrap (s.head.tag + 1)⟩
    exchanges := s.exchanges + 1 }

def State.own (s : State) (t : Nat) (blocks : List Nat) : State :=
  { s with owned := Function.update s.owned t blocks }

/-- One step; `none` where it is not the thread's next step.  The prefetch of
`old_head.ptr->next` reads nothing that is used, and has no step. -/
def exec (s : State) : Event → Option State
  | .callPush t node =>
      if s.pc t = .idle ∧ node ∈ s.owned t then
        some ((s.own t ((s.owned t).erase node)).goto t (.pushLoad node))
      else none
  | .callPop t => if s.pc t = .idle then some (s.goto t .popLoad) else none
  | .load t =>
      match s.pc t with
      | .pushLoad node => some (s.goto t (.pushLink node s.head s.exchanges))
      | .popLoad =>
          if s.head.ptr = 0 then some (s.goto t (.popped 0))
          else some (s.goto t (.popNext s.head s.exchanges))
      | _ => none
  | .link t =>
      match s.pc t with
      | .pushLink node old count =>
          some ({ s with next := Function.update s.next node old.ptr }.goto t
            (.pushExchange node old count))
      | _ => none
  | .readNext t =>
      match s.pc t with
      | .popNext old count =>
          some (s.goto t (.popExchange old (s.next old.ptr) count))
      | _ => none
  | .exchange t spurious =>
      match s.pc t with
      | .pushExchange node old _ =>
          if s.head = old ∧ spurious = false then some ((s.swing node).goto t .idle)
          else some (s.goto t (.pushLoad node))
      | .popExchange old next _ =>
          if s.head = old ∧ spurious = false then
            some ((s.swing next).goto t (.popped old.ptr))
          else some (s.goto t .popLoad)
      | _ => none
  | .ret t =>
      match s.pc t with
      | .popped ptr =>
          if ptr = 0 then some (s.goto t .idle)
          else some ((s.own t (ptr :: s.owned t)).goto t .idle)
      | _ => none
  | .scribble t block value =>
      if block ∈ s.owned t then
        some { s with next := Function.update s.next block value }
      else none
  | .give t u block =>
      if block ∈ s.owned t ∧ t ≠ u then
        some ((s.own t ((s.owned t).erase block)).own u (block :: s.owned u))
      else none

/-- The number of successful exchanges when thread `t` loaded its snapshot. -/
def loadCount : Pc → Option Nat
  | .pushExchange _ _ count => some count
  | .popExchange _ _ count => some count
  | _ => none

/-- Fewer than `2 ^ 64` exchanges have succeeded since the load. -/
def Timely (s : State) : Event → Prop
  | .exchange t _ => ∀ count ∈ loadCount (s.pc t), s.exchanges - count < 2 ^ 64
  | _ => True

instance (s : State) : ∀ e, Decidable (Timely s e)
  | .exchange t _ => inferInstanceAs
      (Decidable (∀ count ∈ loadCount (s.pc t), s.exchanges - count < 2 ^ 64))
  | .callPush .. => isTrue trivial
  | .callPop _ => isTrue trivial
  | .load _ => isTrue trivial
  | .link _ => isTrue trivial
  | .readNext _ => isTrue trivial
  | .ret _ => isTrue trivial
  | .scribble .. => isTrue trivial
  | .give .. => isTrue trivial

/-- A constructed list, empty, and blocks spread over the threads. -/
structure Initial (pool : Nat → Prop) (s : State) : Prop where
  head : s.head = ⟨0, 0⟩
  exchanges : s.exchanges = 0
  idle : ∀ t, s.pc t = .idle
  owned : Ledger pool s.owned
  null : ¬ pool 0

/-- All interleavings of the threads' steps in which every exchange is timely. -/
def steps (pool : Nat → Prop) : System State Event :=
  restrict (ofExec (Initial pool) exec) Timely

/-! ## What a step can be -/

/-- The branches of `exec`, each with what it has found in the state. -/
inductive Taken (s : State) : Event → State → Prop
  | callPush {t node : Nat} (hpc : s.pc t = .idle) (hmem : node ∈ s.owned t) :
      Taken s (.callPush t node)
        ((s.own t ((s.owned t).erase node)).goto t (.pushLoad node))
  | callPop {t : Nat} (hpc : s.pc t = .idle) : Taken s (.callPop t) (s.goto t .popLoad)
  | pushLoad {t node : Nat} (hpc : s.pc t = .pushLoad node) :
      Taken s (.load t) (s.goto t (.pushLink node s.head s.exchanges))
  | popEmpty {t : Nat} (hpc : s.pc t = .popLoad) (hnull : s.head.ptr = 0) :
      Taken s (.load t) (s.goto t (.popped 0))
  | popLoad {t : Nat} (hpc : s.pc t = .popLoad) (hne : s.head.ptr ≠ 0) :
      Taken s (.load t) (s.goto t (.popNext s.head s.exchanges))
  | link {t node : Nat} {old : TaggedPtr} {count : Nat}
      (hpc : s.pc t = .pushLink node old count) :
      Taken s (.link t) ({ s with next := Function.update s.next node old.ptr }.goto t
        (.pushExchange node old count))
  | readNext {t : Nat} {old : TaggedPtr} {count : Nat} (hpc : s.pc t = .popNext old count) :
      Taken s (.readNext t) (s.goto t (.popExchange old (s.next old.ptr) count))
  | pushed {t node : Nat} {old : TaggedPtr} {count : Nat}
      (hpc : s.pc t = .pushExchange node old count) (hsame : s.head = old) :
      Taken s (.exchange t false) ((s.swing node).goto t .idle)
  | pushFailed {t node : Nat} {old : TaggedPtr} {count : Nat} {spurious : Bool}
      (hpc : s.pc t = .pushExchange node old count)
      (hfail : ¬ (s.head = old ∧ spurious = false)) :
      Taken s (.exchange t spurious) (s.goto t (.pushLoad node))
  | popped {t next : Nat} {old : TaggedPtr} {count : Nat}
      (hpc : s.pc t = .popExchange old next count) (hsame : s.head = old) :
      Taken s (.exchange t false) ((s.swing next).goto t (.popped old.ptr))
  | popFailed {t next : Nat} {old : TaggedPtr} {count : Nat} {spurious : Bool}
      (hpc : s.pc t = .popExchange old next count)
      (hfail : ¬ (s.head = old ∧ spurious = false)) :
      Taken s (.exchange t spurious) (s.goto t .popLoad)
  | retNull {t : Nat} (hpc : s.pc t = .popped 0) : Taken s (.ret t) (s.goto t .idle)
  | ret {t ptr : Nat} (hpc : s.pc t = .popped ptr) (hne : ptr ≠ 0) :
      Taken s (.ret t) ((s.own t (ptr :: s.owned t)).goto t .idle)
  | scribble {t block value : Nat} (hmem : block ∈ s.owned t) :
      Taken s (.scribble t block value)
        { s with next := Function.update s.next block value }
  | give {t u block : Nat} (hmem : block ∈ s.owned t) (hne : t ≠ u) :
      Taken s (.give t u block)
        ((s.own t ((s.owned t).erase block)).own u (block :: s.owned u))

theorem taken_of_exec {s s' : State} {e : Event} (h : exec s e = some s') :
    Taken s e s' := by
  cases e with
  | callPush t node =>
      simp only [exec, Option.ite_none_right_eq_some, Option.some.injEq] at h
      obtain ⟨⟨hpc, hmem⟩, rfl⟩ := h
      exact .callPush hpc hmem
  | callPop t =>
      simp only [exec, Option.ite_none_right_eq_some, Option.some.injEq] at h
      obtain ⟨hpc, rfl⟩ := h
      exact .callPop hpc
  | load t =>
      cases hpc : s.pc t with
      | pushLoad node =>
          simp only [exec, hpc] at h
          cases h
          exact .pushLoad hpc
      | popLoad =>
          simp only [exec, hpc] at h
          split at h
          · next hnull =>
              cases h
              exact .popEmpty hpc hnull
          · next hne =>
              cases h
              exact .popLoad hpc hne
      | _ => simp [exec, hpc] at h
  | link t =>
      cases hpc : s.pc t with
      | pushLink node old count =>
          simp only [exec, hpc] at h
          cases h
          exact .link hpc
      | _ => simp [exec, hpc] at h
  | readNext t =>
      cases hpc : s.pc t with
      | popNext old count =>
          simp only [exec, hpc] at h
          cases h
          exact .readNext hpc
      | _ => simp [exec, hpc] at h
  | exchange t spurious =>
      cases hpc : s.pc t with
      | pushExchange node old count =>
          simp only [exec, hpc] at h
          split at h
          · next hsame =>
              obtain ⟨hsame, rfl⟩ := hsame
              cases h
              exact .pushed hpc hsame
          · next hfail =>
              cases h
              exact .pushFailed hpc hfail
      | popExchange old next count =>
          simp only [exec, hpc] at h
          split at h
          · next hsame =>
              obtain ⟨hsame, rfl⟩ := hsame
              cases h
              exact .popped hpc hsame
          · next hfail =>
              cases h
              exact .popFailed hpc hfail
      | _ => simp [exec, hpc] at h
  | ret t =>
      cases hpc : s.pc t with
      | popped ptr =>
          simp only [exec, hpc] at h
          split at h
          · next hnull =>
              cases h
              exact .retNull (hnull ▸ hpc)
          · next hne =>
              cases h
              exact .ret hpc hne
      | _ => simp [exec, hpc] at h
  | scribble t block value =>
      simp only [exec, Option.ite_none_right_eq_some, Option.some.injEq] at h
      obtain ⟨hmem, rfl⟩ := h
      exact .scribble hmem
  | give t u block =>
      simp only [exec, Option.ite_none_right_eq_some, Option.some.injEq] at h
      obtain ⟨⟨hmem, hne⟩, rfl⟩ := h
      exact .give hmem hne

/-! ## The invariant -/

/-- The block a running call has taken over from its thread, or is about to hand
to it. -/
def inHand : Pc → List Nat
  | .pushLoad node => [node]
  | .pushLink node _ _ => [node]
  | .pushExchange node _ _ => [node]
  | .popped ptr => if ptr = 0 then [] else [ptr]
  | _ => []

/-- Everything thread `t` is answerable for. -/
def holds (s : State) (t : Nat) : List Nat := inHand (s.pc t) ++ s.owned t

/-- The places a block can be in: the list, or a thread's hands. -/
def cell (items : List Nat) (s : State) : Option Nat → List Nat
  | none => items
  | some t => holds s t

/-- A snapshot of `head` taken when `count` exchanges had succeeded. -/
structure Snapshot (s : State) (old : TaggedPtr) (count : Nat) : Prop where
  le : count ≤ s.exchanges
  tag : old.tag = wrap count
  current : count = s.exchanges → old = s.head

def PcOk (s : State) : Pc → Prop
  | .pushLink _ old count => Snapshot s old count
  | .pushExchange node old count => Snapshot s old count ∧ s.next node = old.ptr
  | .popNext old count => Snapshot s old count ∧ old.ptr ≠ 0
  | .popExchange old next count => Snapshot s old count ∧ old.ptr ≠ 0 ∧
      (count = s.exchanges → next = s.next old.ptr)
  | _ => True

structure Inv (pool : Nat → Prop) (items : List Nat) (s : State) : Prop where
  chain : Chain 0 s.next s.head.ptr items
  ledger : Ledger pool (cell items s)
  tag : s.head.tag = wrap s.exchanges
  pcOk : ∀ t, PcOk s (s.pc t)
  null : ¬ pool 0

variable {pool : Nat → Prop} {items items' : List Nat} {s s' : State} {t u : Nat}

theorem inv_initial (h : Initial pool s) : Inv pool [] s where
  chain := by rw [h.head]; rfl
  ledger :=
    { nodup := fun k => by
        cases k with
        | none => exact List.nodup_nil
        | some t => simpa [cell, holds, inHand, h.idle] using h.owned.nodup t
      only := fun k l b hk hl => by
        cases k with
        | none => cases hk
        | some t =>
            cases l with
            | none => cases hl
            | some u =>
                simp only [cell, holds, inHand, h.idle, List.nil_append] at hk hl
                rw [h.owned.only t u b hk hl]
      mem := fun b => by
        rw [h.owned.mem b]
        constructor
        · rintro ⟨t, ht⟩
          exact ⟨some t, by simpa [cell, holds, inHand, h.idle] using ht⟩
        · rintro ⟨k, hk⟩
          cases k with
          | none => cases hk
          | some t => exact ⟨t, by simpa [cell, holds, inHand, h.idle] using hk⟩ }
  tag := by rw [h.head, h.exchanges]; rfl
  pcOk t := by rw [h.idle]; trivial
  null := h.null

theorem Snapshot.now (s : State) (htag : s.head.tag = wrap s.exchanges) :
    Snapshot s s.head s.exchanges where
  le := Nat.le_refl _
  tag := htag
  current _ := rfl

/-- A snapshot whose pointer and tag are those of `head`, exchanged in time, was
taken after the last exchange. -/
theorem Snapshot.count_eq {old : TaggedPtr} {count : Nat} (h : Snapshot s old count)
    (htag : s.head.tag = wrap s.exchanges) (hsame : s.head = old)
    (htimely : s.exchanges - count < 2 ^ 64) : count = s.exchanges := by
  have hle := h.le
  have hwrap : wrap s.exchanges = wrap count := by rw [← htag, hsame, h.tag]
  unfold wrap at hwrap
  omega

/-- The top of a non-empty list is an item. -/
theorem Inv.head_mem (h : Inv pool items s) (hne : s.head.ptr ≠ 0) :
    s.head.ptr ∈ items := by
  obtain ⟨rest, heq, -⟩ := h.chain.pop hne
  rw [heq]
  exact List.mem_cons_self

/-- A thread's program counter stays right when others write blocks that are
neither on the list nor in its hands. -/
theorem Inv.pcOk_of_agree (h : Inv pool items s) {pc : Pc} (hpc : PcOk s pc)
    (hhead : s'.head = s.head) (hcount : s'.exchanges = s.exchanges)
    (hitems : ∀ b ∈ items, s'.next b = s.next b)
    (hhand : ∀ b ∈ inHand pc, s'.next b = s.next b) : PcOk s' pc := by
  have hsnapshot : ∀ old count, Snapshot s old count → Snapshot s' old count :=
    fun old count hs => ⟨hcount ▸ hs.le, hs.tag, fun hc =>
      (hs.current (hc.trans hcount)).trans hhead.symm⟩
  cases pc with
  | pushLink node old count => exact hsnapshot old count hpc
  | pushExchange node old count =>
      exact ⟨hsnapshot old count hpc.1, by
        rw [hhand node List.mem_cons_self, hpc.2]⟩
  | popNext old count => exact ⟨hsnapshot old count hpc.1, hpc.2⟩
  | popExchange old next count =>
      obtain ⟨hs, hne, hnext⟩ := hpc
      refine ⟨hsnapshot old count hs, hne, fun hc => ?_⟩
      have hcurrent := hs.current (hc.trans hcount)
      rw [hnext (hc.trans hcount),
        hitems old.ptr (hcurrent ▸ h.head_mem (hcurrent ▸ hne))]
  | _ => trivial

/-- After an exchange every older snapshot is stale. -/
theorem pcOk_of_swing {pc : Pc} (hpc : PcOk s pc) (hnext : s'.next = s.next)
    (hcount : s'.exchanges = s.exchanges + 1) : PcOk s' pc := by
  have hsnapshot : ∀ old count, Snapshot s old count → Snapshot s' old count :=
    fun old count hs => ⟨by have := hs.le; omega, hs.tag, fun hc => by
      have := hs.le
      omega⟩
  cases pc with
  | pushLink node old count => exact hsnapshot old count hpc
  | pushExchange node old count => exact ⟨hsnapshot old count hpc.1, hnext ▸ hpc.2⟩
  | popNext old count => exact ⟨hsnapshot old count hpc.1, hpc.2⟩
  | popExchange old next count =>
      obtain ⟨hs, hne, -⟩ := hpc
      refine ⟨hsnapshot old count hs, hne, fun hc => ?_⟩
      have hle := hs.le
      omega
  | _ => trivial

/-- The places of the blocks after thread `t` alone has moved. -/
private theorem ledger_permute (h : Inv pool items s)
    (hmine : (holds s' t).Perm (holds s t))
    (hothers : ∀ u, u ≠ t → holds s' u = holds s u) :
    Ledger pool (cell items s') := by
  refine h.ledger.permute (k := some t) hmine fun j hj => ?_
  cases j with
  | none => rfl
  | some u => exact hothers u fun heq => hj (heq ▸ rfl)

private theorem ledger_move (h : Inv pool items s)
    (hmine : (items' ++ holds s' t).Perm (items ++ holds s t))
    (hothers : ∀ u, u ≠ t → holds s' u = holds s u) :
    Ledger pool (cell items' s') := by
  refine h.ledger.move (k := none) (l := some t) (fun heq => nomatch heq) hmine ?_
  intro j hnone hj
  cases j with
  | none => exact (hnone rfl).elim
  | some u => exact hothers u fun heq => hj (heq ▸ rfl)

/-- A step of thread `t` that leaves the list and the heap alone. -/
theorem Inv.quiet (h : Inv pool items s) {q : Pc}
    (hpcs : s'.pc = Function.update s.pc t q) (hok : PcOk s q)
    (hnext : s'.next = s.next) (hhead : s'.head = s.head)
    (hcount : s'.exchanges = s.exchanges)
    (hmine : (inHand q ++ s'.owned t).Perm (holds s t))
    (hothers : ∀ u, u ≠ t → s'.owned u = s.owned u) : Inv pool items s' where
  chain := by rw [hnext, hhead]; exact h.chain
  ledger := by
    refine ledger_permute h (t := t) ?_ fun u hu => ?_
    · rw [holds, hpcs, Function.update_self]
      exact hmine
    · rw [holds, holds, hpcs, Function.update_of_ne hu, hothers u hu]
  tag := by rw [hhead, hcount]; exact h.tag
  pcOk u := by
    have hagree : ∀ q, PcOk s q → PcOk s' q := fun q hpc =>
      h.pcOk_of_agree hpc hhead hcount (fun _ _ => by rw [hnext])
        (fun _ _ => by rw [hnext])
    rw [hpcs]
    by_cases hu : u = t
    · subst hu
      rw [Function.update_self]
      exact hagree _ hok
    · rw [Function.update_of_ne hu]
      exact hagree _ (h.pcOk u)
  null := h.null

/-- A successful exchange of thread `t` turns the items into `items'`. -/
theorem Inv.swing (h : Inv pool items s) {q : Pc} {ptr : Nat}
    (hpcs : s'.pc = Function.update s.pc t q) (hquiet : ∀ r, PcOk r q)
    (hnext : s'.next = s.next) (hhead : s'.head = ⟨ptr, wrap (s.head.tag + 1)⟩)
    (hcount : s'.exchanges = s.exchanges + 1) (howned : s'.owned = s.owned)
    (hchain : Chain 0 s.next ptr items')
    (hmine : (items' ++ inHand q).Perm (items ++ inHand (s.pc t))) :
    Inv pool items' s' where
  chain := by rw [hnext, hhead]; exact hchain
  ledger := by
    refine ledger_move h (t := t) ?_ fun u hu => ?_
    · rw [holds, holds, hpcs, Function.update_self, howned, ← List.append_assoc,
        ← List.append_assoc]
      exact hmine.append_right _
    · rw [holds, holds, hpcs, Function.update_of_ne hu, howned]
  tag := by
    rw [hhead, hcount]
    show wrap (s.head.tag + 1) = wrap (s.exchanges + 1)
    rw [h.tag]
    exact Nat.mod_add_mod _ _ _
  pcOk u := by
    rw [hpcs]
    by_cases hu : u = t
    · subst hu
      rw [Function.update_self]
      exact hquiet _
    · rw [Function.update_of_ne hu]
      exact pcOk_of_swing (h.pcOk u) hnext hcount
  null := h.null

/-- A block in a thread's hands is not on the list. -/
theorem Inv.notMem_items (h : Inv pool items s) {b : Nat} (hb : b ∈ holds s t) :
    b ∉ items :=
  h.ledger.notMem (k := some t) (l := none) hb (fun heq => nomatch heq)

theorem Inv.notMem_holds (h : Inv pool items s) {b : Nat} (hb : b ∈ holds s t)
    (hu : u ≠ t) : b ∉ holds s u :=
  h.ledger.notMem (k := some t) (l := some u) hb
    (fun heq => hu (Option.some.inj heq))

theorem Inv.ne_null (h : Inv pool items s) {b : Nat} (hb : b ∈ holds s t) : b ≠ 0 :=
  fun hzero => h.null (hzero ▸ h.ledger.mem_of (k := some t) hb)

/-- A write of thread `t` to a block in its hands. -/
theorem Inv.write (h : Inv pool items s) {q : Pc} {b value : Nat}
    (hb : b ∈ holds s t) (hpcs : s'.pc = Function.update s.pc t q)
    (hhand : inHand q = inHand (s.pc t)) (hok : PcOk s' q)
    (hnext : s'.next = Function.update s.next b value) (hhead : s'.head = s.head)
    (hcount : s'.exchanges = s.exchanges) (howned : s'.owned = s.owned) :
    Inv pool items s' where
  chain := by
    rw [hnext, hhead]
    exact h.chain.update (h.notMem_items hb)
  ledger := by
    refine ledger_permute h (t := t) ?_ fun u hu => ?_
    · rw [holds, holds, hpcs, Function.update_self, howned, hhand]
    · rw [holds, holds, hpcs, Function.update_of_ne hu, howned]
  tag := by rw [hhead, hcount]; exact h.tag
  pcOk u := by
    rw [hpcs]
    by_cases hu : u = t
    · subst hu
      rw [Function.update_self]
      exact hok
    · rw [Function.update_of_ne hu]
      refine h.pcOk_of_agree (h.pcOk u) hhead hcount (fun c hc => ?_) fun c hc => ?_
      · rw [hnext, Function.update_of_ne]
        rintro rfl
        exact h.notMem_items hb hc
      · rw [hnext, Function.update_of_ne]
        rintro rfl
        exact h.notMem_holds hb hu (List.mem_append_left _ hc)
  null := h.null

/-! ## Every step is a step of the stack -/

/-- What a step does to the abstract stack: a push takes effect at its successful
exchange, a pop at its successful exchange or at a load of null. -/
def effect (s : State) : Event → Op Nat
  | .load t =>
      match s.pc t with
      | .popLoad => if s.head.ptr = 0 then .popEmpty else .skip
      | _ => .skip
  | .exchange t spurious =>
      match s.pc t with
      | .pushExchange node old _ =>
          if s.head = old ∧ spurious = false then .push node else .skip
      | .popExchange old _ _ =>
          if s.head = old ∧ spurious = false then .pop old.ptr else .skip
      | _ => .skip
  | _ => .skip

/-- The items after a step, and the invariant again. -/
def Stepped (pool : Nat → Prop) (items : List Nat) (s : State) (e : Event)
    (s' : State) : Prop :=
  ∃ items', Step items (effect s e) items' ∧ Inv pool items' s'

theorem Inv.callPush (h : Inv pool items s) {node : Nat}
    (hstep : exec s (.callPush t node) = some s') :
    Stepped pool items s (.callPush t node) s' := by
  cases taken_of_exec hstep with
  | callPush hidle hmem =>
      refine ⟨items, rfl, h.quiet (t := t) (q := .pushLoad node) rfl trivial rfl rfl
        rfl ?_ fun u hu => Function.update_of_ne hu _ _⟩
      simp only [State.goto, State.own, Function.update_self, holds, hidle, inHand,
        List.nil_append, List.singleton_append]
      exact (List.perm_cons_erase hmem).symm

theorem Inv.callPop (h : Inv pool items s)
    (hstep : exec s (.callPop t) = some s') :
    Stepped pool items s (.callPop t) s' := by
  cases taken_of_exec hstep with
  | callPop hidle =>
      refine ⟨items, rfl, h.quiet (t := t) (q := .popLoad) rfl trivial rfl rfl rfl ?_
        fun u _ => rfl⟩
      rw [holds, hidle]
      rfl

theorem Inv.load (h : Inv pool items s)
    (hstep : exec s (.load t) = some s') : Stepped pool items s (.load t) s' := by
  cases taken_of_exec hstep with
  | pushLoad hpc =>
      refine ⟨items, by simp [effect, hpc, Step], h.quiet (t := t) rfl
        (Snapshot.now s h.tag) rfl rfl rfl ?_ fun u _ => rfl⟩
      rw [holds, hpc]
      rfl
  | popEmpty hpc hnull =>
      have hempty := h.chain.eq_nil_iff.mpr hnull
      refine ⟨items, by simp [effect, hpc, Step, hnull, hempty],
        h.quiet (t := t) (q := .popped 0) rfl trivial rfl rfl rfl ?_ fun u _ => rfl⟩
      rw [holds, hpc]
      rfl
  | popLoad hpc hne =>
      refine ⟨items, by simp [effect, hpc, Step, hne], h.quiet (t := t) rfl
        ⟨Snapshot.now s h.tag, hne⟩ rfl rfl rfl ?_ fun u _ => rfl⟩
      rw [holds, hpc]
      rfl

theorem Inv.link (h : Inv pool items s)
    (hstep : exec s (.link t) = some s') : Stepped pool items s (.link t) s' := by
  have hok := h.pcOk t
  cases taken_of_exec hstep with
  | link hpc =>
      rw [hpc] at hok
      refine ⟨items, rfl, h.write (t := t) ?_ rfl (by rw [hpc]; rfl)
        ⟨⟨hok.le, hok.tag, hok.current⟩, Function.update_self ..⟩ rfl rfl rfl rfl⟩
      rw [holds, hpc]
      exact List.mem_cons_self

theorem Inv.readNext (h : Inv pool items s)
    (hstep : exec s (.readNext t) = some s') :
    Stepped pool items s (.readNext t) s' := by
  have hok := h.pcOk t
  cases taken_of_exec hstep with
  | readNext hpc =>
      rw [hpc] at hok
      refine ⟨items, rfl, h.quiet (t := t) rfl ⟨hok.1, hok.2, fun _ => rfl⟩ rfl rfl
        rfl ?_ fun u _ => rfl⟩
      rw [holds, hpc]
      rfl

theorem Inv.exchange (h : Inv pool items s) {spurious : Bool}
    (htimely : Timely s (.exchange t spurious))
    (hstep : exec s (.exchange t spurious) = some s') :
    Stepped pool items s (.exchange t spurious) s' := by
  have hok := h.pcOk t
  cases taken_of_exec hstep with
  | @pushed _ node old count hpc hsame =>
      -- the snapshot may be stale: only its pointer, written to the node, has to be
      -- the head's
      rw [hpc] at hok
      obtain ⟨-, hlink⟩ := hok
      have hmem : node ∈ holds s t := by
        rw [holds, hpc]
        exact List.mem_cons_self
      have hchain : Chain 0 s.next node (node :: items) :=
        ⟨rfl, h.ne_null hmem, by rw [hlink, ← hsame]; exact h.chain⟩
      refine ⟨node :: items, by simp [effect, hpc, Step, hsame],
        h.swing (t := t) (q := .idle) rfl (fun _ => trivial) rfl rfl rfl rfl hchain ?_⟩
      rw [hpc]
      show (node :: items ++ []).Perm (items ++ [node])
      rw [List.append_nil]
      exact (List.perm_append_singleton node items).symm
  | @pushFailed _ node old count _ hpc hfail =>
      refine ⟨items, by simp [effect, hpc, Step, hfail],
        h.quiet (t := t) (q := .pushLoad node) rfl trivial rfl rfl rfl ?_ fun u _ => rfl⟩
      rw [holds, hpc]
      rfl
  | @popped _ next old count hpc hsame =>
      -- equal pointer and tag: no exchange since the load, so `next` is current
      rw [hpc] at hok
      obtain ⟨hsnapshot, hne, hread⟩ := hok
      have hcount := hsnapshot.count_eq h.tag hsame (htimely count (by rw [hpc]; rfl))
      subst hsame
      obtain ⟨rest, rfl, hrest⟩ := h.chain.pop hne
      refine ⟨rest, by simp [effect, hpc, Step],
        h.swing (t := t) (q := .popped s.head.ptr) rfl (fun _ => trivial) rfl
          rfl rfl rfl (by rw [hread hcount]; exact hrest) ?_⟩
      rw [hpc]
      simp only [inHand, if_neg hne, List.append_nil]
      exact List.perm_append_singleton _ _
  | popFailed hpc hfail =>
      refine ⟨items, by simp [effect, hpc, Step, hfail],
        h.quiet (t := t) (q := .popLoad) rfl trivial rfl rfl rfl ?_ fun u _ => rfl⟩
      rw [holds, hpc]
      rfl

theorem Inv.ret (h : Inv pool items s)
    (hstep : exec s (.ret t) = some s') : Stepped pool items s (.ret t) s' := by
  cases taken_of_exec hstep with
  | retNull hpc =>
      refine ⟨items, rfl, h.quiet (t := t) (q := .idle) rfl trivial rfl rfl rfl
        ?_ fun u _ => rfl⟩
      simp only [State.goto, holds, hpc, inHand, if_true]
      exact List.Perm.refl _
  | ret hpc hne =>
      refine ⟨items, rfl, h.quiet (t := t) (q := .idle) rfl trivial rfl rfl rfl
        ?_ fun u hu => Function.update_of_ne hu _ _⟩
      simp only [State.goto, State.own, Function.update_self, holds, hpc, inHand,
        if_neg hne, List.nil_append, List.singleton_append]
      exact List.Perm.refl _

theorem Inv.scribble (h : Inv pool items s) {block value : Nat}
    (hstep : exec s (.scribble t block value) = some s') :
    Stepped pool items s (.scribble t block value) s' := by
  cases taken_of_exec hstep with
  | scribble hmem =>
      have hhold : block ∈ holds s t := List.mem_append_right _ hmem
      refine ⟨items, rfl, h.write (t := t) (q := s.pc t) hhold
        (Function.update_eq_self t s.pc).symm rfl ?_ rfl rfl rfl rfl⟩
      -- the block is not the one the thread's own call has in hand
      refine h.pcOk_of_agree (h.pcOk t) rfl rfl (fun c hc => ?_) fun c hc => ?_
      · refine Function.update_of_ne ?_ _ _
        rintro rfl
        exact h.notMem_items hhold hc
      · refine Function.update_of_ne ?_ _ _
        rintro rfl
        have hnodup := h.ledger.nodup (some t)
        exact (List.nodup_append.mp hnodup).2.2 c hc c hmem rfl

theorem Inv.give (h : Inv pool items s) {block : Nat}
    (hstep : exec s (.give t u block) = some s') :
    Stepped pool items s (.give t u block) s' := by
  cases taken_of_exec hstep with
  | give hmem hne =>
      refine ⟨items, rfl,
        { chain := h.chain
          ledger := ?_
          tag := h.tag
          pcOk := fun v => h.pcOk_of_agree (h.pcOk v) rfl rfl (fun _ _ => rfl)
            fun _ _ => rfl
          null := h.null }⟩
      refine h.ledger.move (k := some t) (l := some u)
        (fun heq => hne (Option.some.inj heq)) ?_ fun j hjt hju => ?_
      · have howned : (s.owned t).Perm (block :: (s.owned t).erase block) :=
          List.perm_cons_erase hmem
        simp only [cell, holds, State.own, Function.update_self,
          Function.update_of_ne hne]
        refine List.Perm.trans ?_ ((howned.append_left _).append_right _).symm
        simp only [List.append_assoc]
        refine List.Perm.append_left _ ?_
        rw [← List.append_assoc, List.cons_append, ← List.append_assoc]
        exact List.perm_middle
      · cases j with
        | none => rfl
        | some v =>
            have hvt : v ≠ t := fun heq => hjt (heq ▸ rfl)
            have hvu : v ≠ u := fun heq => hju (heq ▸ rfl)
            simp only [cell, holds, State.own, Function.update_of_ne hvt,
              Function.update_of_ne hvu]

/-- Every timely step is a step of the stack and keeps the invariant. -/
theorem Inv.step (h : Inv pool items s) {e : Event} (htimely : Timely s e)
    (hstep : exec s e = some s') : Stepped pool items s e s' := by
  cases e with
  | callPush t node => exact h.callPush hstep
  | callPop t => exact h.callPop hstep
  | load t => exact h.load hstep
  | link t => exact h.link hstep
  | readNext t => exact h.readNext hstep
  | exchange t spurious => exact h.exchange htimely hstep
  | ret t => exact h.ret hstep
  | scribble t block value => exact h.scribble hstep
  | give t u block => exact h.give hstep

theorem inv_of_reachable (h : Reachable (steps pool) s) :
    ∃ items, Inv pool items s := by
  refine Reachable.invariant (P := fun s => ∃ items, Inv pool items s) ?_ ?_ h
  · intro s hs
    exact ⟨[], inv_initial hs⟩
  · rintro s e s' - ⟨items, hs⟩ ⟨htimely, hstep⟩
    obtain ⟨items', -, hs'⟩ := hs.step htimely hstep
    exact ⟨items', hs'⟩

/-! ## The refinement -/

/-- The nodes of the list, top first. -/
def Contents (s : State) (items : List Nat) : Prop := Chain 0 s.next s.head.ptr items

/-- The list at `s`, and what the next step may do to it. -/
structure Refines (pool : Nat → Prop) (s : State) : Prop where
  /-- The chain from `head` is finite, null-terminated and free of duplicates,
  and its items are those of a run of the stack. -/
  contents : ∃ items, Contents s items ∧ items.Nodup ∧
    Reachable (stack Nat) items
  unique : ∀ items items', Contents s items → Contents s items' → items = items'
  /-- A step changes it as its `effect` says. -/
  step : ∀ e s' items, Timely s e → exec s e = some s' → Contents s items →
    ∃ items', Contents s' items' ∧ Step items (effect s e) items'
  /-- It changes at successful exchanges only. -/
  changes : ∀ e s' b, exec s e = some s' →
    (effect s e = .push b ∨ effect s e = .pop b) →
    (∃ t, e = .exchange t false) ∧ s'.exchanges = s.exchanges + 1
  /-- `push` ends by putting its node on top. -/
  pushes : ∀ t spurious s' node old count, s.pc t = .pushExchange node old count →
    exec s (.exchange t spurious) = some s' → s'.pc t = .idle →
    effect s (.exchange t spurious) = .push node
  /-- `pop` returns the item it has removed, and null only if it found the list
  empty. -/
  returns : ∀ e s' t ptr, exec s e = some s' → s'.pc t = .popped ptr →
    s.pc t = .popped ptr ∨ (ptr ≠ 0 ∧ effect s e = .pop ptr) ∨
      (ptr = 0 ∧ effect s e = .popEmpty)
  /-- Every block is once in the list, or once with one thread. -/
  place : ∀ items, Contents s items → ∀ b, pool b →
    ∃ k, (cell items s k).count b = 1 ∧ ∀ l, l ≠ k → b ∉ cell items s l

theorem effect_changes {e : Event} {b : Nat} (hstep : exec s e = some s')
    (heffect : effect s e = .push b ∨ effect s e = .pop b) :
    (∃ t, e = .exchange t false) ∧ s'.exchanges = s.exchanges + 1 := by
  cases taken_of_exec hstep with
  | pushed | popped => exact ⟨⟨_, rfl⟩, rfl⟩
  | pushFailed hpc hfail | popFailed hpc hfail => simp [effect, hpc, hfail] at heffect
  | pushLoad hpc => simp [effect, hpc] at heffect
  | popEmpty hpc hnull => simp [effect, hpc, hnull] at heffect
  | popLoad hpc hne => simp [effect, hpc, hne] at heffect
  | _ => simp [effect] at heffect

/-- A thread other than the one that moves stays where it is. -/
private theorem popped_update {f : Nat → Pc} {pc : Pc} {ptr : Nat}
    (h : Function.update f t pc u = .popped ptr) (hpc : pc ≠ .popped ptr) :
    f u = .popped ptr := by
  by_cases hu : u = t
  · subst hu
    rw [Function.update_self] at h
    exact (hpc h).elim
  · rwa [Function.update_of_ne hu] at h

theorem effect_returns (hnull : ∀ t old next count,
      s.pc t = .popExchange old next count → old.ptr ≠ 0)
    {e : Event} {ptr : Nat} (hstep : exec s e = some s')
    (hpopped : s'.pc u = .popped ptr) :
    s.pc u = .popped ptr ∨ (ptr ≠ 0 ∧ effect s e = .pop ptr) ∨
      (ptr = 0 ∧ effect s e = .popEmpty) := by
  cases taken_of_exec hstep with
  | popEmpty hpc hnull =>
      by_cases hzero : ptr = 0
      · exact Or.inr (Or.inr ⟨hzero, by simp [effect, hpc, hnull]⟩)
      · refine Or.inl (popped_update hpopped ?_)
        rintro ⟨⟩
        exact hzero rfl
  | @popped t next old count hpc hsame =>
      by_cases hptr : ptr = old.ptr
      · subst hptr
        exact Or.inr (Or.inl ⟨hnull t old next count hpc, by simp [effect, hpc, hsame]⟩)
      · refine Or.inl (popped_update hpopped ?_)
        rintro ⟨⟩
        exact hptr rfl
  | scribble | give => exact Or.inl hpopped
  | _ => exact Or.inl (popped_update hpopped (fun heq => nomatch heq))

/-- Every run of the threads is a run of the stack. -/
theorem reachable_stack (h : Reachable (steps pool) s) :
    ∃ items, Reachable (stack Nat) items ∧ Inv pool items s := by
  refine h.simulate (fun s items => Inv pool items s) ?_ ?_
  · intro s hs
    exact ⟨[], rfl, inv_initial hs⟩
  · rintro s items e s' hinv ⟨htimely, hstep⟩
    obtain ⟨items', heffect, hinv'⟩ := hinv.step htimely hstep
    exact ⟨effect s e, items', heffect, hinv'⟩

/-- The free list refines the atomic LIFO stack. -/
theorem refines_of_reachable (pool : Nat → Prop) (s : State)
    (h : Reachable (steps pool) s) : Refines pool s := by
  obtain ⟨items, hrun, hinv⟩ := reachable_stack h
  have hsame : ∀ items', Contents s items' → items' = items :=
    fun items' h' => h'.unique hinv.chain
  exact
    { contents := ⟨items, hinv.chain, hinv.ledger.nodup none, hrun⟩
      unique := fun l l' hl hl' => hl.unique hl'
      step := fun e s' l htimely hstep hl => by
        obtain ⟨items', heffect, hinv'⟩ := hinv.step htimely hstep
        exact ⟨items', hinv'.chain, hsame l hl ▸ heffect⟩
      changes := fun e s' b => effect_changes
      pushes := fun t spurious s' node old count hpc hstep hidle => by
        simp only [exec, hpc] at hstep
        split at hstep
        · next hhead => simp [effect, hpc, hhead]
        · cases hstep
          simp [State.goto] at hidle
      returns := fun e s' t ptr hstep hpopped => by
        refine effect_returns (fun t old next count hpc => ?_) hstep hpopped
        have hok := hinv.pcOk t
        rw [hpc] at hok
        exact hok.2.1
      place := fun l hl b hb => by
        obtain rfl := hsame l hl
        obtain ⟨k, hk⟩ := (hinv.ledger.mem b).mp hb
        exact ⟨k, List.count_eq_one_of_mem (hinv.ledger.nodup k) hk,
          fun j hj => hinv.ledger.notMem hk hj⟩ }

/-! ## Two blocks, one pushed -/

/-- Thread 0 owns the blocks at 64 and 128. -/
def twoBlocks : State where
  next _ := 0
  head := ⟨0, 0⟩
  exchanges := 0
  pc _ := .idle
  owned t := if t = 0 then [64, 128] else []

theorem twoBlocks_initial : Initial (fun b => b ∈ [64, 128]) twoBlocks where
  head := rfl
  exchanges := rfl
  idle _ := rfl
  owned := ledger_single 0 (by decide)
  null := by decide

/-- Thread 0 pushes both blocks; thread 1's `pop` is overtaken by one of thread 0 and so
retries its exchange. -/
def overtaken : List Event :=
  [.callPush 0 64, .load 0, .link 0, .exchange 0 false, .callPush 0 128, .load 0, .link 0,
    .exchange 0 false, .callPop 1, .load 1, .readNext 1, .callPop 0, .load 0, .readNext 0,
    .exchange 0 false, .ret 0, .exchange 1 false, .load 1, .readNext 1, .exchange 1 false,
    .ret 1]

theorem refines_twoBlocks : ∃ s, replay exec twoBlocks overtaken = some s ∧
    (s.exchanges = 4 ∧ s.owned 0 = [128] ∧ s.owned 1 = [64]) ∧
    Refines (fun b => b ∈ [64, 128]) s :=
  ⟨_, rfl, ⟨rfl, rfl, rfl⟩, refines_of_reachable _ _
    (Reachable.replay_restrict overtaken (.init twoBlocks_initial) (by decide) rfl)⟩

end PoolMemalloc.Ports.FreelistInterleaving
