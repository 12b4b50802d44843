import PoolMemalloc.Ports.TlFreelistLinearizable
import PoolMemalloc.Ports.TlFreelistLocality

/-!
# One `ThreadLocalFreelistAllocator` in its atomic steps

In `PoolMemalloc.Ports.TlFreelistInterleaving` a `push` or `pop` of the global list is
one step.  Here it is what it is in the code: the load of `head`, the write of
`node->next` or the read of `old_head.ptr->next`, and `compare_exchange_weak`, which may
fail spuriously and then starts the loop again.

The allocator goes to its global list only under the mutex.  So what a thread has loaded
stays true until its exchange (`Fits`), whatever the tag, and the only exchanges that
fail are the spurious ones.  Every step is one of the other machine or is invisible to
it: it may have written the link of a node on its way to the list, which no one reads
before the node is there.

* `Alike` — the two machines differ in those links only.
* `refined_of_reachable` — so the histories of this machine are histories of the other.
-/

namespace PoolMemalloc.Ports.TlFreelistAtomics

open PoolMemalloc.Verified.SizeT
open PoolMemalloc.Verified.Transition
open PoolMemalloc.Verified.LinkedChain
open PoolMemalloc.Verified.Conservation
open PoolMemalloc.Verified.Linearization
open PoolMemalloc.Ports.FreelistAllocator
open PoolMemalloc.Ports.TlFreelistAllocator (Allocator Constructed)
open PoolMemalloc.Ports.TlFreelistInterleaving (Pc Inv At IsBlock Partitioned cell
  callStep refillStep flushStep step_local footprint exclusive_of_reachable
  partitioned_of_reachable)
open PoolMemalloc.Ports.TlFreelistLinearizable (Call note note_congr object related_of_reachable)

/-- Where a thread is inside a `push` or `pop` of the global list. -/
inductive Inner
  /-- Not inside one, or before its load of `head`. -/
  | outside
  /-- Before the read of `old_head.ptr->next`. -/
  | popNext (old : TaggedPtr)
  | popExchange (old : TaggedPtr) (next : Nat)
  /-- Before `node->next = old_head.ptr`. -/
  | pushLink (node : Nat) (old : TaggedPtr)
  | pushExchange (node : Nat) (old : TaggedPtr)
  deriving Repr, DecidableEq

structure State where
  outer : TlFreelistInterleaving.State
  inner : Nat → Inner

inductive Event
  | callAlloc (thread : Nat)
  | callDealloc (thread ptr : Nat)
  /-- The next step of a running call; an exchange fails if `spurious`. -/
  | step (thread : Nat) (spurious : Bool)
  | scribble (block value : Nat)
  deriving Repr, DecidableEq

def Event.outer : Event → TlFreelistInterleaving.Event
  | .callAlloc t => .callAlloc t
  | .callDealloc t ptr => .callDealloc t ptr
  | .step t _ => .step t
  | .scribble block value => .scribble block value

def State.enter (s : State) (t : Nat) (inner : Inner) : State :=
  { s with inner := Function.update s.inner t inner }

/-- A successful exchange on `head`, after which the thread goes on at `pc`. -/
def State.swing (s : State) (t ptr : Nat) (old : TaggedPtr) (pc : Pc) : State :=
  { s with outer := { s.outer with head := ⟨ptr, wrap (old.tag + 1)⟩ }.goto t pc }.enter t
    .outside

/-- Whether the thread's next step outside is a `pop`. -/
def pops (batchSize : Nat) : Pc → Bool
  | .refillPop => true
  | .refillMore _ _ count => decide (count < batchSize)
  | _ => false

/-- Where `pop_bulk` goes on when `pop` has returned `ptr`. -/
def afterPop (ptr : Nat) : Pc → Pc
  | .refillPop => if ptr = 0 then .refillUnlock 0 else .refillMore ptr ptr 1
  | .refillMore start tail count =>
      if ptr = 0 then .refillNull start tail else .refillLink start tail count ptr
  | pc => pc

/-- Where `push_bulk` goes on after `push`. -/
def afterPush : Pc → Pc
  | .pushNode _ following => .pushRead following
  | pc => pc

/-- A step of thread `t` that is in no loop of `push` or `pop`, or at the head of one:
the load of `head`. -/
def outsideStep (batchSize : Nat) (s : State) (t : Nat) : Pc → Option State
  | .pushNode node _ => some (s.enter t (.pushLink node s.outer.head))
  | pc =>
      if pops batchSize pc then
        if s.outer.head.ptr = 0 then
          some { s with outer := s.outer.goto t (afterPop 0 pc) }
        else some (s.enter t (.popNext s.outer.head))
      else (TlFreelistInterleaving.exec batchSize s.outer (.step t)).map fun outer =>
        { s with outer := outer }

def innerStep (batchSize : Nat) (s : State) (t : Nat) (spurious : Bool) :
    Inner → Option State
  | .outside => outsideStep batchSize s t (s.outer.threads t).pc
  | .popNext old => some (s.enter t (.popExchange old (s.outer.next old.ptr)))
  | .popExchange old next =>
      if s.outer.head = old ∧ spurious = false then
        some (s.swing t next old (afterPop old.ptr (s.outer.threads t).pc))
      else some (s.enter t .outside)
  | .pushLink node old =>
      some ({ s with outer := { s.outer with
        next := Function.update s.outer.next node old.ptr } }.enter t (.pushExchange node old))
  | .pushExchange node old =>
      if s.outer.head = old ∧ spurious = false then
        some (s.swing t node old (afterPush (s.outer.threads t).pc))
      else some (s.enter t .outside)

/-- One step; `none` where it is not enabled. -/
def exec (batchSize : Nat) (s : State) : Event → Option State
  | .step t spurious => innerStep batchSize s t spurious (s.inner t)
  | e => (TlFreelistInterleaving.exec batchSize s.outer e.outer).map fun outer =>
      { s with outer := outer }

def start (a : Allocator) (next : Heap) : State where
  outer := TlFreelistInterleaving.start a next
  inner _ := .outside

/-- The interleavings of the atomic steps, with what the users see. -/
def histories (a : Allocator) (next : Heap) :
    System (State × List (Mark Nat Call Nat)) Event :=
  recorded (fun s => s = start a next) (exec a.batchSize) []
    fun s e s' past => note s.outer e.outer s'.outer ++ past

/-! ## The two machines -/

/-- `b` is not on its way to the list. -/
def Settled (s : TlFreelistInterleaving.State) (b : Nat) : Prop :=
  ∀ t following, (s.threads t).pc ≠ .pushNode b following

/-- The same but for the links of nodes on their way to the list. -/
structure Alike (s c : TlFreelistInterleaving.State) : Prop where
  head : s.head = c.head
  bulkLock : s.bulkLock = c.bulkLock
  threads : s.threads = c.threads
  live : s.live = c.live
  next : ∀ b, Settled s b → s.next b = c.next b

/-- What a thread has loaded and read still holds. -/
def Fits (batchSize : Nat) (s : TlFreelistInterleaving.State) (pc : Pc) : Inner → Prop
  | .outside => True
  | .popNext old => pops batchSize pc = true ∧ s.head = old ∧ old.ptr ≠ 0
  | .popExchange old next => pops batchSize pc = true ∧ s.head = old ∧ old.ptr ≠ 0 ∧
      next = s.next old.ptr
  | .pushLink node old => (∃ following, pc = .pushNode node following) ∧ s.head = old
  | .pushExchange node old => (∃ following, pc = .pushNode node following) ∧
      s.head = old ∧ s.next node = old.ptr

section Relation

variable {pool : Nat → Prop} {g : List Nat} {l x : Nat → List Nat} {batchSize t : Nat}
variable {s s' c c' : TlFreelistInterleaving.State} {pc : Pc} {inner : Inner}

theorem pops_locked (h : pops batchSize pc = true) : pc.locked = true := by
  cases pc with
  | refillPop => rfl
  | refillMore start tail count => rfl
  | _ => simp [pops] at h

/-- A thread inside `push` or `pop` has the mutex. -/
theorem Fits.locked (h : Fits batchSize s pc inner) (hin : inner ≠ .outside) :
    pc.locked = true := by
  cases inner with
  | outside => exact (hin rfl).elim
  | popNext old => exact pops_locked h.1
  | popExchange old next => exact pops_locked h.1
  | pushLink node old =>
      obtain ⟨⟨following, rfl⟩, -⟩ := h
      rfl
  | pushExchange node old =>
      obtain ⟨⟨following, rfl⟩, -⟩ := h
      rfl

/-- It depends on `head`, on the link of its top, and on that of the node pushed. -/
theorem Fits.congr (h : Fits batchSize s pc inner) (hhead : s'.head = s.head)
    (htop : s.head.ptr ≠ 0 → s'.next s.head.ptr = s.next s.head.ptr)
    (hnode : ∀ node following, pc = .pushNode node following →
      s'.next node = s.next node) : Fits batchSize s' pc inner := by
  cases inner with
  | outside => trivial
  | popNext old => exact ⟨h.1, hhead.trans h.2.1, h.2.2⟩
  | popExchange old next =>
      obtain ⟨hpops, rfl, hne, hread⟩ := h
      exact ⟨hpops, hhead, hne, hread.trans (htop hne).symm⟩
  | pushLink node old => exact ⟨h.1, hhead.trans h.2⟩
  | pushExchange node old =>
      obtain ⟨⟨following, hpc⟩, hold, hlink⟩ := h
      exact ⟨⟨following, hpc⟩, hhead.trans hold, (hnode node following hpc).trans hlink⟩

theorem Alike.eq (h : Alike s c) : c = { s with next := c.next } := by
  obtain ⟨hhead, hlock, hthreads, hlive, -⟩ := h
  cases c
  cases hhead
  cases hlock
  cases hthreads
  cases hlive
  rfl

end Relation

/-! ## Steps outside `push` and `pop` -/

section Outside

variable {pool : Nat → Prop} {g : List Nat} {l x : Nat → List Nat} {batchSize t : Nat}
variable {s s' c : TlFreelistInterleaving.State} {th : TlFreelistInterleaving.Thread}
variable {pc : Pc}

/-- A thread that is not at a `push` makes no node settled. -/
theorem settled_of_step (hpc : ∀ node following, (s.threads t).pc ≠ .pushNode node following)
    (hothers : ∀ u, u ≠ t → s'.threads u = s.threads u) {b : Nat} (hb : Settled s' b) :
    Settled s b := by
  intro u following
  by_cases hu : u = t
  · rw [hu]
    exact hpc b following
  · rw [← hothers u hu]
    exact hb u following

/-- A node that no thread has in transit to the list is settled. -/
theorem settled_of_mem {k : TlFreelistInterleaving.Place} {b : Nat} (hinv : Inv pool g l x c)
    (hb : b ∈ cell g l x c.live k)
    (hk : ∀ u, k = .transit u → ∀ following, (c.threads u).pc ≠ .pushNode b following) :
    Settled c b := by
  intro u following hpc
  obtain ⟨-, rest, heq, -⟩ := hinv.holds_at hpc
  have htransit : b ∈ cell g l x c.live (.transit u) := by
    rw [cell, heq]
    exact List.mem_cons_self
  exact hk u (hinv.ledger.only _ _ b hb htransit) following hpc

theorem Alike.settled {b : Nat} (h : Alike s c) (hb : Settled c b) : Settled s b := by
  rw [Settled, h.threads]
  exact hb

/-- Both machines read the same on the list and outside the allocator. -/
theorem Alike.next_eq {k : TlFreelistInterleaving.Place} {b : Nat} (h : Alike s c)
    (hinv : Inv pool g l x c) (hb : b ∈ cell g l x c.live k) (hk : ∀ u, k ≠ .transit u) :
    s.next b = c.next b :=
  h.next b (h.settled (settled_of_mem hinv hb fun u hu => (hk u hu).elim))

/-- So does a thread that is at no `push` among the nodes it holds. -/
theorem Alike.next_held (h : Alike s c) (hinv : Inv pool g l x c)
    (hpush : ∀ node following, (s.threads t).pc ≠ .pushNode node following) :
    ∀ b ∈ l t ++ x t, s.next b = c.next b := by
  intro b hb
  rcases List.mem_append.mp hb with hcache | htransit
  · exact h.next_eq (k := .cache t) hinv hcache (by simp)
  · have hmem : b ∈ cell g l x c.live (.transit t) := htransit
    apply h.next b
    apply h.settled
    apply settled_of_mem hinv hmem
    intro u hu following
    obtain rfl : t = u := TlFreelistInterleaving.Place.transit.inj hu
    exact h.threads ▸ hpush b following

/-- Only `push` and `pop` change `head`. -/
theorem head_of_step (hpops : pops batchSize (s.threads t).pc = false)
    (hpush : ∀ node following, (s.threads t).pc ≠ .pushNode node following)
    (hexec : TlFreelistInterleaving.exec batchSize s (.step t) = some s') :
    s'.head = s.head := by
  simp only [TlFreelistInterleaving.exec] at hexec
  cases hpc : (s.threads t).pc with
  | refillPop =>
      rw [hpc] at hpops
      cases hpops
  | refillMore start tail count =>
      rw [hpc] at hpops
      have hmore : ¬ count < batchSize := of_decide_eq_false hpops
      simp only [hpc, callStep, refillStep, Option.none_or, if_neg hmore] at hexec
      cases hexec
      rfl
  | pushNode node following => exact (hpush node following hpc).elim
  | _ =>
      simp only [hpc, callStep, refillStep, flushStep, Option.none_or,
        Option.or_none] at hexec
      repeat' split at hexec
      all_goals cases hexec
      all_goals rfl

/-- A step that is no `push` is the same step of both machines. -/
theorem Alike.step (h : Alike s c) (hinv : Inv pool g l x c)
    (hpush : ∀ node following, (s.threads t).pc ≠ .pushNode node following)
    (hexec : TlFreelistInterleaving.exec batchSize s (.step t) = some s') :
    ∃ c', TlFreelistInterleaving.exec batchSize c (.step t) = some c' ∧ Alike s' c' ∧
      ∀ b, b ∉ l t ++ x t → s'.next b = s.next b := by
  have hfoot := footprint hexec
  have hat : At c.next (s.threads t).localHead (l t) (x t) (s.threads t).pc :=
    h.threads ▸ hinv.holds t
  have htop : s.head.ptr ≠ 0 → s.next s.head.ptr = c.next s.head.ptr := by
    intro hne
    obtain ⟨rest, heq, -⟩ := hinv.chain.pop (h.head ▸ hne)
    have hmem : s.head.ptr ∈ cell g l x c.live .global := by
      rw [cell, heq, h.head]
      exact List.mem_cons_self
    exact h.next_eq hinv hmem (by simp)
  obtain ⟨c', hc', hfollows⟩ :=
    step_local s.live hat (h.next_held hinv hpush) htop hexec
  have hc : c = { s with next := c.next, live := s.live } := h.eq
  rw [← hc] at hc'
  refine ⟨c', hc', ?_, fun b hb => (hfollows.frame b hb).1⟩
  have heq := hfollows.eq
  rw [← hfoot.live] at heq
  exact
    { head := (congrArg TlFreelistInterleaving.State.head heq).symm
      bulkLock := (congrArg TlFreelistInterleaving.State.bulkLock heq).symm
      threads := (congrArg TlFreelistInterleaving.State.threads heq).symm
      live := (congrArg TlFreelistInterleaving.State.live heq).symm
      next := fun b hb => by
        apply hfollows.agree
        exact h.next b (settled_of_step hpush hfoot.others hb) }

end Outside

/-! ## The simulation -/

/-- The machine `s` of atomic steps and the machine `c` whose steps are whole `push` and
`pop`. -/
structure Refines (a : Allocator) (next : Heap) (s : State)
    (c : TlFreelistInterleaving.State) : Prop where
  reach : Reachable (TlFreelistInterleaving.steps a next) c
  alike : Alike s.outer c
  fits : ∀ t, Fits a.batchSize s.outer (s.outer.threads t).pc (s.inner t)

section Simulation

variable {blockSz numBlocks batch t : Nat} {a : Allocator} {next : Heap}
variable {pool : Nat → Prop} {g : List Nat} {l x : Nat → List Nat} {s s' : State}
variable {c c' : TlFreelistInterleaving.State} {inner : Inner}

/-- While a thread has the mutex the others are outside. -/
theorem Refines.alone (h : Refines a next s c) (ht : (s.outer.threads t).pc.locked = true)
    {u : Nat} (hu : u ≠ t) : s.inner u = .outside := by
  by_contra hin
  have hexclusive := exclusive_of_reachable h.reach
  have hlocked : (s.outer.threads u).pc.locked = true := (h.fits u).locked hin
  rw [h.alike.threads] at ht hlocked
  exact hu (hexclusive.unique hlocked ht)

/-- What a thread relies on is not among the nodes written. -/
theorem Refines.fits_of (h : Refines a next s c) (hinv : Inv pool g l x c)
    {o : TlFreelistInterleaving.State} {u : Nat} (held : List Nat)
    (hhead : o.head = s.outer.head) (hthreads : o.threads u = s.outer.threads u)
    (hframe : ∀ b, b ∉ held → o.next b = s.outer.next b) (hglobal : ∀ b ∈ held, b ∉ g)
    (htransit : ∀ b ∈ held, b ∉ x u) :
    Fits a.batchSize o (o.threads u).pc (s.inner u) := by
  rw [hthreads]
  apply (h.fits u).congr hhead
  · intro hne
    apply hframe
    intro hmem
    obtain ⟨rest, heq, -⟩ := hinv.chain.pop (h.alike.head ▸ hne)
    apply hglobal _ hmem
    rw [heq, h.alike.head]
    exact List.mem_cons_self
  · intro node following hpc
    apply hframe
    intro hmem
    rw [h.alike.threads] at hpc
    obtain ⟨-, rest, heq, -⟩ := hinv.holds_at hpc
    apply htransit _ hmem
    rw [heq]
    exact List.mem_cons_self

/-- What answers a step: a step of `c` the users cannot tell from it, or none. -/
def Answers (a : Allocator) (next : Heap) (s : State) (e : Event) (s' : State)
    (c : TlFreelistInterleaving.State) : Prop :=
  (Refines a next s' c ∧ note s.outer e.outer s'.outer = []) ∨
    ∃ c', TlFreelistInterleaving.exec a.batchSize c e.outer = some c' ∧ Refines a next s' c'

/-- A step inside `push` or `pop` that leaves the list alone. -/
theorem Refines.stutter (h : Refines a next s c) {spurious : Bool}
    (hin : (s.outer.threads t).pc.locked = true) (hthreads : s'.outer.threads = s.outer.threads)
    (halike : Alike s'.outer c) (hinner : s'.inner = Function.update s.inner t inner)
    (hfits : Fits a.batchSize s'.outer (s.outer.threads t).pc inner) :
    Answers a next s (.step t spurious) s' c := by
  refine .inl ⟨⟨h.reach, halike, fun u => ?_⟩, ?_⟩
  · rw [hthreads, hinner]
    by_cases hu : u = t
    · rw [hu, Function.update_self]
      exact hfits
    · rw [Function.update_of_ne hu, h.alone hin hu]
      trivial
  · simp only [Event.outer, note, hthreads]
    apply if_neg
    intro hidle
    rw [hidle] at hin
    cases hin

/-- The step by which a `push` or `pop` takes effect. -/
theorem Refines.effect (h : Refines a next s c) {spurious : Bool}
    (hin : (s.outer.threads t).pc.locked = true)
    (hexec : TlFreelistInterleaving.exec a.batchSize c (.step t) = some c')
    (halike : Alike s'.outer c') (hinner : s'.inner = Function.update s.inner t .outside) :
    Answers a next s (.step t spurious) s' c := by
  refine .inr ⟨c', hexec, h.reach.step hexec, halike, fun u => ?_⟩
  rw [hinner]
  by_cases hu : u = t
  · rw [hu, Function.update_self]
    trivial
  · rw [Function.update_of_ne hu, h.alone hin hu]
    trivial

/-- A step that is not inside `push` or `pop`. -/
theorem Refines.outside (h : Refines a next s c) {spurious : Bool} (hinv : Inv pool g l x c)
    (hout : s.inner t = .outside) (hpops : pops a.batchSize (s.outer.threads t).pc = false)
    (hpush : ∀ node following, (s.outer.threads t).pc ≠ .pushNode node following)
    {o : TlFreelistInterleaving.State}
    (hexec : TlFreelistInterleaving.exec a.batchSize s.outer (.step t) = some o) :
    Answers a next s (.step t spurious) { s with outer := o } c := by
  have hfoot := footprint hexec
  have hhead := head_of_step hpops hpush hexec
  obtain ⟨c', hc', halike, hframe⟩ := h.alike.step hinv hpush hexec
  refine .inr ⟨c', hc', h.reach.step hc', halike, fun u => ?_⟩
  by_cases hu : u = t
  · show Fits a.batchSize o (o.threads u).pc (s.inner u)
    rw [hu, hout]
    trivial
  · apply h.fits_of hinv _ hhead (hfoot.others u hu) hframe
    · intro b hb
      exact hinv.notMem_global hb
    · intro b hb hmem
      exact hinv.notMem_others hb hu (List.mem_append_right _ hmem)

/-- The `pop` of the other machine, by where `pop_bulk` goes on. -/
theorem exec_pop {c : TlFreelistInterleaving.State} {pc : Pc} {batchSize : Nat}
    (hpc : (c.threads t).pc = pc) (hpops : pops batchSize pc = true) :
    TlFreelistInterleaving.exec batchSize c (.step t) =
      some ({ c with head := (pop c.next c.head).2 }.goto t
        (afterPop (pop c.next c.head).1 pc)) := by
  cases pc with
  | refillPop =>
      simp only [TlFreelistInterleaving.exec, hpc, callStep, refillStep, afterPop,
        Option.none_or]
      split
      · rfl
      · rfl
  | refillMore start tail count =>
      have hmore : count < batchSize := of_decide_eq_true hpops
      simp only [TlFreelistInterleaving.exec, hpc, callStep, refillStep, afterPop,
        Option.none_or, if_pos hmore]
      split
      · rfl
      · rfl
  | _ => simp [pops] at hpops

theorem exec_push (batchSize : Nat) {c : TlFreelistInterleaving.State}
    {node following : Nat}
    (hpc : (c.threads t).pc = .pushNode node following) :
    TlFreelistInterleaving.exec batchSize c (.step t) =
      some ({ c with next := (push c.next c.head node).1,
                     head := (push c.next c.head node).2 }.goto t (.pushRead following)) := by
  simp only [TlFreelistInterleaving.exec, hpc, callStep, refillStep, flushStep, Option.none_or]

theorem pops_not_push {pc : Pc} {batchSize : Nat} (h : pops batchSize pc = true) :
    ∀ node following, pc ≠ .pushNode node following := by
  rintro node following rfl
  cases h

/-- Thread `t` goes on from a `pop`: no node becomes settled. -/
theorem Alike.popped {s : TlFreelistInterleaving.State} (h : Alike s c)
    (hpush : ∀ node following, (s.threads t).pc ≠ .pushNode node following)
    {head head' : TaggedPtr} (hhead : head = head') (pc : Pc) :
    Alike ({ s with head := head }.goto t pc) ({ c with head := head' }.goto t pc) := by
  obtain ⟨n, rfl⟩ : ∃ n, c = { s with next := n } := ⟨c.next, h.eq⟩
  subst hhead
  refine ⟨rfl, rfl, rfl, rfl, ?_⟩
  intro b hb
  exact h.next b (settled_of_step hpush (fun u hu => Function.update_of_ne hu _ _) hb)

/-- The load of `head`. -/
theorem Refines.load (h : Refines a next s c) {spurious : Bool} (hinv : Inv pool g l x c)
    (hout : s.inner t = .outside)
    (hexec : outsideStep a.batchSize s t (s.outer.threads t).pc = some s') :
    Answers a next s (.step t spurious) s' c := by
  by_cases hpush : ∃ node following, (s.outer.threads t).pc = .pushNode node following
  · obtain ⟨node, following, hpc⟩ := hpush
    rw [hpc] at hexec
    cases hexec
    refine h.stutter ?_ rfl h.alike rfl ?_
    · rw [hpc]
      rfl
    · rw [hpc]
      exact ⟨⟨following, rfl⟩, rfl⟩
  · have hother : ∀ node following, (s.outer.threads t).pc ≠ .pushNode node following := by
      intro node following hpc
      exact hpush ⟨node, following, hpc⟩
    have heq : outsideStep a.batchSize s t (s.outer.threads t).pc =
        if pops a.batchSize (s.outer.threads t).pc then
          if s.outer.head.ptr = 0 then
            some { s with outer := s.outer.goto t (afterPop 0 (s.outer.threads t).pc) }
          else some (s.enter t (.popNext s.outer.head))
        else (TlFreelistInterleaving.exec a.batchSize s.outer (.step t)).map fun outer =>
          { s with outer := outer } := by
      cases hpc : (s.outer.threads t).pc with
      | pushNode node following => exact (hother node following hpc).elim
      | _ => rfl
    rw [heq] at hexec
    split at hexec
    · next hpops =>
        have hin := pops_locked hpops
        split at hexec
        · next hnull =>
            cases hexec
            have hpop : pop c.next c.head = (0, c.head) := pop_null (h.alike.head ▸ hnull)
            have hcoarse := exec_pop (c := c) (by rw [h.alike.threads]) hpops
            rw [hpop] at hcoarse
            have hinner : s.inner = Function.update s.inner t .outside := by
              rw [← hout, Function.update_eq_self]
            exact h.effect hin hcoarse (h.alike.popped hother h.alike.head _) hinner
        · next hne =>
            cases hexec
            exact h.stutter hin rfl h.alike rfl ⟨hpops, rfl, hne⟩
    · next hpops =>
        obtain ⟨o, ho, rfl⟩ := Option.map_eq_some_iff.mp hexec
        exact h.outside hinv hout (Bool.eq_false_iff.mpr hpops) hother ho

/-- The exchange of a `pop` finds the head it has loaded. -/
theorem Refines.popExchange (h : Refines a next s c) {spurious : Bool} {old : TaggedPtr}
    {following : Nat} (hinv : Inv pool g l x c) (hin : s.inner t = .popExchange old following)
    (hexec : innerStep a.batchSize s t spurious (.popExchange old following) = some s') :
    Answers a next s (.step t spurious) s' c := by
  have hfits := h.fits t
  rw [hin] at hfits
  obtain ⟨hpops, rfl, hne, rfl⟩ := hfits
  have hlocked := pops_locked hpops
  simp only [innerStep] at hexec
  split at hexec
  · cases hexec
    have hne' : c.head.ptr ≠ 0 := h.alike.head ▸ hne
    obtain ⟨rest, heq, -⟩ := hinv.chain.pop hne'
    have hmem : c.head.ptr ∈ cell g l x c.live .global := by
      rw [cell, heq]
      exact List.mem_cons_self
    have hread : s.outer.next c.head.ptr = c.next c.head.ptr :=
      h.alike.next_eq hinv hmem (by simp)
    have hcoarse := exec_pop (c := c) (by rw [h.alike.threads]) hpops
    rw [pop_top hne', ← hread, ← h.alike.head] at hcoarse
    exact h.effect hlocked hcoarse (h.alike.popped (pops_not_push hpops) rfl _) rfl
  · cases hexec
    exact h.stutter hlocked rfl h.alike rfl trivial

/-- So does the exchange of a `push`. -/
theorem Refines.pushExchange (h : Refines a next s c) {spurious : Bool} {old : TaggedPtr}
    {node : Nat} (hin : s.inner t = .pushExchange node old)
    (hexec : innerStep a.batchSize s t spurious (.pushExchange node old) = some s') :
    Answers a next s (.step t spurious) s' c := by
  have hfits := h.fits t
  rw [hin] at hfits
  obtain ⟨⟨following, hpc⟩, rfl, hlink⟩ := hfits
  have hlocked : (s.outer.threads t).pc.locked = true := by
    rw [hpc]
    rfl
  simp only [innerStep] at hexec
  split at hexec
  · cases hexec
    have hcoarse := exec_push a.batchSize (c := c) (h.alike.threads ▸ hpc)
    have halike := h.alike
    apply h.effect hlocked hcoarse ?_ rfl
    obtain ⟨n, rfl⟩ : ∃ n, c = { s.outer with next := n } := ⟨c.next, halike.eq⟩
    rw [hpc]
    refine ⟨rfl, rfl, rfl, rfl, ?_⟩
    intro b hb
    show s.outer.next b = Function.update n node s.outer.head.ptr b
    by_cases hnode : b = node
    · rw [hnode, hlink, Function.update_self]
    · rw [Function.update_of_ne hnode]
      apply halike.next b
      intro u following' hu
      by_cases hut : u = t
      · rw [hut, hpc] at hu
        cases hu
        exact hnode rfl
      · apply hb u following'
        show (Function.update s.outer.threads t _ u).pc = _
        rw [Function.update_of_ne hut]
        exact hu
  · cases hexec
    exact h.stutter hlocked rfl h.alike rfl trivial

/-- A step of the inner loops. -/
theorem Refines.steps (h : Refines a next s c) {spurious : Bool} (hinv : Inv pool g l x c)
    (hexec : innerStep a.batchSize s t spurious (s.inner t) = some s') :
    Answers a next s (.step t spurious) s' c := by
  have hfits := h.fits t
  cases hin : s.inner t with
  | outside =>
      rw [hin] at hexec
      exact h.load hinv hin hexec
  | popNext old =>
      rw [hin] at hexec hfits
      cases hexec
      obtain ⟨hpops, hold, hne⟩ := hfits
      exact h.stutter (pops_locked hpops) rfl h.alike rfl ⟨hpops, hold, hne, rfl⟩
  | popExchange old following => exact h.popExchange hinv hin (hin ▸ hexec)
  | pushLink node old =>
      rw [hin] at hexec hfits
      cases hexec
      obtain ⟨⟨following, hpc⟩, hold⟩ := hfits
      refine h.stutter ?_ rfl ?_ rfl ⟨⟨following, hpc⟩, hold, Function.update_self ..⟩
      · rw [hpc]
        rfl
      · -- the node is not settled before its exchange
        refine ⟨h.alike.head, h.alike.bulkLock, h.alike.threads, h.alike.live, ?_⟩
        intro b hb
        have hne : b ≠ node := by
          rintro rfl
          exact hb t following hpc
        show Function.update s.outer.next node old.ptr b = c.next b
        rw [Function.update_of_ne hne]
        exact h.alike.next b hb
  | pushExchange node old => exact h.pushExchange hin (hin ▸ hexec)

/-- A thread starts a call. -/
theorem Refines.called (h : Refines a next s c) (hidle : (s.outer.threads t).pc = .idle)
    (pc : Pc) (live : List Nat) {e : Event}
    (hexec : TlFreelistInterleaving.exec a.batchSize c e.outer =
      some { c.goto t pc with live := live }) :
    Answers a next s e { s with outer := { s.outer.goto t pc with live := live } } c := by
  have halike := h.alike
  obtain ⟨n, rfl⟩ : ∃ n, c = { s.outer with next := n } := ⟨c.next, halike.eq⟩
  refine .inr ⟨_, hexec, h.reach.step hexec, ⟨rfl, rfl, rfl, rfl, ?_⟩, fun u => ?_⟩
  · intro b hb
    have hpush : ∀ node following, (s.outer.threads t).pc ≠ .pushNode node following := by
      simp [hidle]
    exact halike.next b (settled_of_step hpush (fun u hu => Function.update_of_ne hu _ _) hb)
  · by_cases hu : u = t
    · have hout : s.inner t = .outside := by
        by_contra hin
        have hlocked := (h.fits t).locked hin
        rw [hidle] at hlocked
        cases hlocked
      show Fits a.batchSize _ _ (s.inner u)
      rw [hu, hout]
      trivial
    · have hfits := h.fits u
      show Fits a.batchSize _ (Function.update s.outer.threads t _ u).pc (s.inner u)
      rw [Function.update_of_ne hu]
      exact hfits.congr rfl (fun _ => rfl) fun _ _ _ => rfl

/-- A user writes to a live block. -/
theorem Refines.scribble (h : Refines a next s c) (hinv : Inv pool g l x c)
    {block value : Nat} (hmem : block ∈ s.outer.live) :
    Answers a next s (.scribble block value)
      { s with outer := { s.outer with
        next := Function.update s.outer.next block value } } c := by
  have hexec : TlFreelistInterleaving.exec a.batchSize c (.scribble block value) =
      some { c with next := Function.update c.next block value } :=
    if_pos (h.alike.live ▸ hmem)
  have huser : block ∈ cell g l x c.live .user := h.alike.live ▸ hmem
  refine .inr ⟨_, hexec, h.reach.step hexec, ?_, fun u => ?_⟩
  · refine ⟨h.alike.head, h.alike.bulkLock, h.alike.threads, h.alike.live, ?_⟩
    intro b hb
    show Function.update s.outer.next block value b = Function.update c.next block value b
    by_cases hblock : b = block
    · rw [hblock, Function.update_self, Function.update_self]
    · rw [Function.update_of_ne hblock, Function.update_of_ne hblock]
      exact h.alike.next b hb
  · refine h.fits_of hinv [block] rfl rfl ?_ ?_ ?_
    · intro b hb
      exact Function.update_of_ne (List.ne_of_not_mem_cons hb) _ _
    · intro b hb
      rw [List.mem_singleton.mp hb]
      exact hinv.ledger.notMem (l := .global) huser (fun heq => nomatch heq)
    · intro b hb
      rw [List.mem_singleton.mp hb]
      exact hinv.ledger.notMem (l := .transit u) huser (fun heq => nomatch heq)

/-- Every step is answered. -/
theorem Refines.answers (ha : Constructed blockSz numBlocks batch a next)
    (h : Refines a next s c) {e : Event} (hexec : exec a.batchSize s e = some s') :
    Answers a next s e s' c := by
  obtain ⟨g, l, x, hinv⟩ := partitioned_of_reachable ha h.reach
  cases e with
  | callAlloc t =>
      obtain ⟨o, ho, rfl⟩ := Option.map_eq_some_iff.mp hexec
      simp only [Event.outer, TlFreelistInterleaving.exec, Option.ite_none_right_eq_some,
        Option.some.injEq] at ho
      obtain ⟨hidle, rfl⟩ := ho
      apply h.called hidle .allocTest s.outer.live
      rw [h.alike.threads] at hidle
      rw [Event.outer, TlFreelistInterleaving.exec, if_pos hidle, h.alike.live]
      rfl
  | callDealloc t ptr =>
      obtain ⟨o, ho, rfl⟩ := Option.map_eq_some_iff.mp hexec
      simp only [Event.outer, TlFreelistInterleaving.exec,
        Option.ite_none_right_eq_some] at ho
      obtain ⟨hidle, ho⟩ := ho
      have hidle' : (c.threads t).pc = .idle := h.alike.threads ▸ hidle
      split at ho
      · next hnull =>
          cases ho
          have hsame : TlFreelistInterleaving.exec a.batchSize c (.callDealloc t ptr) =
              some c := by
            rw [TlFreelistInterleaving.exec, if_pos hidle', if_pos hnull]
          exact .inr ⟨c, hsame, h⟩
      · next hne =>
          simp only [Option.ite_none_right_eq_some, Option.some.injEq] at ho
          obtain ⟨hmem, rfl⟩ := ho
          apply h.called hidle (.deallocLink ptr) (s.outer.live.erase ptr)
          rw [h.alike.live] at hmem ⊢
          rw [Event.outer, TlFreelistInterleaving.exec, if_pos hidle', if_neg hne,
            if_pos hmem]
  | step t spurious => exact h.steps hinv hexec
  | scribble block value =>
      obtain ⟨o, ho, rfl⟩ := Option.map_eq_some_iff.mp hexec
      simp only [Event.outer, TlFreelistInterleaving.exec, Option.ite_none_right_eq_some,
        Option.some.injEq] at ho
      obtain ⟨hmem, rfl⟩ := ho
      exact h.scribble hinv hmem

/-- The nodes are where they are in the other machine. -/
theorem Alike.partitioned {s : TlFreelistInterleaving.State} (h : Alike s c)
    (hinv : Inv pool g l x c) : Inv pool g l x s where
  chain := by
    rw [h.head]
    apply Segment.congr ?_ hinv.chain
    intro b hb
    exact h.next_eq (k := .global) hinv hb (by simp)
  ledger := h.live ▸ hinv.ledger
  holds t := by
    have hholds := hinv.holds t
    rw [← h.threads] at hholds
    by_cases hpush : ∃ node following, (s.threads t).pc = .pushNode node following
    · -- the link of the node that is being pushed does not matter
      obtain ⟨node, following, hpc⟩ := hpush
      rw [hpc] at hholds ⊢
      obtain ⟨hchain, rest, heq, hrest⟩ := hholds
      have hnodup : (node :: rest).Nodup := heq ▸ hinv.ledger.nodup (.transit t)
      refine ⟨Segment.congr ?_ hchain, rest, heq, Segment.congr ?_ hrest⟩
      · intro b hb
        exact h.next_eq (k := .cache t) hinv hb (by simp)
      · intro b hb
        have hmem : b ∈ cell g l x c.live (.transit t) := by
          rw [cell, heq]
          exact List.mem_cons_of_mem node hb
        apply h.next b
        apply h.settled
        apply settled_of_mem hinv hmem
        intro u hu following' hpc'
        obtain rfl : t = u := TlFreelistInterleaving.Place.transit.inj hu
        rw [← h.threads, hpc] at hpc'
        cases hpc'
        exact (List.nodup_cons.mp hnodup).1 hb
    · apply At.congr ?_ hholds
      apply h.next_held hinv
      intro node following hpc
      exact hpush ⟨node, following, hpc⟩
  null := hinv.null

/-- The machine of atomic steps has the histories of the other. -/
theorem refined_of_reachable (ha : Constructed blockSz numBlocks batch a next)
    {past : List (Mark Nat Call Nat)} (h : Reachable (histories a next) (s, past)) :
    ∃ c, Reachable (TlFreelistLinearizable.histories a next) (c, past) ∧
      Refines a next s c := by
  refine h.simulate_recorded (Refines a next) ?_ ?_
  · rintro s rfl
    refine ⟨_, rfl, .init rfl, ⟨rfl, rfl, rfl, rfl, fun b _ => rfl⟩, fun t => trivial⟩
  · intro s c e s' hrefines hexec
    rcases hrefines.answers ha hexec with ⟨hrefines', hsilent⟩ | ⟨c', hc', hrefines'⟩
    · refine .inl ⟨hrefines', fun past => ?_⟩
      rw [hsilent, List.nil_append]
    · refine .inr ⟨e.outer, c', hc', hrefines', fun past => ?_⟩
      rw [note_congr hrefines.alike.threads hrefines'.alike.threads]

/-- What holds between any two atomic steps. -/
structure Refined (a : Allocator) (next : Heap) (s : State)
    (past : List (Mark Nat Call Nat)) : Prop where
  /-- List, caches, transit and user have every block once. -/
  partitioned : Partitioned (IsBlock a) s.outer
  /-- An exchange finds the head that was loaded and the link that was read. -/
  pop : ∀ t old following, s.inner t = .popExchange old following →
    s.outer.head = old ∧ following = s.outer.next old.ptr
  push : ∀ t node old, s.inner t = .pushExchange node old →
    s.outer.head = old ∧ s.outer.next node = old.ptr
  /-- The users see a history of the machine whose steps are whole `push` and `pop`, -/
  coarse : ∃ c, Reachable (TlFreelistLinearizable.histories a next) (c, past) ∧
    Alike s.outer c
  /-- and so one of whole calls. -/
  linear : ∃ c, Linearized (object a next) past c

/-- Between any two atomic steps nothing is lost and the calls are linearizable, without
any assumption on the tag. -/
theorem atomics_refine (blockSz numBlocks batch : Nat) (a : Allocator) (next : Heap)
    (ha : Constructed blockSz numBlocks batch a next) (s : State)
    (past : List (Mark Nat Call Nat)) (h : Reachable (histories a next) (s, past)) :
    Refined a next s past := by
  obtain ⟨c, hcoarse, hrefines⟩ := refined_of_reachable ha h
  obtain ⟨g, l, x, hinv⟩ := partitioned_of_reachable ha hrefines.reach
  obtain ⟨d, hlinear, -⟩ := related_of_reachable ha hcoarse
  exact
    { partitioned := ⟨g, l, x, hrefines.alike.partitioned hinv⟩
      pop := fun t old following hin => by
        have hfits := hrefines.fits t
        rw [hin] at hfits
        exact ⟨hfits.2.1, hfits.2.2.2⟩
      push := fun t node old hin => by
        have hfits := hrefines.fits t
        rw [hin] at hfits
        exact hfits.2
      coarse := ⟨c, hcoarse, hrefines.alike⟩
      linear := ⟨d, hlinear⟩ }

/-- Thread 0 allocates; the first exchange of its refill fails spuriously, and thread 1
calls in between. -/
def slipped : List Event :=
  .callAlloc 0 :: List.replicate 4 (.step 0 false) ++ [.step 0 true, .callAlloc 1] ++
    List.replicate 17 (.step 0 false)

theorem atomics_refine_tlPool3 : ∃ s,
    replay (record (exec 2) fun s e s' past => note s.outer e.outer s'.outer ++ past)
      (start TlFreelistAllocator.tlPool3 TlFreelistAllocator.tlHeap3, []) slipped =
        some s ∧
    s.2 = [.ret 0 4224, .call 1 .alloc, .call 0 .alloc] ∧
    Refined TlFreelistAllocator.tlPool3 TlFreelistAllocator.tlHeap3 s.1 s.2 :=
  ⟨_, rfl, rfl, atomics_refine 48 3 2 _ _ TlFreelistAllocator.tlPool3_constructed _ _
    (Reachable.replay
      (s := (start TlFreelistAllocator.tlPool3 TlFreelistAllocator.tlHeap3, []))
      slipped (.init ⟨rfl, rfl⟩) rfl)⟩

end Simulation

end PoolMemalloc.Ports.TlFreelistAtomics
