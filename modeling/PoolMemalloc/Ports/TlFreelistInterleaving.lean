import PoolMemalloc.Ports.TlFreelistAllocator
import PoolMemalloc.Verified.Conservation
import PoolMemalloc.Verified.Transition

/-!
# Concurrent use of one `ThreadLocalFreelistAllocator`

Any number of threads run `ThreadCache::alloc` and `dealloc`, with the `refill`,
`flush`, `pop_bulk` and `push_bulk` under them, one step at a time.  A `push` or
`pop` of the global list is one step (`PoolMemalloc.Ports.FreelistInterleaving`
is about those), as is the taking of the bulk mutex; every other read or write of
a `next` field, and every assignment to the cache, is a step of its own.  Users
overwrite the `next` fields of live blocks at any time.

`At` says which nodes a thread holds at each point of the code: those of its
local chain and those in transit between it and the global list or the user.
`Inv` adds that global list, local chains, transit and user partition the blocks.
A step of one thread writes only to nodes that thread holds, so the others' `At`
is kept by one frame lemma, `At.congr`.
-/

namespace PoolMemalloc.Ports.TlFreelistInterleaving

open PoolMemalloc.Verified.SizeT
open PoolMemalloc.Verified.Transition
open PoolMemalloc.Verified.LinkedChain
open PoolMemalloc.Verified.Conservation
open PoolMemalloc.Ports.BlockArray
open PoolMemalloc.Ports.FreelistAllocator
open PoolMemalloc.Ports.TlFreelistAllocator (Allocator Constructed blocksOf
  mem_blocksOf nodup_blocksOf zero_notMem_blocksOf)

/-- Where a thread is between two of its steps, with the local variables it still
needs. -/
inductive Pc
  | idle
  /-- `alloc`, before the test of `local_size`. -/
  | allocTest
  /-- `pop_bulk`, before it takes the mutex. -/
  | refillLock
  /-- Before the first `pop`. -/
  | refillPop
  /-- Head of the `while (count < n)` loop, with the `pop` in its body. -/
  | refillMore (start tail count : Nat)
  /-- Before `tail->next = next`. -/
  | refillLink (start tail count following : Nat)
  /-- Before `tail->next = nullptr`. -/
  | refillNull (start tail : Nat)
  /-- `pop_bulk` is about to release the mutex and return `batch`. -/
  | refillUnlock (batch : Nat)
  /-- Head of the `while (tail->next)` loop. -/
  | refillWalk (batch tail count : Nat)
  /-- Before `tail = tail->next`. -/
  | refillAdvance (batch tail count : Nat)
  /-- Before `tail->next = local_head`. -/
  | refillSplice (batch tail count : Nat)
  /-- Before the assignments to `local_head` and `local_size`. -/
  | refillSet (batch count : Nat)
  /-- Before the test of `local_head`. -/
  | allocTake
  /-- `alloc` is about to return `block`. -/
  | allocated (block : Nat)
  /-- `dealloc`, before `block->next = local_head`. -/
  | deallocLink (block : Nat)
  | deallocSet (block : Nat)
  | flushTest (excess : Nat)
  /-- Head of the `while (count < excess && batch_tail->next)` loop. -/
  | flushWalk (excess batchHead batchTail count : Nat)
  | flushAdvance (excess batchHead batchTail count : Nat)
  /-- Before `local_head = batch_tail->next`. -/
  | flushCut (batchHead batchTail count : Nat)
  | flushNull (batchHead batchTail count : Nat)
  | flushShrink (batchHead batchTail count : Nat)
  /-- `push_bulk`, before it takes the mutex. -/
  | pushLock (batchHead batchTail : Nat)
  | pushNull (batchHead batchTail : Nat)
  /-- Head of the `while (node)` loop, before the read of `node->next`. -/
  | pushRead (node : Nat)
  /-- Before `push(node)`. -/
  | pushNode (node following : Nat)
  | pushUnlock
  deriving Repr, DecidableEq

/-- A thread's program counter and its `ThreadCache`. -/
structure Thread where
  pc : Pc
  localHead : Nat
  localSize : Nat
  deriving Repr, DecidableEq

structure State where
  next : Heap
  head : TaggedPtr
  bulkLock : Option Nat
  threads : Nat → Thread
  live : List Nat

inductive Event
  | callAlloc (thread : Nat)
  | callDealloc (thread ptr : Nat)
  /-- The next step of a running call. -/
  | step (thread : Nat)
  | scribble (block value : Nat)
  deriving Repr, DecidableEq

def State.setThread (s : State) (t : Nat) (th : Thread) : State :=
  { s with threads := Function.update s.threads t th }

def State.goto (s : State) (t : Nat) (pc : Pc) : State :=
  s.setThread t { s.threads t with pc := pc }

/-- Write `block->next` and go on. -/
def State.write (s : State) (block value t : Nat) (pc : Pc) : State :=
  { s with next := Function.update s.next block value }.goto t pc

/-- The steps of `refill`, with `pop_bulk(batch_size)` inlined. -/
def refillStep (batchSize : Nat) (s : State) (t : Nat) : Pc → Option State
  | .refillLock =>
      if s.bulkLock = none then
        some ({ s with bulkLock := some t }.goto t .refillPop)
      else none
  | .refillPop =>
      let popped := pop s.next s.head
      if popped.1 = 0 then some ({ s with head := popped.2 }.goto t (.refillUnlock 0))
      else some ({ s with head := popped.2 }.goto t (.refillMore popped.1 popped.1 1))
  | .refillMore start tail count =>
      if count < batchSize then
        let popped := pop s.next s.head
        if popped.1 = 0 then
          some ({ s with head := popped.2 }.goto t (.refillNull start tail))
        else
          some ({ s with head := popped.2 }.goto t
            (.refillLink start tail count popped.1))
      else some (s.goto t (.refillNull start tail))
  | .refillLink start tail count following =>
      some (s.write tail following t (.refillMore start following (wrap (count + 1))))
  | .refillNull start tail => some (s.write tail 0 t (.refillUnlock start))
  | .refillUnlock batch =>
      if batch = 0 then some ({ s with bulkLock := none }.goto t .allocTake)
      else some ({ s with bulkLock := none }.goto t (.refillWalk batch batch 1))
  | .refillWalk batch tail count =>
      if s.next tail ≠ 0 then some (s.goto t (.refillAdvance batch tail count))
      else some (s.goto t (.refillSplice batch tail count))
  | .refillAdvance batch tail count =>
      some (s.goto t (.refillWalk batch (s.next tail) (wrap (count + 1))))
  | .refillSplice batch tail count =>
      some (s.write tail (s.threads t).localHead t (.refillSet batch count))
  | .refillSet batch count =>
      some (s.setThread t
        { pc := .allocTake
          localHead := batch
          localSize := wrap ((s.threads t).localSize + count) })
  | _ => none

/-- The steps of `flush`, with `push_bulk` inlined. -/
def flushStep (s : State) (t : Nat) : Pc → Option State
  | .flushTest excess =>
      if (s.threads t).localHead = 0 ∨ excess = 0 then some (s.goto t .idle)
      else some (s.goto t (.flushWalk excess (s.threads t).localHead
        (s.threads t).localHead 1))
  | .flushWalk excess batchHead batchTail count =>
      if count < excess ∧ s.next batchTail ≠ 0 then
        some (s.goto t (.flushAdvance excess batchHead batchTail count))
      else some (s.goto t (.flushCut batchHead batchTail count))
  | .flushAdvance excess batchHead batchTail count =>
      some (s.goto t (.flushWalk excess batchHead (s.next batchTail)
        (wrap (count + 1))))
  | .flushCut batchHead batchTail count =>
      some (s.setThread t
        { s.threads t with
          pc := .flushNull batchHead batchTail count
          localHead := s.next batchTail })
  | .flushNull batchHead batchTail count =>
      some (s.write batchTail 0 t (.flushShrink batchHead batchTail count))
  | .flushShrink batchHead batchTail count =>
      some (s.setThread t
        { s.threads t with
          pc := .pushLock batchHead batchTail
          localSize := wrapSub (s.threads t).localSize count })
  | .pushLock batchHead batchTail =>
      if s.bulkLock = none then
        some ({ s with bulkLock := some t }.goto t (.pushNull batchHead batchTail))
      else none
  | .pushNull batchHead batchTail => some (s.write batchTail 0 t (.pushRead batchHead))
  | .pushRead node =>
      if node = 0 then some (s.goto t .pushUnlock)
      else some (s.goto t (.pushNode node (s.next node)))
  | .pushNode node following =>
      let pushed := push s.next s.head node
      some ({ s with next := pushed.1, head := pushed.2 }.goto t (.pushRead following))
  | .pushUnlock => some ({ s with bulkLock := none }.goto t .idle)
  | _ => none

/-- The steps of `alloc` and `dealloc` themselves; `low_watermark` is `batch / 2`
and `high_watermark` is `batch * 2`. -/
def callStep (batchSize : Nat) (s : State) (t : Nat) : Pc → Option State
  | .allocTest =>
      if (s.threads t).localSize ≤ batchSize / 2 then some (s.goto t .refillLock)
      else some (s.goto t .allocTake)
  | .allocTake =>
      if (s.threads t).localHead = 0 then some (s.goto t .idle)
      else
        some (s.setThread t
          { pc := .allocated (s.threads t).localHead
            localHead := s.next (s.threads t).localHead
            localSize := wrapSub (s.threads t).localSize 1 })
  | .allocated block =>
      some { s.goto t .idle with live := block :: s.live }
  | .deallocLink block =>
      some (s.write block (s.threads t).localHead t (.deallocSet block))
  | .deallocSet block =>
      let localSize := wrap ((s.threads t).localSize + 1)
      if localSize > wrap (batchSize * 2) then
        some (s.setThread t
          { pc := .flushTest (wrapSub localSize batchSize)
            localHead := block
            localSize := localSize })
      else
        some (s.setThread t
          { pc := .idle, localHead := block, localSize := localSize })
  | _ => none

/-- One step; `none` where it is not enabled. -/
def exec (batchSize : Nat) (s : State) : Event → Option State
  | .callAlloc t => if (s.threads t).pc = .idle then some (s.goto t .allocTest) else none
  | .callDealloc t ptr =>
      if (s.threads t).pc = .idle then
        if ptr = 0 then some s
        else if ptr ∈ s.live then
          some { s.goto t (.deallocLink ptr) with live := s.live.erase ptr }
        else none
      else none
  | .step t =>
      (callStep batchSize s t (s.threads t).pc).or
        ((refillStep batchSize s t (s.threads t).pc).or
          (flushStep s t (s.threads t).pc))
  | .scribble block value =>
      if block ∈ s.live then
        some { s with next := Function.update s.next block value }
      else none

/-- After the constructor, before any thread has a cache. -/
def start (a : Allocator) (next : Heap) : State where
  next := next
  head := a.global
  bulkLock := none
  threads _ := { pc := .idle, localHead := 0, localSize := 0 }
  live := []

/-- All interleavings of the threads' steps on a constructed allocator. -/
def steps (a : Allocator) (next : Heap) : System State Event :=
  ofExec (fun s => s = start a next) (exec a.batchSize)

/-! ## What a thread holds -/

/-- A thread at `pc` with local chain `l` holds the nodes `x` in transit. -/
def At (next : Heap) (localHead : Nat) (l x : List Nat) : Pc → Prop
  | .refillMore start tail _ => Chain 0 next localHead l ∧ Built 0 next start tail x
  | .refillLink start tail _ following => Chain 0 next localHead l ∧ following ≠ 0 ∧
      ∃ nodes, x = nodes ++ [following] ∧ Built 0 next start tail nodes
  | .refillNull start tail => Chain 0 next localHead l ∧ Built 0 next start tail x
  | .refillUnlock batch => Chain 0 next localHead l ∧ Chain 0 next batch x
  | .refillWalk batch tail _ => Chain 0 next localHead l ∧ Walked 0 next batch tail x
  | .refillAdvance batch tail _ => Chain 0 next localHead l ∧
      Walked 0 next batch tail x ∧ next tail ≠ 0
  | .refillSplice batch tail _ => Chain 0 next localHead l ∧ Built 0 next batch tail x
  | .refillSet batch _ => Chain 0 next localHead l ∧ Segment 0 next batch x localHead
  | .allocated block => Chain 0 next localHead l ∧ x = [block]
  | .deallocLink block => Chain 0 next localHead l ∧ x = [block]
  | .deallocSet block => Chain 0 next localHead l ∧ x = [block] ∧
      next block = localHead
  | .flushWalk _ batchHead batchTail _ => batchHead = localHead ∧ x = [] ∧
      Walked 0 next batchHead batchTail l
  | .flushAdvance _ batchHead batchTail _ => batchHead = localHead ∧ x = [] ∧
      Walked 0 next batchHead batchTail l ∧ next batchTail ≠ 0
  | .flushCut batchHead batchTail _ => batchHead = localHead ∧ x = [] ∧
      Walked 0 next batchHead batchTail l
  | .flushNull batchHead batchTail _ => Chain 0 next localHead l ∧
      Built 0 next batchHead batchTail x
  | .flushShrink batchHead batchTail _ => Chain 0 next localHead l ∧
      Built 0 next batchHead batchTail x
  | .pushLock batchHead batchTail => Chain 0 next localHead l ∧
      Built 0 next batchHead batchTail x
  | .pushNull batchHead batchTail => Chain 0 next localHead l ∧
      Built 0 next batchHead batchTail x
  | .pushRead node => Chain 0 next localHead l ∧ Chain 0 next node x
  | .pushNode node following => Chain 0 next localHead l ∧
      ∃ rest, x = node :: rest ∧ Chain 0 next following rest
  | _ => Chain 0 next localHead l ∧ x = []

section Holdings

variable {next next' : Heap} {localHead : Nat} {l x : List Nat}

/-- A thread's holdings depend only on the links of the nodes it holds. -/
theorem At.congr {pc : Pc} (hagree : ∀ b ∈ l ++ x, next' b = next b)
    (h : At next localHead l x pc) : At next' localHead l x pc := by
  have hl : ∀ b ∈ l, next' b = next b := fun b hb =>
    hagree b (List.mem_append_left x hb)
  have hx : ∀ b ∈ x, next' b = next b := fun b hb =>
    hagree b (List.mem_append_right l hb)
  have hlocal : Chain 0 next localHead l → Chain 0 next' localHead l :=
    Segment.congr hl
  cases pc with
  | refillMore start tail count => exact ⟨hlocal h.1, h.2.congr hx⟩
  | refillLink start tail count following =>
      obtain ⟨hchain, hne, nodes, rfl, hbuilt⟩ := h
      exact ⟨hlocal hchain, hne, nodes, rfl,
        hbuilt.congr fun b hb => hx b (List.mem_append_left _ hb)⟩
  | refillNull start tail => exact ⟨hlocal h.1, h.2.congr hx⟩
  | refillUnlock batch => exact ⟨hlocal h.1, Segment.congr hx h.2⟩
  | refillWalk batch tail count => exact ⟨hlocal h.1, h.2.congr hx⟩
  | refillAdvance batch tail count =>
      obtain ⟨hchain, hwalked, hne⟩ := h
      refine ⟨hlocal hchain, hwalked.congr hx, ?_⟩
      obtain ⟨front, back, rfl, -, -⟩ := hwalked
      rwa [hx tail (by simp)]
  | refillSplice batch tail count => exact ⟨hlocal h.1, h.2.congr hx⟩
  | refillSet batch count => exact ⟨hlocal h.1, h.2.congr hx⟩
  | allocated block => exact ⟨hlocal h.1, h.2⟩
  | deallocLink block => exact ⟨hlocal h.1, h.2⟩
  | deallocSet block =>
      obtain ⟨hchain, rfl, hlink⟩ := h
      exact ⟨hlocal hchain, rfl, by rw [hx block List.mem_cons_self, hlink]⟩
  | flushWalk excess batchHead batchTail count =>
      exact ⟨h.1, h.2.1, h.2.2.congr hl⟩
  | flushAdvance excess batchHead batchTail count =>
      obtain ⟨hhead, hnone, hwalked, hne⟩ := h
      refine ⟨hhead, hnone, hwalked.congr hl, ?_⟩
      obtain ⟨front, back, rfl, -, -⟩ := hwalked
      rwa [hl batchTail (by simp)]
  | flushCut batchHead batchTail count => exact ⟨h.1, h.2.1, h.2.2.congr hl⟩
  | flushNull batchHead batchTail count => exact ⟨hlocal h.1, h.2.congr hx⟩
  | flushShrink batchHead batchTail count => exact ⟨hlocal h.1, h.2.congr hx⟩
  | pushLock batchHead batchTail => exact ⟨hlocal h.1, h.2.congr hx⟩
  | pushNull batchHead batchTail => exact ⟨hlocal h.1, h.2.congr hx⟩
  | pushRead node => exact ⟨hlocal h.1, Segment.congr hx h.2⟩
  | pushNode node following =>
      obtain ⟨hchain, rest, rfl, hrest⟩ := h
      exact ⟨hlocal hchain, rest, rfl,
        Segment.congr (fun b hb => hx b (List.mem_cons_of_mem _ hb)) hrest⟩
  | _ => exact ⟨hlocal h.1, h.2⟩

/-- The local chain of a thread, wherever it is. -/
theorem At.chain {pc : Pc} (h : At next localHead l x pc) : Chain 0 next localHead l := by
  cases pc with
  | flushWalk excess batchHead batchTail count =>
      obtain ⟨rfl, -, hwalked⟩ := h
      exact hwalked.chain
  | flushAdvance excess batchHead batchTail count =>
      obtain ⟨rfl, -, hwalked, -⟩ := h
      exact hwalked.chain
  | flushCut batchHead batchTail count =>
      obtain ⟨rfl, -, hwalked⟩ := h
      exact hwalked.chain
  | _ => exact h.1

end Holdings

/-! ## The invariant -/

/-- The places a block can be in. -/
inductive Place
  | global
  | cache (thread : Nat)
  | transit (thread : Nat)
  | user
  deriving Repr, DecidableEq

def cell (g : List Nat) (l x : Nat → List Nat) (live : List Nat) : Place → List Nat
  | .global => g
  | .cache t => l t
  | .transit t => x t
  | .user => live

/-- The nodes of the global list are `g`, those of thread `t`'s local chain `l t`,
those it has in transit `x t`. -/
structure Inv (pool : Nat → Prop) (g : List Nat) (l x : Nat → List Nat) (s : State) :
    Prop where
  chain : Chain 0 s.next s.head.ptr g
  ledger : Ledger pool (cell g l x s.live)
  holds : ∀ t, At s.next (s.threads t).localHead (l t) (x t) (s.threads t).pc
  null : ¬ pool 0

/-- Every block is in one place, once. -/
def Partitioned (pool : Nat → Prop) (s : State) : Prop := ∃ g l x, Inv pool g l x s

/-! ### The steps without the heap -/

/-- What a thread has of its own: `size` is `local_size`, `chain` are the nodes of its
local chain and `transit` those it has in transit. -/
structure Hand where
  pc : Pc
  size : Nat
  chain : List Nat
  transit : List Nat
  deriving Repr, DecidableEq

def State.hand (s : State) (t : Nat) (l x : List Nat) : Hand where
  pc := (s.threads t).pc
  size := (s.threads t).localSize
  chain := l
  transit := x

/-- A step of a running call, as the global list and the thread see it. -/
inductive Moves (batchSize : Nat) : List Nat → Hand → List Nat → Hand → Prop
  | allocLow {g l : List Nat} {n : Nat} (hlow : n ≤ batchSize / 2) :
      Moves batchSize g ⟨.allocTest, n, l, []⟩ g ⟨.refillLock, n, l, []⟩
  | allocHigh {g l : List Nat} {n : Nat} (hlow : ¬ n ≤ batchSize / 2) :
      Moves batchSize g ⟨.allocTest, n, l, []⟩ g ⟨.allocTake, n, l, []⟩
  | refillLock {g l : List Nat} {n : Nat} :
      Moves batchSize g ⟨.refillLock, n, l, []⟩ g ⟨.refillPop, n, l, []⟩
  | popNone {l : List Nat} {n : Nat} :
      Moves batchSize [] ⟨.refillPop, n, l, []⟩ [] ⟨.refillUnlock 0, n, l, []⟩
  | popFirst {g l : List Nat} {n v : Nat} :
      Moves batchSize (v :: g) ⟨.refillPop, n, l, []⟩ g ⟨.refillMore v v 1, n, l, [v]⟩
  | popEnough {g l x : List Nat} {n start tail count : Nat}
      (henough : ¬ count < batchSize) :
      Moves batchSize g ⟨.refillMore start tail count, n, l, x⟩
        g ⟨.refillNull start tail, n, l, x⟩
  | popLast {l x : List Nat} {n start tail count : Nat} (hmore : count < batchSize) :
      Moves batchSize [] ⟨.refillMore start tail count, n, l, x⟩
        [] ⟨.refillNull start tail, n, l, x⟩
  | popMore {g l x : List Nat} {n start tail count v : Nat} (hmore : count < batchSize) :
      Moves batchSize (v :: g) ⟨.refillMore start tail count, n, l, x⟩
        g ⟨.refillLink start tail count v, n, l, x ++ [v]⟩
  | refillLink {g l x : List Nat} {n start tail count following : Nat} :
      Moves batchSize g ⟨.refillLink start tail count following, n, l, x⟩
        g ⟨.refillMore start following (wrap (count + 1)), n, l, x⟩
  | refillNull {g l x : List Nat} {n start tail : Nat} :
      Moves batchSize g ⟨.refillNull start tail, n, l, x⟩ g ⟨.refillUnlock start, n, l, x⟩
  | unlockNone {g l : List Nat} {n : Nat} :
      Moves batchSize g ⟨.refillUnlock 0, n, l, []⟩ g ⟨.allocTake, n, l, []⟩
  | unlockSome {g l x : List Nat} {n v : Nat} :
      Moves batchSize g ⟨.refillUnlock v, n, l, v :: x⟩ g ⟨.refillWalk v v 1, n, l, v :: x⟩
  | walkMore {g l front back : List Nat} {n batch tail count v : Nat} :
      Moves batchSize g ⟨.refillWalk batch tail count, n, l, front ++ tail :: v :: back⟩
        g ⟨.refillAdvance batch tail count, n, l, front ++ tail :: v :: back⟩
  | walkEnd {g l front : List Nat} {n batch tail count : Nat} :
      Moves batchSize g ⟨.refillWalk batch tail count, n, l, front ++ [tail]⟩
        g ⟨.refillSplice batch tail count, n, l, front ++ [tail]⟩
  | refillAdvance {g l front back : List Nat} {n batch tail count v : Nat} :
      Moves batchSize g
        ⟨.refillAdvance batch tail count, n, l, front ++ tail :: v :: back⟩
        g ⟨.refillWalk batch v (wrap (count + 1)), n, l, front ++ tail :: v :: back⟩
  | refillSplice {g l front : List Nat} {n batch tail count : Nat} :
      Moves batchSize g ⟨.refillSplice batch tail count, n, l, front ++ [tail]⟩
        g ⟨.refillSet batch count, n, l, front ++ [tail]⟩
  | refillSet {g l x : List Nat} {n batch count : Nat} :
      Moves batchSize g ⟨.refillSet batch count, n, l, x⟩
        g ⟨.allocTake, wrap (n + count), x ++ l, []⟩
  | takeNone {g : List Nat} {n : Nat} :
      Moves batchSize g ⟨.allocTake, n, [], []⟩ g ⟨.idle, n, [], []⟩
  | takeFirst {g l : List Nat} {n v : Nat} :
      Moves batchSize g ⟨.allocTake, n, v :: l, []⟩
        g ⟨.allocated v, wrapSub n 1, l, [v]⟩
  | allocated {g l : List Nat} {n v : Nat} :
      Moves batchSize g ⟨.allocated v, n, l, [v]⟩ g ⟨.idle, n, l, []⟩
  | deallocLink {g l : List Nat} {n v : Nat} :
      Moves batchSize g ⟨.deallocLink v, n, l, [v]⟩ g ⟨.deallocSet v, n, l, [v]⟩
  | deallocHigh {g l : List Nat} {n v : Nat}
      (hhigh : wrap (n + 1) > wrap (batchSize * 2)) :
      Moves batchSize g ⟨.deallocSet v, n, l, [v]⟩
        g ⟨.flushTest (wrapSub (wrap (n + 1)) batchSize), wrap (n + 1), v :: l, []⟩
  | deallocDone {g l : List Nat} {n v : Nat}
      (hhigh : ¬ wrap (n + 1) > wrap (batchSize * 2)) :
      Moves batchSize g ⟨.deallocSet v, n, l, [v]⟩ g ⟨.idle, wrap (n + 1), v :: l, []⟩
  | flushNone {g l : List Nat} {n excess : Nat} (hnone : l = [] ∨ excess = 0) :
      Moves batchSize g ⟨.flushTest excess, n, l, []⟩ g ⟨.idle, n, l, []⟩
  | flushSome {g l : List Nat} {n excess v : Nat} (hexcess : excess ≠ 0) :
      Moves batchSize g ⟨.flushTest excess, n, v :: l, []⟩
        g ⟨.flushWalk excess v v 1, n, v :: l, []⟩
  | flushMore {g front back : List Nat} {n excess batch tail count v : Nat}
      (hmore : count < excess) :
      Moves batchSize g
        ⟨.flushWalk excess batch tail count, n, front ++ tail :: v :: back, []⟩
        g ⟨.flushAdvance excess batch tail count, n, front ++ tail :: v :: back, []⟩
  | flushEnd {g front back : List Nat} {n excess batch tail count : Nat}
      (hend : count < excess → back = []) :
      Moves batchSize g
        ⟨.flushWalk excess batch tail count, n, front ++ tail :: back, []⟩
        g ⟨.flushCut batch tail count, n, front ++ tail :: back, []⟩
  | flushAdvance {g front back : List Nat} {n excess batch tail count v : Nat} :
      Moves batchSize g
        ⟨.flushAdvance excess batch tail count, n, front ++ tail :: v :: back, []⟩
        g ⟨.flushWalk excess batch v (wrap (count + 1)), n, front ++ tail :: v :: back, []⟩
  | flushCut {g front back : List Nat} {n batch tail count : Nat} :
      Moves batchSize g ⟨.flushCut batch tail count, n, front ++ tail :: back, []⟩
        g ⟨.flushNull batch tail count, n, back, front ++ [tail]⟩
  | flushNull {g l x : List Nat} {n batch tail count : Nat} :
      Moves batchSize g ⟨.flushNull batch tail count, n, l, x⟩
        g ⟨.flushShrink batch tail count, n, l, x⟩
  | flushShrink {g l x : List Nat} {n batch tail count : Nat} :
      Moves batchSize g ⟨.flushShrink batch tail count, n, l, x⟩
        g ⟨.pushLock batch tail, wrapSub n count, l, x⟩
  | pushLock {g l x : List Nat} {n batch tail : Nat} :
      Moves batchSize g ⟨.pushLock batch tail, n, l, x⟩ g ⟨.pushNull batch tail, n, l, x⟩
  | pushNull {g l x : List Nat} {n batch tail : Nat} :
      Moves batchSize g ⟨.pushNull batch tail, n, l, x⟩ g ⟨.pushRead batch, n, l, x⟩
  | pushEnd {g l : List Nat} {n : Nat} :
      Moves batchSize g ⟨.pushRead 0, n, l, []⟩ g ⟨.pushUnlock, n, l, []⟩
  | pushRead {g l x : List Nat} {n v following : Nat} :
      Moves batchSize g ⟨.pushRead v, n, l, v :: x⟩
        g ⟨.pushNode v following, n, l, v :: x⟩
  | pushNode {g l x : List Nat} {n v following : Nat} :
      Moves batchSize g ⟨.pushNode v following, n, l, v :: x⟩
        (v :: g) ⟨.pushRead following, n, l, x⟩
  | pushUnlock {g l : List Nat} {n : Nat} :
      Moves batchSize g ⟨.pushUnlock, n, l, []⟩ g ⟨.idle, n, l, []⟩

/-- Thread `t` has moved as `Moves` says; the others have the nodes they had. -/
def Moved (pool : Nat → Prop) (batchSize : Nat) (g : List Nat) (l x : Nat → List Nat)
    (s : State) (t : Nat) (s' : State) : Prop :=
  ∃ g' l' x', Moves batchSize g (s.hand t (l t) (x t)) g' (s'.hand t (l' t) (x' t)) ∧
    (∀ u, u ≠ t → l' u = l u ∧ x' u = x u) ∧ Inv pool g' l' x' s'

section Moves

variable {pool : Nat → Prop} {g g' : List Nat} {l l' x x' : Nat → List Nat}
variable {s s' : State} {t : Nat} {th : Thread} {b v : Nat}

theorem Inv.ne_null {k : Place} (h : Inv pool g l x s)
    (hb : b ∈ cell g l x s.live k) : b ≠ 0 :=
  fun hzero => h.null (hzero ▸ h.ledger.mem_of hb)

/-- Thread `t` has moved; the others' nodes and caches are as they were. -/
theorem Inv.move (h : Inv pool g l x s)
    (hthreads : s'.threads = Function.update s.threads t th)
    (hchain : Chain 0 s'.next s'.head.ptr g')
    (hledger : Ledger pool (cell g' l' x' s'.live))
    (hholds : At s'.next th.localHead (l' t) (x' t) th.pc)
    (hothers : ∀ u, u ≠ t → l' u = l u ∧ x' u = x u)
    (hframe : ∀ u, u ≠ t → ∀ c ∈ l u ++ x u, s'.next c = s.next c) :
    Inv pool g' l' x' s' where
  chain := hchain
  ledger := hledger
  holds u := by
    rw [hthreads]
    by_cases hu : u = t
    · subst hu
      rw [Function.update_self]
      exact hholds
    · rw [Function.update_of_ne hu, (hothers u hu).1, (hothers u hu).2]
      exact (h.holds u).congr (hframe u hu)
  null := h.null

/-- A write to a node in transit or in a cache of thread `t` misses the nodes of
every other place. -/
theorem Inv.notMem_global (h : Inv pool g l x s) (hb : b ∈ l t ++ x t) : b ∉ g := by
  rcases List.mem_append.mp hb with hb | hb
  · exact h.ledger.notMem (k := .cache t) (l := .global) hb (fun heq => nomatch heq)
  · exact h.ledger.notMem (k := .transit t) (l := .global) hb (fun heq => nomatch heq)

theorem Inv.notMem_others (h : Inv pool g l x s) (hb : b ∈ l t ++ x t) {u : Nat}
    (hu : u ≠ t) : b ∉ l u ++ x u := by
  have hcache : Place.cache u ≠ .cache t := fun heq => hu (Place.cache.inj heq)
  have htransit : Place.transit u ≠ .transit t := fun heq =>
    hu (Place.transit.inj heq)
  intro hmem
  rcases List.mem_append.mp hb with hb | hb <;>
    rcases List.mem_append.mp hmem with hmem | hmem
  · exact h.ledger.notMem (k := .cache t) (l := .cache u) hb hcache hmem
  · exact h.ledger.notMem (k := .cache t) (l := .transit u) hb
      (fun heq => nomatch heq) hmem
  · exact h.ledger.notMem (k := .transit t) (l := .cache u) hb
      (fun heq => nomatch heq) hmem
  · exact h.ledger.notMem (k := .transit t) (l := .transit u) hb htransit hmem

theorem Inv.frame (h : Inv pool g l x s) (hb : b ∈ l t ++ x t)
    (hnext : s'.next = Function.update s.next b v) (u : Nat) (hu : u ≠ t) (c : Nat)
    (hc : c ∈ l u ++ x u) : s'.next c = s.next c := by
  rw [hnext, Function.update_of_ne]
  rintro rfl
  exact h.notMem_others hb hu hc

/-- A step that moves no node and writes no link. -/
theorem Inv.quiet (h : Inv pool g l x s)
    (hthreads : s'.threads = Function.update s.threads t th)
    (hnext : s'.next = s.next) (hhead : s'.head = s.head) (hlive : s'.live = s.live)
    (hholds : At s.next th.localHead (l t) (x t) th.pc) : Inv pool g l x s' :=
  h.move hthreads (by rw [hnext, hhead]; exact h.chain) (by rw [hlive]; exact h.ledger)
    (by rw [hnext]; exact hholds) (fun _ _ => ⟨rfl, rfl⟩) (fun _ _ _ _ => by rw [hnext])

/-- A step that writes the link of one node thread `t` holds. -/
theorem Inv.write (h : Inv pool g l x s) (hb : b ∈ l t ++ x t)
    (hthreads : s'.threads = Function.update s.threads t th)
    (hnext : s'.next = Function.update s.next b v) (hhead : s'.head = s.head)
    (hlive : s'.live = s.live)
    (hholds : At (Function.update s.next b v) th.localHead (l t) (x t) th.pc) :
    Inv pool g l x s' :=
  h.move hthreads
    (by rw [hnext, hhead]; exact h.chain.update (h.notMem_global hb))
    (by rw [hlive]; exact h.ledger) (by rw [hnext]; exact hholds)
    (fun _ _ => ⟨rfl, rfl⟩) (fun u hu c hc => h.frame hb hnext u hu c hc)

/-- Thread `t` passes nodes between its cache and its transit. -/
theorem Inv.regroup (h : Inv pool g l x s) (lt xt : List Nat)
    (hperm : (lt ++ xt).Perm (l t ++ x t))
    (hthreads : s'.threads = Function.update s.threads t th)
    (hnext : s'.next = s.next) (hhead : s'.head = s.head) (hlive : s'.live = s.live)
    (hholds : At s.next th.localHead lt xt th.pc) :
    Inv pool g (Function.update l t lt) (Function.update x t xt) s' := by
  refine h.move hthreads (by rw [hnext, hhead]; exact h.chain) ?_ ?_ ?_
    (fun _ _ _ _ => by rw [hnext])
  · rw [hlive]
    refine h.ledger.move (k := .cache t) (l := .transit t)
      (fun heq => nomatch heq) ?_ ?_
    · simp only [cell, Function.update_self]
      exact hperm
    · intro j hcache htransit
      cases j with
      | cache u =>
          exact Function.update_of_ne (fun heq => hcache (congrArg Place.cache heq)) _ _
      | transit u =>
          exact Function.update_of_ne
            (fun heq => htransit (congrArg Place.transit heq)) _ _
      | _ => rfl
  · rw [hnext, Function.update_self, Function.update_self]
    exact hholds
  · intro u hu
    exact ⟨Function.update_of_ne hu _ _, Function.update_of_ne hu _ _⟩

/-- Nodes pass between the global list and thread `t`'s transit. -/
theorem Inv.exchange (h : Inv pool g l x s) (xt : List Nat)
    (hperm : (g' ++ xt).Perm (g ++ x t))
    (hthreads : s'.threads = Function.update s.threads t th)
    (hchain : Chain 0 s'.next s'.head.ptr g') (hlive : s'.live = s.live)
    (hholds : At s'.next th.localHead (l t) xt th.pc)
    (hframe : ∀ u, u ≠ t → ∀ c ∈ l u ++ x u, s'.next c = s.next c) :
    Inv pool g' l (Function.update x t xt) s' := by
  refine h.move hthreads hchain ?_ ?_ ?_ hframe
  · rw [hlive]
    refine h.ledger.move (k := .global) (l := .transit t)
      (fun heq => nomatch heq) ?_ ?_
    · simp only [cell, Function.update_self]
      exact hperm
    · intro j hglobal htransit
      cases j with
      | global => exact (hglobal rfl).elim
      | transit u =>
          exact Function.update_of_ne
            (fun heq => htransit (congrArg Place.transit heq)) _ _
      | _ => rfl
  · rw [Function.update_self]
    exact hholds
  · intro u hu
    exact ⟨rfl, Function.update_of_ne hu _ _⟩

/-- Blocks pass between the user and thread `t`'s transit. -/
theorem Inv.handOver (h : Inv pool g l x s) (xt : List Nat)
    (hperm : (s'.live ++ xt).Perm (s.live ++ x t))
    (hthreads : s'.threads = Function.update s.threads t th)
    (hnext : s'.next = s.next) (hhead : s'.head = s.head)
    (hholds : At s.next th.localHead (l t) xt th.pc) :
    Inv pool g l (Function.update x t xt) s' := by
  refine h.move hthreads (by rw [hnext, hhead]; exact h.chain) ?_ ?_ ?_
    (fun _ _ _ _ => by rw [hnext])
  · refine h.ledger.move (k := .user) (l := .transit t)
      (fun heq => nomatch heq) ?_ ?_
    · simp only [cell, Function.update_self]
      exact hperm
    · intro j huser htransit
      cases j with
      | user => exact (huser rfl).elim
      | transit u =>
          exact Function.update_of_ne
            (fun heq => htransit (congrArg Place.transit heq)) _ _
      | _ => rfl
  · rw [hnext, Function.update_self]
    exact hholds
  · intro u hu
    exact ⟨rfl, Function.update_of_ne hu _ _⟩

/-- A `pop` of the global list: nothing, or the top goes into transit. -/
theorem Inv.pop_cases (h : Inv pool g l x s) :
    ((pop s.next s.head).1 = 0 ∧ (pop s.next s.head).2 = s.head ∧ g = []) ∨
      ((pop s.next s.head).1 ≠ 0 ∧ ∃ rest, g = (pop s.next s.head).1 :: rest ∧
        Chain 0 s.next (pop s.next s.head).2.ptr rest) := by
  rcases pop_chain h.chain with ⟨hnull, hempty, hsame⟩ | ⟨rest, hne, heq, hrest⟩
  · exact Or.inl ⟨hnull, hsame, hempty⟩
  · exact Or.inr ⟨hne, rest, heq, hrest⟩

/-- What a `pop` that finds a node does to the partition. -/
theorem Inv.popped (h : Inv pool g l x s) {head : TaggedPtr} {rest : List Nat}
    (heq : g = b :: rest) (hrest : Chain 0 s.next head.ptr rest)
    (hthreads : s'.threads = Function.update s.threads t th)
    (hnext : s'.next = s.next) (hhead : s'.head = head) (hlive : s'.live = s.live)
    (hholds : At s.next th.localHead (l t) (x t ++ [b]) th.pc) :
    Inv pool rest l (Function.update x t (x t ++ [b])) s' := by
  refine h.exchange _ ?_ hthreads (by rw [hnext, hhead]; exact hrest) hlive
    (by rw [hnext]; exact hholds) (fun _ _ _ _ => by rw [hnext])
  rw [heq, ← List.append_assoc]
  exact List.perm_append_singleton b (rest ++ x t)

end Moves

/-! ## The steps, one at a time -/

section Steps

variable {pool : Nat → Prop} {g g' : List Nat} {l l' x x' : Nat → List Nat}
variable {s s' : State} {t b v batchSize : Nat} {before after : Pc} {th : Thread}

/-- What thread `t` holds when it is at `pc`. -/
theorem Inv.holds_at (h : Inv pool g l x s) {pc : Pc} (hpc : (s.threads t).pc = pc) :
    At s.next (s.threads t).localHead (l t) (x t) pc :=
  hpc ▸ h.holds t

/-- Writing a node in transit leaves the thread's own chain alone. -/
theorem Inv.chain_write (h : Inv pool g l x s) (hb : b ∈ x t) {start : Nat}
    (hchain : Chain 0 s.next start (l t)) :
    Chain 0 (Function.update s.next b v) start (l t) :=
  hchain.update (h.ledger.notMem (k := .transit t) (l := .cache t) hb
    (fun heq => nomatch heq))

theorem Moved.of_inv (hpc : (s.threads t).pc = before)
    (hthreads : s'.threads = Function.update s.threads t th)
    (hinv : Inv pool g' l' x' s') (hothers : ∀ u, u ≠ t → l' u = l u ∧ x' u = x u)
    (hmoves : Moves batchSize g ⟨before, (s.threads t).localSize, l t, x t⟩
      g' ⟨th.pc, th.localSize, l' t, x' t⟩) : Moved pool batchSize g l x s t s' := by
  refine ⟨g', l', x', ?_, hothers, hinv⟩
  rw [State.hand, State.hand, hpc, hthreads, Function.update_self]
  exact hmoves

/-- The thread has the nodes it had. -/
theorem Moved.same (hpc : (s.threads t).pc = before)
    (hthreads : s'.threads = Function.update s.threads t th) (hinv : Inv pool g l x s')
    (hmoves : Moves batchSize g ⟨before, (s.threads t).localSize, l t, x t⟩
      g ⟨th.pc, th.localSize, l t, x t⟩) : Moved pool batchSize g l x s t s' :=
  .of_inv hpc hthreads hinv (fun _ _ => ⟨rfl, rfl⟩) hmoves

/-- It has passed nodes between its chain and its transit. -/
theorem Moved.regroup {lt xt : List Nat} (hpc : (s.threads t).pc = before)
    (hthreads : s'.threads = Function.update s.threads t th)
    (hinv : Inv pool g (Function.update l t lt) (Function.update x t xt) s')
    (hmoves : Moves batchSize g ⟨before, (s.threads t).localSize, l t, x t⟩
      g ⟨th.pc, th.localSize, lt, xt⟩) : Moved pool batchSize g l x s t s' := by
  refine .of_inv hpc hthreads hinv (fun u hu =>
    ⟨Function.update_of_ne hu _ _, Function.update_of_ne hu _ _⟩) ?_
  rw [Function.update_self, Function.update_self]
  exact hmoves

/-- Its transit has changed. -/
theorem Moved.transit {xt : List Nat} (hpc : (s.threads t).pc = before)
    (hthreads : s'.threads = Function.update s.threads t th)
    (hinv : Inv pool g' l (Function.update x t xt) s')
    (hmoves : Moves batchSize g ⟨before, (s.threads t).localSize, l t, x t⟩
      g' ⟨th.pc, th.localSize, l t, xt⟩) : Moved pool batchSize g l x s t s' := by
  refine .of_inv hpc hthreads hinv (fun u hu => ⟨rfl, Function.update_of_ne hu _ _⟩) ?_
  rw [Function.update_self]
  exact hmoves

/-- The thread goes on with the same nodes. -/
theorem Inv.goto (h : Inv pool g l x s) (hpc : (s.threads t).pc = before)
    (hmoves : Moves batchSize g ⟨before, (s.threads t).localSize, l t, x t⟩
      g ⟨after, (s.threads t).localSize, l t, x t⟩)
    (hholds : At s.next (s.threads t).localHead (l t) (x t) after) :
    Moved pool batchSize g l x s t (s.goto t after) :=
  .same hpc rfl (h.quiet rfl rfl rfl rfl hholds) hmoves

/-- So it does when it also takes or releases the mutex. -/
theorem Inv.goto_lock (h : Inv pool g l x s) (lock : Option Nat)
    (hpc : (s.threads t).pc = before)
    (hmoves : Moves batchSize g ⟨before, (s.threads t).localSize, l t, x t⟩
      g ⟨after, (s.threads t).localSize, l t, x t⟩)
    (hholds : At s.next (s.threads t).localHead (l t) (x t) after) :
    Moved pool batchSize g l x s t ({ s with bulkLock := lock }.goto t after) :=
  .same hpc rfl (h.quiet rfl rfl rfl rfl hholds) hmoves

/-- It writes the link of a node in transit and goes on with the same nodes. -/
theorem Inv.goto_write (h : Inv pool g l x s) (hb : b ∈ x t)
    (hpc : (s.threads t).pc = before)
    (hmoves : Moves batchSize g ⟨before, (s.threads t).localSize, l t, x t⟩
      g ⟨after, (s.threads t).localSize, l t, x t⟩)
    (hholds : At (Function.update s.next b v) (s.threads t).localHead (l t) (x t) after) :
    Moved pool batchSize g l x s t (s.write b v t after) :=
  .same hpc rfl (h.write (List.mem_append_right _ hb) rfl rfl rfl rfl hholds) hmoves

/-! ### `refill` -/

theorem Inv.refillPop (h : Inv pool g l x s) (hpc : (s.threads t).pc = .refillPop)
    (hstep : refillStep batchSize s t .refillPop = some s') :
    Moved pool batchSize g l x s t s' := by
  obtain ⟨hlocal, hnone⟩ := h.holds_at hpc
  simp only [refillStep] at hstep
  rcases h.pop_cases with ⟨hnull, hhead, hempty⟩ | ⟨hne, rest, heq, hrest⟩
  · rw [if_pos hnull] at hstep
    cases hstep
    refine .same hpc rfl (h.quiet rfl rfl hhead rfl ⟨hlocal, by rw [hnone]; rfl⟩) ?_
    rw [hempty, hnone]
    exact .popNone
  · rw [if_neg hne] at hstep
    cases hstep
    refine .transit hpc rfl (h.popped heq hrest rfl rfl rfl rfl ⟨hlocal, ?_⟩) ?_
    · rw [hnone]
      exact built_singleton hne
    · rw [hnone, heq]
      exact .popFirst

theorem Inv.refillMore (h : Inv pool g l x s) {start tail count : Nat}
    (hpc : (s.threads t).pc = .refillMore start tail count)
    (hstep : refillStep batchSize s t (.refillMore start tail count) = some s') :
    Moved pool batchSize g l x s t s' := by
  obtain ⟨hlocal, hbuilt⟩ := h.holds_at hpc
  simp only [refillStep] at hstep
  split at hstep
  · next hmore =>
      rcases h.pop_cases with ⟨hnull, hhead, hempty⟩ | ⟨hne, rest, heq, hrest⟩
      · rw [if_pos hnull] at hstep
        cases hstep
        refine .same hpc rfl (h.quiet rfl rfl hhead rfl ⟨hlocal, hbuilt⟩) ?_
        rw [hempty]
        exact .popLast hmore
      · rw [if_neg hne] at hstep
        cases hstep
        refine .transit hpc rfl (h.popped heq hrest rfl rfl rfl rfl
          ⟨hlocal, hne, x t, rfl, hbuilt⟩) ?_
        rw [heq]
        exact .popMore hmore
  · next henough =>
      cases hstep
      exact h.goto hpc (.popEnough henough) ⟨hlocal, hbuilt⟩

theorem Inv.refillLink (h : Inv pool g l x s) {start tail count following : Nat}
    (hpc : (s.threads t).pc = .refillLink start tail count following) :
    Moved pool batchSize g l x s t
      (s.write tail following t (.refillMore start following (wrap (count + 1)))) := by
  obtain ⟨hlocal, hne, nodes, heq, hbuilt⟩ := h.holds_at hpc
  have hnodup : (nodes ++ [following]).Nodup := heq ▸ h.ledger.nodup (.transit t)
  have hmem : tail ∈ x t := heq ▸ List.mem_append_left _ hbuilt.tail_mem
  refine h.goto_write hmem hpc .refillLink ⟨h.chain_write hmem hlocal, ?_⟩
  rw [heq]
  exact hbuilt.snoc (List.nodup_append.mp hnodup).1 hne

theorem Inv.refillNull (h : Inv pool g l x s) {start tail : Nat}
    (hpc : (s.threads t).pc = .refillNull start tail) :
    Moved pool batchSize g l x s t (s.write tail 0 t (.refillUnlock start)) := by
  obtain ⟨hlocal, hbuilt⟩ := h.holds_at hpc
  exact h.goto_write hbuilt.tail_mem hpc .refillNull
    ⟨h.chain_write hbuilt.tail_mem hlocal, (hbuilt.write (h.ledger.nodup (.transit t))).2⟩

theorem Inv.refillUnlock (h : Inv pool g l x s) {batch : Nat}
    (hpc : (s.threads t).pc = .refillUnlock batch)
    (hstep : refillStep batchSize s t (.refillUnlock batch) = some s') :
    Moved pool batchSize g l x s t s' := by
  obtain ⟨hlocal, hchain⟩ := h.holds_at hpc
  simp only [refillStep] at hstep
  split at hstep
  · next hnull =>
      cases hstep
      have hnone := hchain.eq_nil_iff.mpr hnull
      refine h.goto_lock none hpc ?_ ⟨hlocal, hnone⟩
      rw [hnull, hnone]
      exact .unlockNone
  · next hne =>
      cases hstep
      obtain ⟨rest, heq, -⟩ := hchain.pop hne
      refine h.goto_lock none hpc ?_ ⟨hlocal, hchain.walked hne⟩
      rw [heq]
      exact .unlockSome

theorem Inv.refillWalk (h : Inv pool g l x s) {batch tail count : Nat}
    (hpc : (s.threads t).pc = .refillWalk batch tail count)
    (hstep : refillStep batchSize s t (.refillWalk batch tail count) = some s') :
    Moved pool batchSize g l x s t s' := by
  obtain ⟨hlocal, hwalked⟩ := h.holds_at hpc
  simp only [refillStep] at hstep
  split at hstep
  · next hne =>
      cases hstep
      obtain ⟨front, back, heq⟩ := hwalked.more hne
      refine h.goto hpc ?_ ⟨hlocal, hwalked, hne⟩
      rw [heq]
      exact .walkMore
  · next hnull =>
      cases hstep
      have hbuilt := hwalked.built (Decidable.not_not.mp hnull)
      obtain ⟨front, heq, -⟩ := id hbuilt
      refine h.goto hpc ?_ ⟨hlocal, hbuilt⟩
      rw [heq]
      exact .walkEnd

theorem Inv.refillAdvance (h : Inv pool g l x s) {batch tail count : Nat}
    (hpc : (s.threads t).pc = .refillAdvance batch tail count) :
    Moved pool batchSize g l x s t
      (s.goto t (.refillWalk batch (s.next tail) (wrap (count + 1)))) := by
  obtain ⟨hlocal, hwalked, hne⟩ := h.holds_at hpc
  obtain ⟨front, back, heq⟩ := hwalked.more hne
  refine h.goto hpc ?_ ⟨hlocal, hwalked.advance hne⟩
  rw [heq]
  exact .refillAdvance

theorem Inv.refillSplice (h : Inv pool g l x s) {batch tail count : Nat}
    (hpc : (s.threads t).pc = .refillSplice batch tail count) :
    Moved pool batchSize g l x s t
      (s.write tail (s.threads t).localHead t (.refillSet batch count)) := by
  obtain ⟨hlocal, hbuilt⟩ := h.holds_at hpc
  obtain ⟨front, heq, -⟩ := id hbuilt
  refine h.goto_write hbuilt.tail_mem hpc ?_ ⟨h.chain_write hbuilt.tail_mem hlocal,
    (hbuilt.write (h.ledger.nodup (.transit t))).2⟩
  rw [heq]
  exact .refillSplice

/-- The batch becomes the front of the local chain. -/
theorem Inv.refillSet (h : Inv pool g l x s) {batch count : Nat}
    (hpc : (s.threads t).pc = .refillSet batch count) :
    Moved pool batchSize g l x s t (s.setThread t
      { pc := .allocTake
        localHead := batch
        localSize := wrap ((s.threads t).localSize + count) }) := by
  obtain ⟨hlocal, hsegment⟩ := h.holds_at hpc
  refine .regroup hpc rfl (h.regroup (x t ++ l t) [] ?_ rfl rfl rfl rfl
    ⟨segment_append.mpr ⟨_, hsegment, hlocal⟩, rfl⟩) .refillSet
  rw [List.append_nil]
  exact List.perm_append_comm

theorem Inv.refillStep (h : Inv pool g l x s)
    (hstep : TlFreelistInterleaving.refillStep batchSize s t (s.threads t).pc =
      some s') : Moved pool batchSize g l x s t s' := by
  cases hpc : (s.threads t).pc with
  | refillLock =>
      have hholds := h.holds_at hpc
      rw [hpc] at hstep
      simp only [TlFreelistInterleaving.refillStep, Option.ite_none_right_eq_some,
        Option.some.injEq] at hstep
      obtain ⟨-, rfl⟩ := hstep
      exact h.goto_lock (some t) hpc (hholds.2 ▸ .refillLock) hholds
  | refillPop => exact h.refillPop hpc (hpc ▸ hstep)
  | refillMore start tail count => exact h.refillMore hpc (hpc ▸ hstep)
  | refillLink start tail count following =>
      rw [hpc] at hstep
      cases hstep
      exact h.refillLink hpc
  | refillNull start tail =>
      rw [hpc] at hstep
      cases hstep
      exact h.refillNull hpc
  | refillUnlock batch => exact h.refillUnlock hpc (hpc ▸ hstep)
  | refillWalk batch tail count => exact h.refillWalk hpc (hpc ▸ hstep)
  | refillAdvance batch tail count =>
      rw [hpc] at hstep
      cases hstep
      exact h.refillAdvance hpc
  | refillSplice batch tail count =>
      rw [hpc] at hstep
      cases hstep
      exact h.refillSplice hpc
  | refillSet batch count =>
      rw [hpc] at hstep
      cases hstep
      exact h.refillSet hpc
  | _ => simp [hpc, TlFreelistInterleaving.refillStep] at hstep

/-! ### `flush` -/

theorem Inv.flushTest (h : Inv pool g l x s) {excess : Nat}
    (hpc : (s.threads t).pc = .flushTest excess)
    (hstep : flushStep s t (.flushTest excess) = some s') :
    Moved pool batchSize g l x s t s' := by
  obtain ⟨hlocal, hnone⟩ := h.holds_at hpc
  simp only [flushStep] at hstep
  split at hstep
  · next hskip =>
      cases hstep
      refine h.goto hpc ?_ ⟨hlocal, hnone⟩
      rw [hnone]
      exact .flushNone (hskip.imp_left hlocal.eq_nil_iff.mpr)
  · next hsome =>
      cases hstep
      rw [not_or] at hsome
      obtain ⟨rest, heq, -⟩ := hlocal.pop hsome.1
      refine h.goto hpc ?_ ⟨rfl, hnone, hlocal.walked hsome.1⟩
      rw [hnone, heq]
      exact .flushSome hsome.2

theorem Inv.flushWalk (h : Inv pool g l x s) {excess batchHead batchTail count : Nat}
    (hpc : (s.threads t).pc = .flushWalk excess batchHead batchTail count)
    (hstep : flushStep s t (.flushWalk excess batchHead batchTail count) = some s') :
    Moved pool batchSize g l x s t s' := by
  obtain ⟨hhead, hnone, hwalked⟩ := h.holds_at hpc
  simp only [flushStep] at hstep
  split at hstep
  · next hmore =>
      cases hstep
      obtain ⟨front, back, heq⟩ := hwalked.more hmore.2
      refine h.goto hpc ?_ ⟨hhead, hnone, hwalked, hmore.2⟩
      rw [heq, hnone]
      exact .flushMore hmore.1
  · next hend =>
      cases hstep
      obtain ⟨front, back, heq, -, -, -, hback⟩ := id hwalked
      refine h.goto hpc ?_ ⟨hhead, hnone, hwalked⟩
      rw [heq, hnone]
      exact .flushEnd fun hmore => (Chain.eq_nil_iff hback).mpr
        (Decidable.not_not.mp fun hne => hend ⟨hmore, hne⟩)

theorem Inv.flushAdvance (h : Inv pool g l x s)
    {excess batchHead batchTail count : Nat}
    (hpc : (s.threads t).pc = .flushAdvance excess batchHead batchTail count) :
    Moved pool batchSize g l x s t (s.goto t
      (.flushWalk excess batchHead (s.next batchTail) (wrap (count + 1)))) := by
  obtain ⟨hhead, hnone, hwalked, hne⟩ := h.holds_at hpc
  obtain ⟨front, back, heq⟩ := hwalked.more hne
  refine h.goto hpc ?_ ⟨hhead, hnone, hwalked.advance hne⟩
  rw [heq, hnone]
  exact .flushAdvance

/-- The front of the local chain, up to `batchTail`, goes into transit. -/
theorem Inv.flushCut (h : Inv pool g l x s) {batchHead batchTail count : Nat}
    (hpc : (s.threads t).pc = .flushCut batchHead batchTail count) :
    Moved pool batchSize g l x s t (s.setThread t
      { s.threads t with
        pc := .flushNull batchHead batchTail count
        localHead := s.next batchTail }) := by
  obtain ⟨hhead, hnone, front, back, heq, hsegment, -, hne, hback⟩ := h.holds_at hpc
  refine .regroup hpc rfl (h.regroup back (front ++ [batchTail]) ?_ rfl rfl rfl rfl
    ⟨hback, front, rfl, hsegment, hne⟩) ?_
  · rw [heq, hnone, List.append_nil, List.append_cons front batchTail back]
    exact List.perm_append_comm
  · rw [heq, hnone]
    exact .flushCut

theorem Inv.flushNull (h : Inv pool g l x s) {batchHead batchTail count : Nat}
    (hpc : (s.threads t).pc = .flushNull batchHead batchTail count) :
    Moved pool batchSize g l x s t
      (s.write batchTail 0 t (.flushShrink batchHead batchTail count)) := by
  obtain ⟨hlocal, hbuilt⟩ := h.holds_at hpc
  exact h.goto_write hbuilt.tail_mem hpc .flushNull
    ⟨h.chain_write hbuilt.tail_mem hlocal, (hbuilt.write (h.ledger.nodup (.transit t))).1⟩

theorem Inv.flushShrink (h : Inv pool g l x s) {batchHead batchTail count : Nat}
    (hpc : (s.threads t).pc = .flushShrink batchHead batchTail count) :
    Moved pool batchSize g l x s t (s.setThread t
      { s.threads t with
        pc := .pushLock batchHead batchTail
        localSize := wrapSub (s.threads t).localSize count }) := by
  obtain ⟨hlocal, hbuilt⟩ := h.holds_at hpc
  exact .same hpc rfl (h.quiet rfl rfl rfl rfl ⟨hlocal, hbuilt⟩) .flushShrink

theorem Inv.pushNull (h : Inv pool g l x s) {batchHead batchTail : Nat}
    (hpc : (s.threads t).pc = .pushNull batchHead batchTail) :
    Moved pool batchSize g l x s t (s.write batchTail 0 t (.pushRead batchHead)) := by
  obtain ⟨hlocal, hbuilt⟩ := h.holds_at hpc
  exact h.goto_write hbuilt.tail_mem hpc .pushNull
    ⟨h.chain_write hbuilt.tail_mem hlocal, (hbuilt.write (h.ledger.nodup (.transit t))).2⟩

theorem Inv.pushRead (h : Inv pool g l x s) {node : Nat}
    (hpc : (s.threads t).pc = .pushRead node)
    (hstep : flushStep s t (.pushRead node) = some s') :
    Moved pool batchSize g l x s t s' := by
  obtain ⟨hlocal, hchain⟩ := h.holds_at hpc
  simp only [flushStep] at hstep
  split at hstep
  · next hnull =>
      cases hstep
      have hnone := hchain.eq_nil_iff.mpr hnull
      refine h.goto hpc ?_ ⟨hlocal, hnone⟩
      rw [hnull, hnone]
      exact .pushEnd
  · next hne =>
      cases hstep
      obtain ⟨rest, heq, hrest⟩ := hchain.pop hne
      refine h.goto hpc ?_ ⟨hlocal, rest, heq, hrest⟩
      rw [heq]
      exact .pushRead

/-- `following` was read before the push overwrote the link, so the rest of the
batch is not lost. -/
theorem Inv.pushNode (h : Inv pool g l x s) {node following : Nat}
    (hpc : (s.threads t).pc = .pushNode node following) :
    Moved pool batchSize g l x s t ({ s with
      next := (push s.next s.head node).1
      head := (push s.next s.head node).2 }.goto t (.pushRead following)) := by
  obtain ⟨hlocal, rest, heq, hrest⟩ := h.holds_at hpc
  have hmem : node ∈ x t := heq ▸ List.mem_cons_self
  have hhold : node ∈ l t ++ x t := List.mem_append_right _ hmem
  have hnodup : (node :: rest).Nodup := heq ▸ h.ledger.nodup (.transit t)
  have hnew : node ∉ g := h.notMem_global hhold
  have hne : node ≠ 0 := h.ne_null (k := .transit t) hmem
  refine .transit hpc rfl (h.exchange rest ?_ rfl (push_chain h.chain hne hnew) rfl
    ⟨h.chain_write hmem hlocal, hrest.update (List.nodup_cons.mp hnodup).1⟩
    (h.frame hhold rfl)) ?_
  · rw [heq]
    exact List.perm_middle.symm
  · rw [heq]
    exact .pushNode

theorem Inv.flushStep (h : Inv pool g l x s)
    (hstep : TlFreelistInterleaving.flushStep s t (s.threads t).pc = some s') :
    Moved pool batchSize g l x s t s' := by
  cases hpc : (s.threads t).pc with
  | flushTest excess => exact h.flushTest hpc (hpc ▸ hstep)
  | flushWalk excess batchHead batchTail count => exact h.flushWalk hpc (hpc ▸ hstep)
  | flushAdvance excess batchHead batchTail count =>
      rw [hpc] at hstep
      cases hstep
      exact h.flushAdvance hpc
  | flushCut batchHead batchTail count =>
      rw [hpc] at hstep
      cases hstep
      exact h.flushCut hpc
  | flushNull batchHead batchTail count =>
      rw [hpc] at hstep
      cases hstep
      exact h.flushNull hpc
  | flushShrink batchHead batchTail count =>
      rw [hpc] at hstep
      cases hstep
      exact h.flushShrink hpc
  | pushLock batchHead batchTail =>
      have hholds := h.holds_at hpc
      rw [hpc] at hstep
      simp only [TlFreelistInterleaving.flushStep, Option.ite_none_right_eq_some,
        Option.some.injEq] at hstep
      obtain ⟨-, rfl⟩ := hstep
      exact h.goto_lock (some t) hpc .pushLock hholds
  | pushNull batchHead batchTail =>
      rw [hpc] at hstep
      cases hstep
      exact h.pushNull hpc
  | pushRead node => exact h.pushRead hpc (hpc ▸ hstep)
  | pushNode node following =>
      rw [hpc] at hstep
      cases hstep
      exact h.pushNode hpc
  | pushUnlock =>
      have hholds := h.holds_at hpc
      rw [hpc] at hstep
      cases hstep
      exact h.goto_lock none hpc (hholds.2 ▸ .pushUnlock) hholds
  | _ => simp [hpc, TlFreelistInterleaving.flushStep] at hstep

/-! ### `alloc` and `dealloc` -/

theorem Inv.allocTest (h : Inv pool g l x s) (hpc : (s.threads t).pc = .allocTest)
    (hstep : callStep batchSize s t .allocTest = some s') :
    Moved pool batchSize g l x s t s' := by
  have hholds := h.holds_at hpc
  simp only [callStep] at hstep
  split at hstep
  · next hlow =>
      cases hstep
      exact h.goto hpc (hholds.2 ▸ .allocLow hlow) hholds
  · next hlow =>
      cases hstep
      exact h.goto hpc (hholds.2 ▸ .allocHigh hlow) hholds

theorem Inv.allocTake (h : Inv pool g l x s) (hpc : (s.threads t).pc = .allocTake)
    (hstep : callStep batchSize s t .allocTake = some s') :
    Moved pool batchSize g l x s t s' := by
  obtain ⟨hlocal, hnone⟩ := h.holds_at hpc
  simp only [callStep] at hstep
  split at hstep
  · next hnull =>
      cases hstep
      refine h.goto hpc ?_ ⟨hlocal, hnone⟩
      rw [hnone, hlocal.eq_nil_iff.mpr hnull]
      exact .takeNone
  · next hne =>
      cases hstep
      obtain ⟨rest, heq, hrest⟩ := hlocal.pop hne
      refine .regroup hpc rfl (h.regroup rest [(s.threads t).localHead] ?_ rfl rfl rfl rfl
        ⟨hrest, rfl⟩) ?_
      · rw [heq, hnone, List.append_nil]
        exact List.perm_append_singleton _ _
      · rw [heq, hnone]
        exact .takeFirst

theorem Inv.allocated (h : Inv pool g l x s) {block : Nat}
    (hpc : (s.threads t).pc = .allocated block) :
    Moved pool batchSize g l x s t { s.goto t .idle with live := block :: s.live } := by
  obtain ⟨hlocal, heq⟩ := h.holds_at hpc
  refine .transit hpc rfl (h.handOver [] ?_ rfl rfl rfl ⟨hlocal, rfl⟩) ?_
  · rw [heq, List.append_nil]
    exact (List.perm_append_singleton block s.live).symm
  · rw [heq]
    exact .allocated

theorem Inv.deallocLink (h : Inv pool g l x s) {block : Nat}
    (hpc : (s.threads t).pc = .deallocLink block) :
    Moved pool batchSize g l x s t
      (s.write block (s.threads t).localHead t (.deallocSet block)) := by
  obtain ⟨hlocal, heq⟩ := h.holds_at hpc
  have hmem : block ∈ x t := heq ▸ List.mem_cons_self
  exact h.goto_write hmem hpc (heq ▸ .deallocLink)
    ⟨h.chain_write hmem hlocal, heq, Function.update_self ..⟩

/-- The freed block becomes the top of the local chain, whatever comes next. -/
theorem Inv.deallocSet (h : Inv pool g l x s) {block size : Nat} {pc : Pc}
    (hpc : (s.threads t).pc = .deallocSet block)
    (hmoves : Moves batchSize g ⟨.deallocSet block, (s.threads t).localSize, l t, [block]⟩
      g ⟨pc, size, block :: l t, []⟩)
    (hafter : ∀ nodes, Chain 0 s.next block nodes → At s.next block nodes [] pc) :
    Moved pool batchSize g l x s t (s.setThread t
      { pc := pc, localHead := block, localSize := size }) := by
  obtain ⟨hlocal, heq, hlink⟩ := h.holds_at hpc
  have hne : block ≠ 0 := h.ne_null (k := .transit t) (b := block) (by
    rw [cell, heq]
    exact List.mem_cons_self)
  refine .regroup hpc rfl (h.regroup (block :: l t) [] ?_ rfl rfl rfl rfl
    (hafter _ ⟨rfl, hne, hlink ▸ hlocal⟩)) (heq ▸ hmoves)
  rw [heq, List.append_nil]
  exact (List.perm_append_singleton _ _).symm

theorem Inv.callStep (h : Inv pool g l x s)
    (hstep : TlFreelistInterleaving.callStep batchSize s t (s.threads t).pc = some s') :
    Moved pool batchSize g l x s t s' := by
  cases hpc : (s.threads t).pc with
  | allocTest => exact h.allocTest hpc (hpc ▸ hstep)
  | allocTake => exact h.allocTake hpc (hpc ▸ hstep)
  | allocated block =>
      rw [hpc] at hstep
      cases hstep
      exact h.allocated hpc
  | deallocLink block =>
      rw [hpc] at hstep
      cases hstep
      exact h.deallocLink hpc
  | deallocSet block =>
      rw [hpc] at hstep
      simp only [TlFreelistInterleaving.callStep] at hstep
      split at hstep
      · next hhigh =>
          cases hstep
          exact h.deallocSet hpc (.deallocHigh hhigh) fun nodes hnodes => ⟨hnodes, rfl⟩
      · next hhigh =>
          cases hstep
          exact h.deallocSet hpc (.deallocDone hhigh) fun nodes hnodes => ⟨hnodes, rfl⟩
  | _ => simp [hpc, TlFreelistInterleaving.callStep] at hstep

/-- What the next step of a running call does. -/
theorem Inv.moves (h : Inv pool g l x s) (hstep : exec batchSize s (.step t) = some s') :
    Moved pool batchSize g l x s t s' := by
  simp only [exec, Option.or_eq_some_iff] at hstep
  rcases hstep with hcall | ⟨-, hrefill | ⟨-, hflush⟩⟩
  · exact h.callStep hcall
  · exact h.refillStep hrefill
  · exact h.flushStep hflush

theorem Inv.callAlloc (h : Inv pool g l x s) (hidle : (s.threads t).pc = .idle) :
    Inv pool g l x (s.goto t .allocTest) :=
  have hholds := h.holds_at hidle
  h.quiet rfl rfl rfl rfl hholds

theorem Inv.callDealloc (h : Inv pool g l x s) {ptr : Nat}
    (hidle : (s.threads t).pc = .idle) (hmem : ptr ∈ s.live) :
    Inv pool g l (Function.update x t [ptr])
      { s.goto t (.deallocLink ptr) with live := s.live.erase ptr } := by
  obtain ⟨hlocal, hnone⟩ := h.holds_at hidle
  refine h.handOver [ptr] ?_ rfl rfl rfl ⟨hlocal, rfl⟩
  rw [hnone, List.append_nil]
  exact (List.perm_append_singleton ptr _).trans (List.perm_cons_erase hmem).symm

/-- Writes to other memory miss every chain. -/
theorem Inv.outside (h : Inv pool g l x s) {next : Heap}
    (hsame : ∀ b, pool b → b ∉ s.live → next b = s.next b) :
    Inv pool g l x { s with next := next } := by
  have hkeep : ∀ k, k ≠ Place.user → ∀ b ∈ cell g l x s.live k, next b = s.next b := by
    intro k hk b hb
    have hfree : b ∉ cell g l x s.live .user := h.ledger.notMem hb hk.symm
    exact hsame b (h.ledger.mem_of hb) hfree
  exact
    { chain := Segment.congr (hkeep .global (fun heq => nomatch heq)) h.chain
      ledger := h.ledger
      holds := fun u => (h.holds u).congr fun c hc => by
        rcases List.mem_append.mp hc with hcache | htransit
        · exact hkeep (.cache u) (fun heq => nomatch heq) c hcache
        · exact hkeep (.transit u) (fun heq => nomatch heq) c htransit
      null := h.null }

/-- A user's write to a live block is one. -/
theorem Inv.scribble (h : Inv pool g l x s) {block value : Nat} (hmem : block ∈ s.live) :
    Inv pool g l x { s with next := Function.update s.next block value } :=
  h.outside fun b _ (hfree : b ∉ s.live) =>
    Function.update_of_ne (fun heq : b = block => hfree (heq ▸ hmem)) _ _

/-- Every step keeps the partition. -/
theorem Inv.step (h : Inv pool g l x s) {e : Event}
    (hstep : exec batchSize s e = some s') : Partitioned pool s' := by
  cases e with
  | callAlloc t =>
      simp only [exec, Option.ite_none_right_eq_some, Option.some.injEq] at hstep
      obtain ⟨hidle, rfl⟩ := hstep
      exact ⟨g, l, x, h.callAlloc hidle⟩
  | callDealloc t ptr =>
      simp only [exec, Option.ite_none_right_eq_some] at hstep
      obtain ⟨hidle, hstep⟩ := hstep
      split at hstep
      · cases hstep
        exact ⟨g, l, x, h⟩
      · simp only [Option.ite_none_right_eq_some, Option.some.injEq] at hstep
        obtain ⟨hmem, rfl⟩ := hstep
        exact ⟨g, l, _, h.callDealloc hidle hmem⟩
  | step t =>
      obtain ⟨g', l', x', -, -, hinv⟩ := h.moves hstep
      exact ⟨g', l', x', hinv⟩
  | scribble block value =>
      simp only [exec, Option.ite_none_right_eq_some, Option.some.injEq] at hstep
      obtain ⟨hmem, rfl⟩ := hstep
      exact ⟨g, l, x, h.scribble hmem⟩

end Steps

/-! ## Conservation -/

section Conservation

variable {blockSz numBlocks batch : Nat} {a : Allocator} {next : Heap} {s : State}

/-- The blocks of `a`. -/
def IsBlock (a : Allocator) (b : Nat) : Prop := b ∈ blocksOf a.blockSize a.region a.blockCount

/-- At first every block is on the global list. -/
theorem inv_start (ha : Constructed blockSz numBlocks batch a next) :
    Inv (IsBlock a) (blocksOf a.blockSize a.region a.blockCount).reverse
      (fun _ => []) (fun _ => []) (start a next) where
  chain := ha.seeded
  ledger :=
    { nodup := fun k => by
        cases k with
        | global => exact List.nodup_reverse.mpr (nodup_blocksOf ha.placed)
        | _ => exact List.nodup_nil
      only := fun k j b hk hj => by
        cases k with
        | global =>
            cases j with
            | global => rfl
            | _ => cases hj
        | _ => cases hk
      mem := fun b => by
        constructor
        · intro hb
          exact ⟨.global, List.mem_reverse.mpr hb⟩
        · rintro ⟨k, hk⟩
          cases k with
          | global => exact List.mem_reverse.mp hk
          | _ => cases hk }
  holds t := ⟨rfl, rfl⟩
  null := zero_notMem_blocksOf ha.placed

theorem partitioned_of_reachable (ha : Constructed blockSz numBlocks batch a next)
    (h : Reachable (steps a next) s) : Partitioned (IsBlock a) s := by
  refine Reachable.invariant (P := Partitioned (IsBlock a)) ?_ ?_ h
  · rintro s rfl
    exact ⟨_, _, _, inv_start ha⟩
  · rintro s e s' - ⟨g, l, x, hs⟩ hstep
    exact hs.step hstep

/-- What holds between any two steps, for requests of `blockSz` bytes. -/
structure Conserved (blockSz : Nat) (a : Allocator) (s : State) : Prop where
  /-- The global list is `g`, thread `t`'s local chain `l t`, what it has in transit
  `x t`; with the user's blocks they hold every block once. -/
  place : ∃ g l x, Chain 0 s.next s.head.ptr g ∧
    (∀ t, At s.next (s.threads t).localHead (l t) (x t) (s.threads t).pc) ∧
    ∀ i, i < a.blockCount →
      ∃ k, (cell g l x s.live k).count (a.region + i * a.blockSize) = 1 ∧
        ∀ j, j ≠ k → a.region + i * a.blockSize ∉ cell g l x s.live j
  /-- `alloc` returns no block that is live. -/
  fresh : ∀ t block, (s.threads t).pc = .allocated block → block ∉ s.live ∧
    ∃ i, i < a.blockCount ∧ block = a.region + i * a.blockSize
  nodup : s.live.Nodup
  /-- Live pointers are blocks at multiples of 64 bytes inside the region. -/
  inside : ∀ p ∈ s.live, ∃ i, i < a.blockCount ∧ p = a.region + i * a.blockSize ∧
    64 ∣ i * a.blockSize ∧ p + blockSz ≤ a.region + a.blockCount * a.blockSize
  /-- The bytes asked for do not overlap. -/
  disjoint : ∀ p ∈ s.live, ∀ q ∈ s.live, p ≠ q → p + blockSz ≤ q ∨ q + blockSz ≤ p

theorem isBlock_iff (ha : Constructed blockSz numBlocks batch a next) {b : Nat} :
    IsBlock a b ↔ ∃ i, i < a.blockCount ∧ b = a.region + i * a.blockSize := by
  rw [IsBlock, mem_blocksOf]
  constructor
  · rintro ⟨i, hi, rfl⟩
    exact ⟨i, hi, ha.placed.indexToPtr_eq hi⟩
  · rintro ⟨i, hi, rfl⟩
    exact ⟨i, hi, (ha.placed.indexToPtr_eq hi).symm⟩

/-- Blocks of different indices keep the size asked for apart. -/
theorem block_apart (ha : Constructed blockSz numBlocks batch a next) {i j : Nat}
    (hlt : i < j) :
    a.region + i * a.blockSize + blockSz ≤ a.region + j * a.blockSize := by
  have hend : a.region + i * a.blockSize + a.blockSize ≤ _ := block_end_le hlt
  have hsize := ha.le_blockSize
  omega

/-- Block conservation and exclusive ownership, for any number of threads. -/
theorem blocks_conserved (blockSz numBlocks batch : Nat) (a : Allocator)
    (next : Heap) (ha : Constructed blockSz numBlocks batch a next) (s : State)
    (h : Reachable (steps a next) s) : Conserved blockSz a s := by
  obtain ⟨g, l, x, hinv⟩ := partitioned_of_reachable ha h
  have hlive : ∀ p ∈ s.live,
      ∃ i, i < a.blockCount ∧ p = a.region + i * a.blockSize := by
    intro p hp
    have huser : p ∈ cell g l x s.live .user := hp
    exact (isBlock_iff ha).mp (hinv.ledger.mem_of huser)
  exact
    { place := by
        refine ⟨g, l, x, hinv.chain, hinv.holds, fun i hi => ?_⟩
        obtain ⟨k, hk⟩ := (hinv.ledger.mem _).mp ((isBlock_iff ha).mpr ⟨i, hi, rfl⟩)
        exact ⟨k, List.count_eq_one_of_mem (hinv.ledger.nodup k) hk,
          fun j hj => hinv.ledger.notMem hk hj⟩
      fresh := fun t block hpc => by
        obtain ⟨-, heq⟩ := hinv.holds_at hpc
        have hmem : block ∈ cell g l x s.live (.transit t) := by
          rw [cell, heq]
          exact List.mem_cons_self
        exact ⟨hinv.ledger.notMem (l := .user) hmem (fun heq => nomatch heq),
          (isBlock_iff ha).mp (hinv.ledger.mem_of hmem)⟩
      nodup := hinv.ledger.nodup .user
      inside := fun p hp => by
        obtain ⟨i, hi, rfl⟩ := hlive p hp
        exact ⟨i, hi, rfl, Nat.dvd_mul_left_of_dvd ha.dvd.2 i, block_apart ha hi⟩
      disjoint := fun p hp q hq hne => by
        obtain ⟨i, -, rfl⟩ := hlive p hp
        obtain ⟨j, -, rfl⟩ := hlive q hq
        rcases Nat.lt_trichotomy i j with hlt | heq | hgt
        · exact Or.inl (block_apart ha hlt)
        · exact (hne (by rw [heq])).elim
        · exact Or.inr (block_apart ha hgt) }

/-- Thread 1 has a block, writes to it and has another in its cache; thread 0 has taken
the last block off the list and has it in transit. -/
def halfway : List Event :=
  [.callAlloc 0, .step 0, .callAlloc 1] ++ List.replicate 15 (.step 1) ++
    [.scribble 4224 7] ++ List.replicate 5 (.step 0)

theorem blocks_conserved_tlPool3 : ∃ s,
    replay (exec 2) (start TlFreelistAllocator.tlPool3 TlFreelistAllocator.tlHeap3)
      halfway = some s ∧
    (s.live = [4224] ∧ (s.threads 1).localHead = 4160 ∧
      (s.threads 0).pc = .refillWalk 4096 4096 1) ∧
    Conserved 48 TlFreelistAllocator.tlPool3 s :=
  ⟨_, rfl, ⟨rfl, rfl, rfl⟩,
    blocks_conserved 48 3 2 _ _ TlFreelistAllocator.tlPool3_constructed _
      (Reachable.replay halfway (.init rfl) rfl)⟩

end Conservation

end PoolMemalloc.Ports.TlFreelistInterleaving
