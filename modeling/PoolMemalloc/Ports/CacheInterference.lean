import PoolMemalloc.Ports.CacheWorld
import PoolMemalloc.Verified.Transition

/-!
# One `ThreadCache` among other threads

The calls on one cache while other threads use the global list.  A step is one
`push` or `pop` of the global list with the local work that follows it; between
two steps the others may do anything to the heap, to the global list and to the
set of live blocks, except to the nodes this cache holds (`Allowed`).

`Holds` describes the nodes: those of the global list, of the local chain and those
in transit.  `At` adds what is known at each point where the cache waits, which is
where the watermarks come in.  The state carries four fields of history that no
step reads: the nodes held, whether a subtraction has wrapped, the number of calls,
and which of them called `refill` or `flush`.

`watermarks` — at every return the local chain has `local_size` nodes, no more than
twice the batch size, and a flush hands over one node more than the batch size.
-/

namespace PoolMemalloc.Ports.CacheInterference

open PoolMemalloc.Verified.SizeT
open PoolMemalloc.Verified.Transition
open PoolMemalloc.Verified.LinkedChain
open PoolMemalloc.Ports.FreelistAllocator
open PoolMemalloc.Ports.ThreadCache (Cache construct refillWalk flushWalk
  refillWalk_spec flush_batch)
open PoolMemalloc.Ports.CacheWorld (addresses lt_addresses)

/-- Where a call waits for its next `push` or `pop`. -/
inductive Pc
  | idle
  /-- `pop_bulk`, before its first `pop`. -/
  | popFirst
  /-- Head of the `while (count < n)` loop, with the `pop` in its body. -/
  | popNext (start tail count : Nat)
  /-- Head of the `while (node)` loop of `push_bulk`, with the `push` in its body. -/
  | pushNode (node : Nat)
  deriving Repr, DecidableEq

/-- The number of nodes a running `refill` has obtained. -/
def Pc.obtained : Pc → Option Nat
  | .popFirst => some 0
  | .popNext _ _ count => some count
  | _ => none

structure State where
  next : Heap
  head : TaggedPtr
  cache : Cache Unit
  pc : Pc
  live : List Nat
  /-- The nodes of the local chain and those in transit. -/
  held : List Nat
  /-- Some subtraction has gone below zero. -/
  wrapped : Bool
  calls : Nat
  /-- The numbers of the calls that refilled or flushed, the latest first. -/
  transfers : List Nat

inductive Event
  | alloc
  | dealloc (ptr : Nat)
  | pop
  | push
  /-- The other threads' turn; `items` are the nodes of the list they leave. -/
  | interfere (next : Heap) (head : TaggedPtr) (items live : List Nat)

/-- `alloc` after the test of `local_size`. -/
def take (s : State) : State :=
  if s.cache.localHead = 0 then { s with pc := .idle }
  else
    { s with
      cache := { s.cache with
        localHead := s.next s.cache.localHead
        localSize := wrapSub s.cache.localSize 1 }
      pc := .idle
      live := s.cache.localHead :: s.live
      held := s.held.erase s.cache.localHead
      wrapped := s.wrapped || decide (s.cache.localSize < 1) }

@[simp] theorem take_calls (s : State) : (take s).calls = s.calls := by
  unfold take
  split <;> rfl

@[simp] theorem take_transfers (s : State) : (take s).transfers = s.transfers := by
  unfold take
  split <;> rfl

/-- `pop_bulk` ends the batch and returns it; `refill` and `alloc` go on. -/
def splice (s : State) (start tail : Nat) : Option State :=
  let next := Function.update s.next tail 0
  (refillWalk addresses next start 1).map fun walked =>
    take
      { s with
        next := Function.update next walked.1 s.cache.localHead
        cache := { s.cache with
          localHead := start
          localSize := wrap (s.cache.localSize + walked.2) } }

/-- `flush`, once the walk has stopped at `last`, up to the loop of `push_bulk`. -/
def cut (s : State) (last count : Nat) : State :=
  { s with
    -- `flush` ends the batch, and `push_bulk` ends it again
    next := Function.update (Function.update s.next last 0) last 0
    cache := { s.cache with
      localHead := s.next last
      localSize := wrapSub s.cache.localSize count }
    pc := .pushNode s.cache.localHead
    wrapped := s.wrapped || decide (s.cache.localSize < count) }

def flush (s : State) (excess : Nat) : Option State :=
  if s.cache.localHead = 0 ∨ excess = 0 then some { s with pc := .idle }
  else
    (flushWalk addresses s.next excess s.cache.localHead 1).map fun walked =>
      cut s walked.1 walked.2

/-- `dealloc` of a block, up to the test of `local_size`. -/
def link (s : State) (ptr : Nat) : State :=
  { s with
    next := Function.update s.next ptr s.cache.localHead
    cache := { s.cache with
      localHead := ptr
      localSize := wrap (s.cache.localSize + 1) }
    live := s.live.erase ptr
    held := ptr :: s.held }

/-- The list and the live blocks are kept apart from each other and from the nodes
the cache holds, whose links stay as they are. -/
def Allowed (s : State) (next : Heap) (head : TaggedPtr) (items live : List Nat) :
    Prop :=
  Chain 0 next head.ptr items ∧ (items ++ s.held ++ live).Nodup ∧
    ∀ b ∈ s.held, next b = s.next b

instance Allowed.decidable (s : State) (next : Heap) (head : TaggedPtr)
    (items live : List Nat) : Decidable (Allowed s next head items live) :=
  inferInstanceAs (Decidable (_ ∧ _ ∧ _))

/-- One step; `none` where it is not enabled, or where a walk does not end. -/
def exec (s : State) : Event → Option State
  | .alloc =>
      if s.pc = .idle then
        if s.cache.localSize ≤ s.cache.lowWatermark then
          some { s with
            pc := .popFirst
            calls := s.calls + 1
            transfers := (s.calls + 1) :: s.transfers }
        else some (take { s with calls := s.calls + 1 })
      else none
  | .dealloc ptr =>
      if s.pc = .idle then
        if ptr = 0 then some s
        else if ptr ∈ s.live then
          let s' := link { s with calls := s.calls + 1 } ptr
          if s'.cache.localSize > s'.cache.highWatermark then
            flush
              { s' with
                wrapped := s'.wrapped ||
                  decide (s'.cache.localSize < s'.cache.batchSize)
                transfers := s'.calls :: s'.transfers }
              (wrapSub s'.cache.localSize s'.cache.batchSize)
          else some s'
        else none
      else none
  | .pop =>
      match s.pc with
      | .popFirst =>
          let popped := pop s.next s.head
          if popped.1 = 0 then some (take { s with head := popped.2 })
          else
            some { s with
              head := popped.2
              pc := .popNext popped.1 popped.1 1
              held := popped.1 :: s.held }
      | .popNext start tail count =>
          if count < s.cache.batchSize then
            let popped := pop s.next s.head
            if popped.1 = 0 then splice { s with head := popped.2 } start tail
            else
              some { s with
                next := Function.update s.next tail popped.1
                head := popped.2
                pc := .popNext start popped.1 (wrap (count + 1))
                held := popped.1 :: s.held }
          else splice s start tail
      | _ => none
  | .push =>
      match s.pc with
      | .pushNode node =>
          if node = 0 then some { s with pc := .idle }
          else
            let pushed := push s.next s.head node
            some { s with
              next := pushed.1
              head := pushed.2
              pc := .pushNode (s.next node)
              held := s.held.erase node }
      | _ => none
  | .interfere next head items live =>
      if Allowed s next head items live then
        some { s with next := next, head := head, live := live }
      else none

/-- A new cache, on any global list. -/
structure Start (batch : Nat) (s : State) : Prop where
  cache : s.cache = construct () batch
  pc : s.pc = .idle
  held : s.held = []
  unwrapped : s.wrapped = false
  calls : s.calls = 0
  transfers : s.transfers = []
  items : ∃ items, Chain 0 s.next s.head.ptr items ∧ (items ++ s.live).Nodup

/-- All runs of one cache of this batch size among other threads. -/
def steps (batch : Nat) : System State Event := ofExec (Start batch) exec

/-! ## The nodes -/

/-- The nodes of the global list are `g`, those of the local chain `l`, those in
transit `x`. -/
structure Holds (batch : Nat) (g l x : List Nat) (s : State) : Prop where
  items : Chain 0 s.next s.head.ptr g
  chain : Chain 0 s.next s.cache.localHead l
  size : s.cache.localSize = l.length
  nodup : (g ++ l ++ x ++ s.live).Nodup
  held : s.held.Perm (l ++ x)
  batchSize : s.cache.batchSize = batch
  low : s.cache.lowWatermark = batch / 2
  high : s.cache.highWatermark = batch * 2
  unwrapped : s.wrapped = false

/-- What is known of the nodes where the cache waits. -/
def At (batch : Nat) (l x : List Nat) (s : State) : Prop :=
  match s.pc with
  | .idle => x = [] ∧ l.length ≤ batch * 2
  | .popFirst => x = [] ∧ l.length ≤ batch / 2
  | .popNext start tail count => Built 0 s.next start tail x ∧ x.length = count ∧
      count ≤ max batch 1 ∧ l.length ≤ batch / 2
  | .pushNode node => Chain 0 s.next node x ∧ l.length = batch

/-- The nodes are where the cache expects them. -/
def Inv (batch : Nat) (s : State) : Prop :=
  ∃ g l x, Holds batch g l x s ∧ At batch l x s

section Moves

variable {batch : Nat} {g l x : List Nat} {s s' : State} {b : Nat}

/-- The same nodes in other places are still in one place each. -/
private theorem nodup_of_count {nodes nodes' : List Nat} (h : nodes.Nodup)
    (hcount : ∀ c, nodes'.count c = nodes.count c) : nodes'.Nodup :=
  (List.perm_iff_count.mpr hcount).nodup_iff.mpr h

/-- A node is in one place. -/
theorem Holds.count_le (h : Holds batch g l x s) (b : Nat) :
    g.count b + l.count b + x.count b + s.live.count b ≤ 1 := by
  have hcount := List.nodup_iff_count_le_one.mp h.nodup b
  simpa only [List.count_append] using hcount

theorem Holds.of_local (h : Holds batch g l x s) (hb : b ∈ l) :
    b ∉ g ∧ b ∉ x ∧ b ∉ s.live := by
  have hcount := h.count_le b
  rw [← List.count_pos_iff] at hb
  refine ⟨?_, ?_, ?_⟩ <;> exact List.count_eq_zero.mp (by omega)

theorem Holds.of_transit (h : Holds batch g l x s) (hb : b ∈ x) :
    b ∉ g ∧ b ∉ l ∧ b ∉ s.live := by
  have hcount := h.count_le b
  rw [← List.count_pos_iff] at hb
  refine ⟨?_, ?_, ?_⟩ <;> exact List.count_eq_zero.mp (by omega)

theorem Holds.of_live (h : Holds batch g l x s) (hb : b ∈ s.live) :
    b ∉ g ∧ b ∉ l ∧ b ∉ x := by
  have hcount := h.count_le b
  rw [← List.count_pos_iff] at hb
  refine ⟨?_, ?_, ?_⟩ <;> exact List.count_eq_zero.mp (by omega)

theorem Holds.nodup_transit (h : Holds batch g l x s) : x.Nodup := by
  have hparts := (List.nodup_append.mp h.nodup).1
  exact (List.nodup_append.mp hparts).2.1

theorem Holds.nodup_local (h : Holds batch g l x s) : l.Nodup := by
  have hparts := (List.nodup_append.mp (List.nodup_append.mp h.nodup).1).1
  exact (List.nodup_append.mp hparts).2.1

/-- The end of `alloc` hands the top of the local chain to the user. -/
theorem Holds.take (h : Holds batch g l [] s) (hbound : l.length < 2 ^ 64) :
    Holds batch g l.tail [] (take s) ∧ (take s).pc = .idle := by
  by_cases hnull : s.cache.localHead = 0
  · obtain rfl : l = [] := h.chain.eq_nil_iff.mpr hnull
    rw [CacheInterference.take, if_pos hnull]
    exact ⟨{ h with }, rfl⟩
  · obtain ⟨rest, rfl, hrest⟩ := h.chain.pop hnull
    rw [CacheInterference.take, if_neg hnull]
    refine ⟨?_, rfl⟩
    exact
      { h with
        chain := hrest
        size := by
          show wrapSub s.cache.localSize 1 = rest.length
          rw [h.size, wrapSub_of_le hbound (by simp), List.length_cons,
            Nat.add_sub_cancel]
        nodup := by
          refine nodup_of_count h.nodup fun c => ?_
          simp only [List.tail_cons, List.count_append, List.count_cons]
          omega
        held := by simpa using h.held.erase s.cache.localHead
        unwrapped := by
          have hsize := h.size
          rw [List.length_cons] at hsize
          simp [h.unwrapped, hsize] }

/-- The batch `pop_bulk` returns becomes the front of the local chain. -/
theorem Holds.splice {start tail : Nat} (h : Holds batch g l x s)
    (hbuilt : Built 0 s.next start tail x) (hbound : l.length + x.length < 2 ^ 64) :
    ∃ s', splice s start tail = some s' ∧ Holds batch g (x ++ l).tail [] s' ∧
      s'.pc = .idle ∧ s'.calls = s.calls ∧ s'.transfers = s.transfers := by
  have hx := h.nodup_transit
  have htail := h.of_transit hbuilt.tail_mem
  obtain ⟨hwritten, hchain⟩ := hbuilt.write (v := 0) hx
  have hstart : start ≠ 0 := by
    intro hnull
    have hnone : x = [] := (Chain.eq_nil_iff hchain).mpr hnull
    have hmem := hbuilt.tail_mem
    rw [hnone] at hmem
    exact List.not_mem_nil hmem
  obtain ⟨back, hx', hback⟩ := Chain.pop hchain hstart
  have hlength : x.length = 1 + back.length := by
    rw [hx', List.length_cons, Nat.add_comm]
  have hfront : Segment 0 (Function.update s.next tail 0) start [] start := rfl
  have hcount : 1 + back.length < 2 ^ 64 := by omega
  have hfuel : back.length < addresses := lt_addresses (n := 1) (by omega)
  obtain ⟨last, hwalk, hbatch⟩ :=
    refillWalk_spec hfront ⟨rfl, hstart, hback⟩ hfuel hcount
  rw [List.nil_append, ← hx'] at hbatch
  have hlast := h.of_transit hbatch.tail_mem
  have hspliced : Holds batch g (x ++ l) []
      { s with
        next := Function.update (Function.update s.next tail 0) last s.cache.localHead
        cache := { s.cache with
          localHead := start
          localSize := wrap (s.cache.localSize + (1 + back.length)) } } :=
    { h with
      items := (h.items.update htail.1).update hlast.1
      chain := segment_append.mpr ⟨s.cache.localHead, (hbatch.write hx).2,
        (h.chain.update htail.2.1).update hlast.2.1⟩
      size := by
        show wrap (s.cache.localSize + (1 + back.length)) = (x ++ l).length
        rw [h.size, wrap_of_lt (by omega), List.length_append]
        omega
      nodup := by
        refine nodup_of_count h.nodup fun c => ?_
        simp only [List.count_append, List.count_nil]
        omega
      held := by
        rw [List.append_nil]
        exact h.held.trans List.perm_append_comm }
  have hlen : (x ++ l).length < 2 ^ 64 := by
    rw [List.length_append]
    omega
  refine ⟨_, ?_, (hspliced.take hlen).1, (hspliced.take hlen).2, ?_, ?_⟩
  · rw [CacheInterference.splice, hwalk, Option.map_some]
  · rw [take_calls]
  · rw [take_transfers]

/-- `flush(excess)` cuts the first `excess` nodes off the local chain. -/
theorem Holds.flush {excess : Nat} (h : Holds batch g l [] s) (hexcess : 0 < excess)
    (hle : excess ≤ l.length) (hbound : l.length < 2 ^ 64) :
    ∃ s' start, flush s excess = some s' ∧ s'.pc = .pushNode start ∧
      Chain 0 s'.next start (l.take excess) ∧
      Holds batch g (l.drop excess) (l.take excess) s' ∧
      s'.calls = s.calls ∧ s'.transfers = s.transfers := by
  have hhead : s.cache.localHead ≠ 0 := by
    intro hnull
    obtain rfl : l = [] := h.chain.eq_nil_iff.mpr hnull
    rw [List.length_nil] at hle
    omega
  have hidle : ¬ (s.cache.localHead = 0 ∨ excess = 0) := by
    rw [not_or]
    exact ⟨hhead, by omega⟩
  have hfuel : l.length < addresses := hbound
  obtain ⟨last, hwalk, hbuilt, hrest⟩ :=
    flush_batch h.chain hhead (Nat.ne_of_gt hexcess) hfuel hbound
  have hcut : (l.take excess).length = excess := List.length_take_of_le hle
  have hsplit : (l.take excess ++ l.drop excess).Nodup := by
    rw [List.take_append_drop]
    exact h.nodup_local
  obtain ⟨htake, -, hapart⟩ := List.nodup_append.mp hsplit
  have hlast := h.of_local (List.mem_of_mem_take hbuilt.tail_mem)
  have hdrop : last ∉ l.drop excess := fun hmem =>
    hapart last hbuilt.tail_mem last hmem rfl
  rw [hcut] at hwalk
  refine ⟨cut s last excess, s.cache.localHead, ?_, rfl, ?_, ?_, rfl, rfl⟩
  · rw [CacheInterference.flush, if_neg hidle, hwalk, Option.map_some]
  · exact ((hbuilt.write (v := 0) htake).1.write (v := 0) htake).2
  · exact
      { h with
        items := (h.items.update hlast.1).update hlast.1
        chain := (hrest.update hdrop).update hdrop
        size := by
          show wrapSub s.cache.localSize excess = _
          rw [h.size, wrapSub_of_le hbound hle, List.length_drop]
        nodup := by
          refine nodup_of_count h.nodup fun c => ?_
          have hlive : (cut s last excess).live = s.live := rfl
          have hparts := congrArg (List.count c) (List.take_append_drop excess l)
          simp only [hlive, List.count_append, List.count_nil] at hparts ⊢
          omega
        held := by
          refine h.held.trans ?_
          rw [List.append_nil]
          nth_rewrite 1 [← List.take_append_drop excess l]
          exact List.perm_append_comm
        unwrapped := by
          have hsize := h.size
          simp only [cut, h.unwrapped, Bool.false_or, decide_eq_false_iff_not]
          omega }

/-- `dealloc` puts the block in front of the local chain. -/
theorem Holds.link {ptr : Nat} (h : Holds batch g l [] s) (hne : ptr ≠ 0)
    (hlive : ptr ∈ s.live) (hbound : l.length + 1 < 2 ^ 64) :
    Holds batch g (ptr :: l) [] (CacheInterference.link s ptr) := by
  have hnew := h.of_live hlive
  exact
    { h with
      items := h.items.update hnew.1
      chain := Segment.push h.chain hne hnew.2.1
      size := by
        show wrap (s.cache.localSize + 1) = _
        rw [h.size, wrap_of_lt hbound, List.length_cons]
      nodup := by
        refine nodup_of_count h.nodup fun c => ?_
        have hlink : (CacheInterference.link s ptr).live = s.live.erase ptr := rfl
        have hmoved := (List.perm_cons_erase hlive).count_eq c
        simp only [hlink, List.count_append, List.count_cons] at hmoved ⊢
        omega
      held := by
        rw [List.append_nil]
        have hheld := h.held.cons ptr
        rwa [List.append_nil] at hheld }

end Moves

/-! ## What a step can do -/

section Steps

variable {batch : Nat} {g l x : List Nat} {s : State}

theorem exec_alloc (h : Holds batch g l [] s) (hidle : s.pc = .idle)
    (hbound : l.length < 2 ^ 64) :
    (l.length ≤ batch / 2 ∧ exec s .alloc =
        some { s with
          pc := .popFirst
          calls := s.calls + 1
          transfers := (s.calls + 1) :: s.transfers }) ∨
      (batch / 2 < l.length ∧ ∃ s', exec s .alloc = some s' ∧
        Holds batch g l.tail [] s' ∧ s'.pc = .idle ∧ s'.calls = s.calls + 1 ∧
        s'.transfers = s.transfers) := by
  have htest : s.cache.localSize ≤ s.cache.lowWatermark ↔ l.length ≤ batch / 2 := by
    rw [h.size, h.low]
  by_cases hlow : l.length ≤ batch / 2
  · refine Or.inl ⟨hlow, ?_⟩
    rw [exec, if_pos hidle, if_pos (htest.mpr hlow)]
  · have hcalled : Holds batch g l [] { s with calls := s.calls + 1 } := { h with }
    refine Or.inr ⟨Nat.lt_of_not_le hlow, take { s with calls := s.calls + 1 }, ?_,
      (hcalled.take hbound).1, (hcalled.take hbound).2, by simp, by simp⟩
    rw [exec, if_pos hidle, if_neg (fun hle => hlow (htest.mp hle))]

/-- A deallocation flushes from `2 * batch` nodes on, and then `batch + 1` of them. -/
theorem exec_dealloc {ptr : Nat} (hbatch : batch * 2 < 2 ^ 64)
    (h : Holds batch g l [] s) (hidle : s.pc = .idle) (hlen : l.length ≤ batch * 2)
    (hne : ptr ≠ 0) (hlive : ptr ∈ s.live) :
    (l.length < batch * 2 ∧ ∃ s', exec s (.dealloc ptr) = some s' ∧
        Holds batch g (ptr :: l) [] s' ∧ s'.pc = .idle ∧ s'.calls = s.calls + 1 ∧
        s'.transfers = s.transfers) ∨
      (l.length = batch * 2 ∧ ∃ s' start, exec s (.dealloc ptr) = some s' ∧
        s'.pc = .pushNode start ∧
        Chain 0 s'.next start ((ptr :: l).take (batch + 1)) ∧
        Holds batch g ((ptr :: l).drop (batch + 1)) ((ptr :: l).take (batch + 1)) s' ∧
        s'.calls = s.calls + 1 ∧ s'.transfers = (s.calls + 1) :: s.transfers) := by
  have hbound : l.length + 1 < 2 ^ 64 := by omega
  have hcalled : Holds batch g l [] { s with calls := s.calls + 1 } := { h with }
  have hlinked := hcalled.link hne hlive hbound
  have hsize : (link { s with calls := s.calls + 1 } ptr).cache.localSize =
      l.length + 1 := hlinked.size
  by_cases hfull : l.length = batch * 2
  · have htest : (link { s with calls := s.calls + 1 } ptr).cache.localSize >
        (link { s with calls := s.calls + 1 } ptr).cache.highWatermark := by
      rw [hsize, hlinked.high]
      omega
    have hexcess : wrapSub (link { s with calls := s.calls + 1 } ptr).cache.localSize
        (link { s with calls := s.calls + 1 } ptr).cache.batchSize = batch + 1 := by
      rw [hsize, hlinked.batchSize, wrapSub_of_le hbound (by omega)]
      omega
    have hflush : Holds batch g (ptr :: l) []
        { link { s with calls := s.calls + 1 } ptr with
          wrapped := (link { s with calls := s.calls + 1 } ptr).wrapped ||
            decide ((link { s with calls := s.calls + 1 } ptr).cache.localSize <
              (link { s with calls := s.calls + 1 } ptr).cache.batchSize)
          transfers := (s.calls + 1) :: s.transfers } :=
      { hlinked with
        unwrapped := by
          simp only [hlinked.unwrapped, hsize, hlinked.batchSize, Bool.false_or,
            decide_eq_false_iff_not]
          omega }
    obtain ⟨s', start, hrun, hpc, hchain, hholds, hcalls, htransfers⟩ :=
      hflush.flush (Nat.succ_pos batch)
        (by rw [List.length_cons]; omega) (by rw [List.length_cons]; omega)
    refine Or.inr ⟨hfull, s', start, ?_, hpc, hchain, hholds, hcalls, htransfers⟩
    rw [exec, if_pos hidle, if_neg hne, if_pos hlive]
    simp only [if_pos htest, hexcess]
    exact hrun
  · have htest : ¬ (link { s with calls := s.calls + 1 } ptr).cache.localSize >
        (link { s with calls := s.calls + 1 } ptr).cache.highWatermark := by
      rw [hsize, hlinked.high]
      omega
    refine Or.inl ⟨by omega, link { s with calls := s.calls + 1 } ptr, ?_, hlinked,
      hidle, rfl, rfl⟩
    rw [exec, if_pos hidle, if_neg hne, if_pos hlive]
    simp only [if_neg htest]

theorem exec_popFirst (h : Holds batch g l [] s) (hpc : s.pc = .popFirst)
    (hbound : l.length < 2 ^ 64) :
    (s.head.ptr = 0 ∧ ∃ s', exec s .pop = some s' ∧ Holds batch g l.tail [] s' ∧
        s'.pc = .idle ∧ s'.calls = s.calls ∧ s'.transfers = s.transfers) ∨
      (s.head.ptr ≠ 0 ∧ ∃ s' b rest, exec s .pop = some s' ∧ b ≠ 0 ∧
        Holds batch rest l [b] s' ∧ s'.pc = .popNext b b 1 ∧ s'.calls = s.calls ∧
        s'.transfers = s.transfers) := by
  by_cases hnull : s.head.ptr = 0
  · refine Or.inl ⟨hnull, take s, ?_, (h.take hbound).1, (h.take hbound).2, by simp,
      by simp⟩
    simp only [exec, hpc, pop_null hnull, if_true]
    rw [← hpc]
  · obtain ⟨rest, rfl, hrest⟩ := h.items.pop hnull
    refine Or.inr ⟨hnull,
      { s with
        head := ⟨s.next s.head.ptr, wrap (s.head.tag + 1)⟩
        pc := .popNext s.head.ptr s.head.ptr 1
        held := s.head.ptr :: s.held }, s.head.ptr, rest, ?_, hnull, ?_, rfl, rfl, rfl⟩
    · simp only [exec, hpc, pop_top hnull, if_neg hnull]
    · exact
        { h with
          items := hrest
          nodup := by
            refine nodup_of_count h.nodup fun c => ?_
            simp only [List.count_append, List.count_cons, List.count_nil]
            omega
          held := by
            refine (h.held.cons s.head.ptr).trans ?_
            rw [List.append_nil]
            exact (List.perm_append_singleton _ _).symm }

/-- The loop of `pop_bulk` takes one more node, or the refill ends. -/
theorem exec_popNext {start tail count : Nat} (hbatch : batch < 2 ^ 64)
    (h : Holds batch g l x s) (hpc : s.pc = .popNext start tail count)
    (hbuilt : Built 0 s.next start tail x) (hbound : l.length + x.length < 2 ^ 64) :
    ((count < batch → s.head.ptr = 0) ∧ ∃ s', exec s .pop = some s' ∧
        Holds batch g (x ++ l).tail [] s' ∧ s'.pc = .idle ∧ s'.calls = s.calls ∧
        s'.transfers = s.transfers) ∨
      (count < batch ∧ ∃ s' b rest, exec s .pop = some s' ∧
        Holds batch rest l (x ++ [b]) s' ∧ s'.pc = .popNext start b (count + 1) ∧
        Built 0 s'.next start b (x ++ [b]) ∧ s'.calls = s.calls ∧
        s'.transfers = s.transfers) := by
  obtain ⟨ended, hsplice, hended, hidle, hcalls, htransfers⟩ := h.splice hbuilt hbound
  by_cases hmore : count < batch
  · by_cases hnull : s.head.ptr = 0
    · refine Or.inl ⟨fun _ => hnull, ended, ?_, hended, hidle, hcalls, htransfers⟩
      simp only [exec, hpc, h.batchSize, if_pos hmore, pop_null hnull, if_true]
      exact hsplice
    · obtain ⟨rest, rfl, hrest⟩ := h.items.pop hnull
      have htail := h.of_transit hbuilt.tail_mem
      rw [List.mem_cons, not_or] at htail
      refine Or.inr ⟨hmore,
        { s with
          next := Function.update s.next tail s.head.ptr
          head := ⟨s.next s.head.ptr, wrap (s.head.tag + 1)⟩
          pc := .popNext start s.head.ptr (count + 1)
          held := s.head.ptr :: s.held }, s.head.ptr, rest, ?_, ?_, rfl,
        hbuilt.snoc h.nodup_transit hnull, rfl, rfl⟩
      · simp only [exec, hpc, h.batchSize, if_pos hmore, pop_top hnull, if_neg hnull,
          wrap_of_lt (Nat.lt_of_le_of_lt hmore hbatch)]
      · exact
          { h with
            items := hrest.update htail.1.2
            chain := h.chain.update htail.2.1
            nodup := by
              refine nodup_of_count h.nodup fun c => ?_
              simp only [List.count_append, List.count_cons, List.count_nil]
              omega
            held := by
              refine (h.held.cons s.head.ptr).trans ?_
              rw [← List.append_assoc]
              exact (List.perm_append_singleton _ _).symm }
  · refine Or.inl ⟨fun hlt => (hmore hlt).elim, ended, ?_, hended, hidle, hcalls,
      htransfers⟩
    simp only [exec, hpc, h.batchSize, if_neg hmore]
    exact hsplice

/-- The loop of `push_bulk` gives one node back, or the flush ends. -/
theorem exec_push {node : Nat} (h : Holds batch g l x s) (hpc : s.pc = .pushNode node)
    (hchain : Chain 0 s.next node x) :
    (x = [] ∧ exec s .push = some { s with pc := .idle }) ∨
      ∃ rest s' following, x = node :: rest ∧ exec s .push = some s' ∧
        Holds batch (node :: g) l rest s' ∧ s'.pc = .pushNode following ∧
        Chain 0 s'.next following rest ∧ s'.calls = s.calls ∧
        s'.transfers = s.transfers := by
  by_cases hnull : node = 0
  · refine Or.inl ⟨hchain.eq_nil_iff.mpr hnull, ?_⟩
    simp only [exec, hpc, if_pos hnull]
  · obtain ⟨rest, rfl, hrest⟩ := hchain.pop hnull
    have hnode := h.of_transit List.mem_cons_self
    have hnew := (List.nodup_cons.mp h.nodup_transit).1
    refine Or.inr ⟨rest,
      { s with
        next := (push s.next s.head node).1
        head := (push s.next s.head node).2
        pc := .pushNode (s.next node)
        held := s.held.erase node }, s.next node, rfl, ?_, ?_, rfl, hrest.update hnew,
      rfl, rfl⟩
    · simp only [exec, hpc, if_neg hnull]
    · exact
        { h with
          items := push_chain h.items hnull hnode.1
          chain := h.chain.update hnode.2.1
          nodup := by
            refine nodup_of_count h.nodup fun c => ?_
            simp only [List.count_append, List.count_cons]
            omega
          held := by
            have hrest := (h.held.trans List.perm_middle).erase node
            rwa [List.erase_cons_head] at hrest }

/-- The others' turn leaves the nodes of this cache as they are. -/
theorem exec_interfere {next : Heap} {head : TaggedPtr} {items live : List Nat}
    (h : Holds batch g l x s) (hallowed : Allowed s next head items live) :
    Holds batch items l x { s with next := next, head := head, live := live } := by
  obtain ⟨hitems, hnodup, hagree⟩ := hallowed
  exact
    { h with
      items := hitems
      chain := Segment.congr
        (fun b hb => hagree b (h.held.mem_iff.mpr (List.mem_append_left x hb))) h.chain
      nodup := by
        refine nodup_of_count hnodup fun c => ?_
        have hheld := h.held.count_eq c
        simp only [List.count_append] at hheld ⊢
        omega }

/-! ## The invariant -/

/-- What is known depends only on the links of the nodes in transit. -/
theorem At.congr {s' : State} (hat : At batch l x s) (hpc : s'.pc = s.pc)
    (hagree : ∀ b ∈ x, s'.next b = s.next b) : At batch l x s' := by
  unfold At at hat ⊢
  rw [hpc]
  match h : s.pc with
  | .idle =>
      rw [h] at hat
      exact hat
  | .popFirst =>
      rw [h] at hat
      exact hat
  | .popNext start tail count =>
      rw [h] at hat
      exact ⟨hat.1.congr hagree, hat.2⟩
  | .pushNode node =>
      rw [h] at hat
      exact ⟨Segment.congr hagree hat.1, hat.2⟩

theorem Start.inv (h : Start batch s) (hbatch : batch * 2 < 2 ^ 64) : Inv batch s := by
  obtain ⟨items, hitems, hnodup⟩ := h.items
  refine ⟨items, [], [], ?_, ?_⟩
  · exact
      { items := hitems
        chain := by rw [h.cache]; rfl
        size := by rw [h.cache]; rfl
        nodup := by simpa using hnodup
        held := by rw [h.held]; rfl
        batchSize := by rw [h.cache]; rfl
        low := by rw [h.cache]; rfl
        high := by rw [h.cache]; exact wrap_of_lt hbatch
        unwrapped := h.unwrapped }
  · simp [At, h.pc]

/-- What a step does to `local_size` and to the history. -/
inductive Counted (batch : Nat) (s : State) (e : Event) (s' : State) : Prop
  /-- Neither changes: a `push`, a turn of the others, a null pointer. -/
  | same (hobtained : s'.pc.obtained = s.pc.obtained)
      (hsize : s'.cache.localSize = s.cache.localSize) (hcalls : s'.calls = s.calls)
      (htransfers : s'.transfers = s.transfers)
  /-- `alloc` from the local chain. -/
  | taken (hidle : s.pc.obtained = none) (hlow : batch / 2 < s.cache.localSize)
      (hidle' : s'.pc.obtained = none) (hsize : s'.cache.localSize = s.cache.localSize - 1)
      (hcalls : s'.calls = s.calls + 1) (htransfers : s'.transfers = s.transfers)
  /-- `dealloc` without a flush. -/
  | put (hidle : s.pc.obtained = none) (hhigh : s.cache.localSize < batch * 2)
      (hidle' : s'.pc.obtained = none) (hsize : s'.cache.localSize = s.cache.localSize + 1)
      (hcalls : s'.calls = s.calls + 1) (htransfers : s'.transfers = s.transfers)
  /-- `alloc` has called `refill`. -/
  | refill (hidle : s.pc.obtained = none) (hlow : s.cache.localSize ≤ batch / 2)
      (hobtained : s'.pc.obtained = some 0)
      (hsize : s'.cache.localSize = s.cache.localSize)
      (hcalls : s'.calls = s.calls + 1)
      (htransfers : s'.transfers = (s.calls + 1) :: s.transfers)
  /-- `refill` has obtained one more node. -/
  | popped (n : Nat) (hobtained : s.pc.obtained = some n) (hmore : n < max batch 1)
      (hobtained' : s'.pc.obtained = some (n + 1))
      (hsize : s'.cache.localSize = s.cache.localSize) (hcalls : s'.calls = s.calls)
      (htransfers : s'.transfers = s.transfers)
  /-- `alloc` returns after a refill, which ends early only on an empty list. -/
  | refilled (n : Nat) (hevent : e = .pop) (hobtained : s.pc.obtained = some n)
      (hmax : n ≤ max batch 1) (hdry : n < batch → s.head.ptr = 0) (hidle : s'.pc.obtained = none)
      (hsize : s'.cache.localSize = s.cache.localSize + n - 1)
      (hcalls : s'.calls = s.calls) (htransfers : s'.transfers = s.transfers)
  /-- `dealloc` has called `flush`. -/
  | flush (hidle : s.pc.obtained = none) (hhigh : s.cache.localSize = batch * 2)
      (hidle' : s'.pc.obtained = none) (hsize : s'.cache.localSize = batch)
      (hcalls : s'.calls = s.calls + 1)
      (htransfers : s'.transfers = (s.calls + 1) :: s.transfers)

/-- A step of one kind keeps the invariant and counts as `Counted` says. -/
private theorem Inv.alloc {s' : State} (hbatch : batch * 2 < 2 ^ 64)
    (h : Inv batch s) (hstep : exec s .alloc = some s') :
    Inv batch s' ∧ Counted batch s .alloc s' := by
  obtain ⟨g, l, x, hholds, hat⟩ := h
  have hidle : s.pc = .idle := by
    by_contra hbusy
    rw [exec, if_neg hbusy] at hstep
    cases hstep
  have hobtained : s.pc.obtained = none :=
    congrArg Pc.obtained hidle
  rw [At, hidle] at hat
  obtain ⟨rfl, hlen⟩ := hat
  have hsize := hholds.size
  rcases exec_alloc hholds hidle (by omega) with
    ⟨hlow, hrun⟩ | ⟨hhigh, s'', hrun, hholds', hidle', hcalls, htransfers⟩
  · obtain rfl := Option.some.inj (hrun.symm.trans hstep)
    exact ⟨⟨g, l, [], { hholds with }, rfl, hlow⟩,
      .refill hobtained (by omega) rfl rfl rfl rfl⟩
  · obtain rfl := Option.some.inj (hrun.symm.trans hstep)
    have hsize' := hholds'.size
    rw [List.length_tail] at hsize'
    refine ⟨⟨g, l.tail, [], hholds', ?_⟩, .taken hobtained (by omega)
      (congrArg Pc.obtained hidle') (by omega) hcalls htransfers⟩
    rw [At, hidle', List.length_tail]
    exact ⟨rfl, by omega⟩

private theorem Inv.dealloc {s' : State} {ptr : Nat} (hbatch : batch * 2 < 2 ^ 64)
    (h : Inv batch s) (hstep : exec s (.dealloc ptr) = some s') :
    Inv batch s' ∧ Counted batch s (.dealloc ptr) s' := by
  have hidle : s.pc = .idle := by
    by_contra hbusy
    rw [exec, if_neg hbusy] at hstep
    cases hstep
  by_cases hnull : ptr = 0
  · rw [exec, if_pos hidle, if_pos hnull] at hstep
    cases hstep
    exact ⟨h, .same rfl rfl rfl rfl⟩
  have hlive : ptr ∈ s.live := by
    by_contra hdead
    rw [exec, if_pos hidle, if_neg hnull, if_neg hdead] at hstep
    cases hstep
  obtain ⟨g, l, x, hholds, hat⟩ := h
  have hobtained : s.pc.obtained = none :=
    congrArg Pc.obtained hidle
  rw [At, hidle] at hat
  obtain ⟨rfl, hlen⟩ := hat
  have hsize := hholds.size
  rcases exec_dealloc hbatch hholds hidle hlen hnull hlive with
    ⟨hless, s'', hrun, hholds', hidle', hcalls, htransfers⟩ |
    ⟨hfull, s'', start, hrun, hpc, hchain, hholds', hcalls, htransfers⟩
  · obtain rfl := Option.some.inj (hrun.symm.trans hstep)
    have hsize' := hholds'.size
    rw [List.length_cons] at hsize'
    refine ⟨⟨g, ptr :: l, [], hholds', ?_⟩, .put hobtained (by omega)
      (congrArg Pc.obtained hidle') (by omega) hcalls htransfers⟩
    rw [At, hidle', List.length_cons]
    exact ⟨rfl, hless⟩
  · obtain rfl := Option.some.inj (hrun.symm.trans hstep)
    have hsize' := hholds'.size
    rw [List.length_drop, List.length_cons] at hsize'
    refine ⟨⟨g, _, _, hholds', ?_⟩, .flush hobtained (by omega)
      (congrArg Pc.obtained hpc) (by omega) hcalls htransfers⟩
    rw [At, hpc, List.length_drop, List.length_cons]
    exact ⟨hchain, by omega⟩

private theorem Inv.pop {s' : State} (hbatch : batch * 2 < 2 ^ 64)
    (h : Inv batch s) (hstep : exec s .pop = some s') :
    Inv batch s' ∧ Counted batch s .pop s' := by
  obtain ⟨g, l, x, hholds, hat⟩ := h
  have hsize := hholds.size
  match hpc : s.pc with
  | .idle => simp [exec, hpc] at hstep
  | .pushNode node => simp [exec, hpc] at hstep
  | .popFirst =>
      have hobtained : s.pc.obtained = some 0 := congrArg Pc.obtained hpc
      rw [At, hpc] at hat
      obtain ⟨rfl, hlen⟩ := hat
      rcases exec_popFirst hholds hpc (by omega) with
        ⟨hdry, s'', hrun, hholds', hidle', hcalls, htransfers⟩ |
        ⟨-, s'', b, rest, hrun, hne, hholds', hpc', hcalls, htransfers⟩
      · obtain rfl := Option.some.inj (hrun.symm.trans hstep)
        have hsize' := hholds'.size
        rw [List.length_tail] at hsize'
        refine ⟨⟨g, l.tail, [], hholds', ?_⟩, .refilled 0 rfl hobtained (Nat.zero_le _)
          (fun _ => hdry) (congrArg Pc.obtained hidle') (by omega) hcalls htransfers⟩
        rw [At, hidle', List.length_tail]
        exact ⟨rfl, by omega⟩
      · obtain rfl := Option.some.inj (hrun.symm.trans hstep)
        refine ⟨⟨rest, l, [b], hholds', ?_⟩, .popped 0 hobtained (by omega)
          (congrArg Pc.obtained hpc') (hholds'.size.trans hsize.symm) hcalls htransfers⟩
        rw [At, hpc']
        exact ⟨built_singleton hne, rfl, by omega, hlen⟩
  | .popNext start tail count =>
      have hobtained : s.pc.obtained = some count := congrArg Pc.obtained hpc
      rw [At, hpc] at hat
      obtain ⟨hbuilt, hcount, hmax, hlen⟩ := hat
      rcases exec_popNext (by omega) hholds hpc hbuilt (by omega) with
        ⟨hdry, s'', hrun, hholds', hidle', hcalls, htransfers⟩ |
        ⟨hmore, s'', b, rest, hrun, hholds', hpc', hbuilt', hcalls, htransfers⟩
      · obtain rfl := Option.some.inj (hrun.symm.trans hstep)
        have hsize' := hholds'.size
        rw [List.length_tail, List.length_append] at hsize'
        refine ⟨⟨g, (x ++ l).tail, [], hholds', ?_⟩, .refilled count rfl hobtained hmax hdry
          (congrArg Pc.obtained hidle') (by omega) hcalls htransfers⟩
        rw [At, hidle', List.length_tail, List.length_append]
        exact ⟨rfl, by omega⟩
      · obtain rfl := Option.some.inj (hrun.symm.trans hstep)
        refine ⟨⟨rest, l, x ++ [b], hholds', ?_⟩, .popped count hobtained (by omega)
          (congrArg Pc.obtained hpc') (hholds'.size.trans hsize.symm) hcalls htransfers⟩
        rw [At, hpc', List.length_append, List.length_singleton]
        exact ⟨hbuilt', by omega, by omega, hlen⟩

private theorem Inv.push {s' : State} (h : Inv batch s)
    (hstep : exec s .push = some s') : Inv batch s' ∧ Counted batch s .push s' := by
  obtain ⟨g, l, x, hholds, hat⟩ := h
  match hpc : s.pc with
  | .idle => simp [exec, hpc] at hstep
  | .popFirst => simp [exec, hpc] at hstep
  | .popNext start tail count => simp [exec, hpc] at hstep
  | .pushNode node =>
      have hobtained : s.pc.obtained = none := congrArg Pc.obtained hpc
      rw [At, hpc] at hat
      obtain ⟨hchain, hlen⟩ := hat
      rcases exec_push hholds hpc hchain with
        ⟨rfl, hrun⟩ |
        ⟨rest, s'', following, rfl, hrun, hholds', hpc', hchain', hcalls, htransfers⟩
      · obtain rfl := Option.some.inj (hrun.symm.trans hstep)
        exact ⟨⟨g, l, [], { hholds with }, rfl, by omega⟩, .same hobtained.symm rfl rfl rfl⟩
      · obtain rfl := Option.some.inj (hrun.symm.trans hstep)
        refine ⟨⟨node :: g, l, rest, hholds', ?_⟩,
          .same ((congrArg Pc.obtained hpc').trans hobtained.symm)
            (hholds'.size.trans hholds.size.symm) hcalls htransfers⟩
        rw [At, hpc']
        exact ⟨hchain', hlen⟩

private theorem Inv.interfere {s' : State} {next : Heap} {head : TaggedPtr}
    {items live : List Nat} (h : Inv batch s)
    (hstep : exec s (.interfere next head items live) = some s') :
    Inv batch s' ∧ Counted batch s (.interfere next head items live) s' := by
  obtain ⟨g, l, x, hholds, hat⟩ := h
  have hallowed : Allowed s next head items live := by
    by_contra hrefused
    rw [exec, if_neg hrefused] at hstep
    cases hstep
  rw [exec, if_pos hallowed] at hstep
  obtain rfl := Option.some.inj hstep
  refine ⟨⟨items, l, x, exec_interfere hholds hallowed, hat.congr rfl fun c hc => ?_⟩,
    .same rfl rfl rfl rfl⟩
  exact hallowed.2.2 c (hholds.held.mem_iff.mpr (List.mem_append_right l hc))

theorem Inv.step {s' : State} {e : Event} (hbatch : batch * 2 < 2 ^ 64)
    (h : Inv batch s) (hstep : exec s e = some s') :
    Inv batch s' ∧ Counted batch s e s' := by
  cases e with
  | alloc => exact h.alloc hbatch hstep
  | dealloc ptr => exact h.dealloc hbatch hstep
  | pop => exact h.pop hbatch hstep
  | push => exact h.push hstep
  | interfere next head items live => exact h.interfere hstep

theorem Inv.of_reachable (hbatch : batch * 2 < 2 ^ 64)
    (h : Reachable (steps batch) s) : Inv batch s :=
  Reachable.invariant (P := Inv batch) (fun _ hinit => Start.inv hinit hbatch)
    (fun _ _ _ _ hinv hstep => (Inv.step hbatch hinv hstep).1) h

end Steps

/-! ## The watermarks -/

/-- Size and watermarks of the local chain, seen from a state of a run. -/
structure Watermarked (batch : Nat) (s : State) : Prop where
  /-- Between calls `local_size` counts a chain without repetitions, up to the high
  watermark. -/
  returned : s.pc = .idle →
    ∃ nodes, Chain 0 s.next s.cache.localHead nodes ∧ nodes.Nodup ∧
      nodes.length = s.cache.localSize ∧ s.cache.localSize ≤ batch * 2
  /-- No subtraction has gone below zero. -/
  unwrapped : s.wrapped = false
  /-- A deallocation that passes the high watermark hands over `batch + 1` nodes. -/
  flushes : ∀ ptr s', ptr ≠ 0 → exec s (.dealloc ptr) = some s' →
    wrap (s.cache.localSize + 1) > s.cache.highWatermark →
    ∃ start nodes, s'.pc = .pushNode start ∧ Chain 0 s'.next start nodes ∧
      nodes.Nodup ∧ nodes.length = batch + 1 ∧ s'.cache.localSize = batch
  /-- `local_size` is the batch size until the flush returns. -/
  flushed : ∀ node s', s.pc = .pushNode node → exec s .push = some s' →
    s'.cache.localSize = batch
  /-- The calls go on: no walk is endless. -/
  continues : (s.pc = .idle → (exec s .alloc).isSome ∧
      ∀ ptr, ptr = 0 ∨ ptr ∈ s.live → (exec s (.dealloc ptr)).isSome) ∧
    (s.pc.obtained.isSome → (exec s .pop).isSome) ∧
    ∀ node, s.pc = .pushNode node → (exec s .push).isSome

section Watermarks

variable {batch : Nat} {s : State}

private theorem Inv.returned (h : Inv batch s) (hidle : s.pc = .idle) :
    ∃ nodes, Chain 0 s.next s.cache.localHead nodes ∧ nodes.Nodup ∧
      nodes.length = s.cache.localSize ∧ s.cache.localSize ≤ batch * 2 := by
  obtain ⟨g, l, x, hholds, hat⟩ := h
  rw [At, hidle] at hat
  exact ⟨l, hholds.chain, hholds.nodup_local, hholds.size.symm,
    by rw [hholds.size]; exact hat.2⟩

private theorem Inv.flushes (hbatch : batch * 2 < 2 ^ 64) (h : Inv batch s) {ptr : Nat}
    {s' : State} (hne : ptr ≠ 0) (hstep : exec s (.dealloc ptr) = some s')
    (hhigh : wrap (s.cache.localSize + 1) > s.cache.highWatermark) :
    ∃ start nodes, s'.pc = .pushNode start ∧ Chain 0 s'.next start nodes ∧
      nodes.Nodup ∧ nodes.length = batch + 1 ∧ s'.cache.localSize = batch := by
  have hidle : s.pc = .idle := by
    by_contra hbusy
    rw [exec, if_neg hbusy] at hstep
    cases hstep
  have hlive : ptr ∈ s.live := by
    by_contra hdead
    rw [exec, if_pos hidle, if_neg hne, if_neg hdead] at hstep
    cases hstep
  obtain ⟨g, l, x, hholds, hat⟩ := h
  rw [At, hidle] at hat
  obtain ⟨rfl, hlen⟩ := hat
  rw [hholds.size, hholds.high, wrap_of_lt (by omega)] at hhigh
  rcases exec_dealloc hbatch hholds hidle hlen hne hlive with
    ⟨hless, -⟩ | ⟨hfull, s'', start, hrun, hpc, hchain, hholds', -⟩
  · omega
  · obtain rfl := Option.some.inj (hrun.symm.trans hstep)
    refine ⟨start, (ptr :: l).take (batch + 1), hpc, hchain, hholds'.nodup_transit, ?_, ?_⟩
    · rw [List.length_take, List.length_cons]
      omega
    · rw [hholds'.size, List.length_drop, List.length_cons]
      omega

private theorem Inv.flushed (h : Inv batch s) {node : Nat} {s' : State}
    (hpc : s.pc = .pushNode node) (hstep : exec s .push = some s') :
    s'.cache.localSize = batch := by
  obtain ⟨g, l, x, hholds, hat⟩ := h
  rw [At, hpc] at hat
  obtain ⟨hchain, hlen⟩ := hat
  rcases exec_push hholds hpc hchain with
    ⟨-, hrun⟩ | ⟨rest, s'', following, -, hrun, hholds', -⟩
  · obtain rfl := Option.some.inj (hrun.symm.trans hstep)
    exact hholds.size.trans hlen
  · obtain rfl := Option.some.inj (hrun.symm.trans hstep)
    exact hholds'.size.trans hlen

private theorem Inv.continues (hbatch : batch * 2 < 2 ^ 64) (h : Inv batch s) :
    (s.pc = .idle → (exec s .alloc).isSome ∧
      ∀ ptr, ptr = 0 ∨ ptr ∈ s.live → (exec s (.dealloc ptr)).isSome) ∧
    (s.pc.obtained.isSome → (exec s .pop).isSome) ∧
    ∀ node, s.pc = .pushNode node → (exec s .push).isSome := by
  obtain ⟨g, l, x, hholds, hat⟩ := h
  refine ⟨fun hidle => ?_, fun hobtained => ?_, fun node hpc => ?_⟩
  · rw [At, hidle] at hat
    obtain ⟨rfl, hlen⟩ := hat
    refine ⟨?_, fun ptr hptr => ?_⟩
    · rcases exec_alloc hholds hidle (by omega) with ⟨-, hrun⟩ | ⟨-, s', hrun, -⟩ <;>
        rw [hrun, Option.isSome_some]
    · by_cases hnull : ptr = 0
      · rw [exec, if_pos hidle, if_pos hnull, Option.isSome_some]
      · rcases exec_dealloc hbatch hholds hidle hlen hnull (hptr.resolve_left hnull) with
          ⟨-, s', hrun, -⟩ | ⟨-, s', start, hrun, -⟩ <;>
          rw [hrun, Option.isSome_some]
  · match hpc : s.pc with
    | .idle => simp [hpc, Pc.obtained] at hobtained
    | .pushNode node => simp [hpc, Pc.obtained] at hobtained
    | .popFirst =>
        rw [At, hpc] at hat
        obtain ⟨rfl, hlen⟩ := hat
        rcases exec_popFirst hholds hpc (by omega) with
          ⟨-, s', hrun, -⟩ | ⟨-, s', b, rest, hrun, -⟩ <;>
          rw [hrun, Option.isSome_some]
    | .popNext start tail count =>
        rw [At, hpc] at hat
        obtain ⟨hbuilt, hcount, hmax, hlen⟩ := hat
        rcases exec_popNext (by omega) hholds hpc hbuilt (by omega) with
          ⟨-, s', hrun, -⟩ | ⟨-, s', b, rest, hrun, -⟩ <;>
          rw [hrun, Option.isSome_some]
  · rw [At, hpc] at hat
    rcases exec_push hholds hpc hat.1 with ⟨-, hrun⟩ | ⟨rest, s', following, -, hrun, -⟩ <;>
      rw [hrun, Option.isSome_some]

/-- Sizes and watermarks hold whatever the other threads do, for every batch size
whose double is representable. -/
theorem watermarks (batch : Nat) (hbatch : batch * 2 < 2 ^ 64) (s : State)
    (h : Reachable (steps batch) s) : Watermarked batch s := by
  have hinv := Inv.of_reachable hbatch h
  exact
    { returned := hinv.returned
      unwrapped := by
        obtain ⟨g, l, x, hholds, -⟩ := hinv
        exact hholds.unwrapped
      flushes := fun _ _ hne hstep hhigh => hinv.flushes hbatch hne hstep hhigh
      flushed := fun _ _ hpc hstep => hinv.flushed hpc hstep
      continues := hinv.continues hbatch }

end Watermarks

/-- A cache of batch size 0 beside a list of blocks 64 and 128. -/
def cache0 : State where
  next := Function.update (fun _ => 0) 64 128
  head := ⟨64, 0⟩
  cache := construct () 0
  pc := .idle
  live := []
  held := []
  wrapped := false
  calls := 0
  transfers := []

theorem cache0_start : Start 0 cache0 where
  cache := rfl
  pc := rfl
  held := rfl
  unwrapped := rfl
  calls := rfl
  transfers := rfl
  items := ⟨[64, 128], by decide, by decide⟩

/-- While the refill is under way the others take block 128 off the list; the
deallocation that follows flushes. -/
def cache0_events : List Event :=
  [.alloc, .pop, .interfere cache0.next ⟨0, 1⟩ [] [128], .pop, .dealloc 64, .push, .push]

/-- The watermarks after that run. -/
theorem watermarks_cache0 : ∃ s, replay exec cache0 cache0_events = some s ∧
    Watermarked 0 s := by
  have hrun : (replay exec cache0 cache0_events).isSome := by decide +kernel
  obtain ⟨s, hs⟩ := Option.isSome_iff_exists.mp hrun
  exact ⟨s, hs, watermarks 0 (by decide) s
    (Reachable.replay cache0_events (.init cache0_start) hs)⟩

end PoolMemalloc.Ports.CacheInterference
