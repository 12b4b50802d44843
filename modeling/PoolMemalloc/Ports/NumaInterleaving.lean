import PoolMemalloc.Ports.NumaCalls
import PoolMemalloc.Ports.TlFreelistLinearizable
import PoolMemalloc.Ports.TlFreelistLocality

/-!
# Concurrent use of one `NumaAllocator`

Any number of threads run `alloc` and `dealloc` one step at a time, each on whatever node
`current_node` says at the call.  A node has a global list with its mutex and a cache for
each thread; the steps in them are those of
`PoolMemalloc.Ports.TlFreelistInterleaving`, on links that lie in one heap for all nodes.
`alloc` goes from cache to cache until one has a block, and `dealloc` goes to the cache
for the node `owner_node` finds.

`project` is what one node sees: the links of its own blocks and the live blocks that are
its own.  A step in another node is nothing to it (`project_of_visit`), since the thread
there holds blocks of that node only, and so every node runs as if it were an allocator of
its own (`Ok`).  What is known of one `ThreadLocalFreelistAllocator` then holds of each
node.
-/

namespace PoolMemalloc.Ports.NumaInterleaving

open PoolMemalloc.Verified.SizeT
open PoolMemalloc.Verified.Transition
open PoolMemalloc.Verified.LinkedChain
open PoolMemalloc.Verified.Conservation
open PoolMemalloc.Verified.Linearization
open PoolMemalloc.Ports.BlockArray
open PoolMemalloc.Ports.FreelistAllocator
open PoolMemalloc.Ports.NumaAllocator
open PoolMemalloc.Ports.NumaCalls (Constructed numaPool3 numaPool3_constructed)
open PoolMemalloc.Ports.TlFreelistAllocator (seed seed_of_notMem alignUp cacheLine alignUp_eq
  atLeastFreeBlock regionBytes regionBytes_eq constructed_of_granted)
open PoolMemalloc.Ports.TlFreelistInterleaving (Pc Thread Inv At Partitioned Exclusive
  Follows step_local footprint)
open PoolMemalloc.Ports.TlFreelistLinearizable (note note_congr object
  related_of_reachable)

/-- The global list of a node, and the threads' caches for it. -/
structure Node where
  head : TaggedPtr
  bulkLock : Option Nat
  threads : Nat → Thread

/-- The running call of a thread. -/
inductive Call
  | idle
  /-- `get_cache(node).alloc()`, with the nodes `rest` to be tried after it. -/
  | alloc (node : Nat) (rest : List Nat)
  /-- `get_cache(node).dealloc(ptr)`. -/
  | dealloc (node : Nat)
  deriving Repr, DecidableEq

structure State where
  next : Heap
  nodes : Nat → Node
  calls : Nat → Call
  live : List Nat

inductive Event
  /-- `currentNode` is what `numa::current_node` returns. -/
  | callAlloc (thread currentNode : Nat)
  | callDealloc (thread ptr : Nat)
  | step (thread : Nat)
  | scribble (block value : Nat)
  deriving Repr, DecidableEq

/-- The pool of node `n` as a machine of its own. -/
def State.node (s : State) (n : Nat) : TlFreelistInterleaving.State where
  next := s.next
  head := (s.nodes n).head
  bulkLock := (s.nodes n).bulkLock
  threads := (s.nodes n).threads
  live := s.live

/-- The pool of node `n` has gone on to `o`. -/
def State.setNode (s : State) (n : Nat) (o : TlFreelistInterleaving.State) : State :=
  { s with
    next := o.next
    nodes := Function.update s.nodes n ⟨o.head, o.bulkLock, o.threads⟩
    live := o.live }

def State.call (s : State) (t : Nat) (c : Call) : State :=
  { s with calls := Function.update s.calls t c }

/-- Thread `t` takes the step `e` in the pool of node `n`; its call is then at `after`. -/
def visit (a : Allocator) (s : State) (t n : Nat) (e : TlFreelistInterleaving.Event)
    (after : TlFreelistInterleaving.State → Call) : Option State :=
  (TlFreelistInterleaving.exec (a.pools n).batchSize (s.node n) e).map fun o =>
    (s.setNode n o).call t (after o)

/-- Thread `t` goes to the first of the nodes it has not tried; with none left `alloc`
returns null. -/
def tryNext (a : Allocator) (s : State) (t : Nat) : List Nat → Option State
  | [] => some (s.call t .idle)
  | n :: rest => visit a s t n (.callAlloc t) fun _ => .alloc n rest

/-- Where a `dealloc` is after a step of the cache of node `n`. -/
def afterDealloc (t n : Nat) (o : TlFreelistInterleaving.State) : Call :=
  if (o.threads t).pc = .idle then .idle else .dealloc n

/-- One step; `none` where it is not enabled. -/
def exec (a : Allocator) (s : State) : Event → Option State
  | .callAlloc t currentNode =>
      if s.calls t = .idle then tryNext a s t (nodeOrder a currentNode) else none
  | .callDealloc t ptr =>
      if s.calls t = .idle ∧ (ptr = 0 ∨ ptr ∈ s.live) then
        visit a s t (ownerNode a ptr) (.callDealloc t ptr) (afterDealloc t (ownerNode a ptr))
      else none
  | .step t =>
      match s.calls t with
      | .idle => none
      | .alloc n rest =>
          let pc := ((s.nodes n).threads t).pc
          -- the cache has returned null
          if pc = .idle then tryNext a s t rest
          else visit a s t n (.step t) fun _ =>
            if pc.grants = [] then .alloc n rest else .idle
      | .dealloc n => visit a s t n (.step t) (afterDealloc t n)
  | .scribble block value =>
      if block ∈ s.live then
        some { s with next := Function.update s.next block value }
      else none

/-- After the constructor, before any thread has a cache. -/
def start (next : Heap) (heads : Nat → TaggedPtr) : State where
  next := next
  nodes n :=
    { head := heads n
      bulkLock := none
      threads := fun _ => { pc := .idle, localHead := 0, localSize := 0 } }
  calls _ := .idle
  live := []

/-- The node a step goes to, and what it does there. -/
def visits (a : Allocator) (s : State) :
    Event → Option (Nat × TlFreelistInterleaving.Event)
  | .callAlloc t currentNode =>
      (nodeOrder a currentNode).head?.map fun n => (n, .callAlloc t)
  | .callDealloc t ptr => some (ownerNode a ptr, .callDealloc t ptr)
  | .step t =>
      match s.calls t with
      | .idle => none
      | .alloc n rest =>
          if ((s.nodes n).threads t).pc = .idle then
            rest.head?.map fun m => (m, .callAlloc t)
          else some (n, .step t)
      | .dealloc n => some (n, .step t)
  | .scribble _ _ => none

/-- What a step adds to the history of the calls on the caches of node `n`. -/
def nodeNote (a : Allocator) (n : Nat) (s : State) (e : Event) (s' : State) :
    List (Mark Nat TlFreelistLinearizable.Call Nat) :=
  match visits a s e with
  | some (m, e') => if m = n then note (s.node n) e' (s'.node n) else []
  | none => []

def steps (a : Allocator) (next : Heap) (heads : Nat → TaggedPtr) : System State Event :=
  ofExec (fun s => s = start next heads) (exec a)

/-- The runs with the history of the calls on the caches of node `n`. -/
def histories (a : Allocator) (next : Heap) (heads : Nat → TaggedPtr) (n : Nat) :
    System (State × List (Mark Nat TlFreelistLinearizable.Call Nat)) Event :=
  recorded (fun s => s = start next heads) (exec a) []
    fun s e s' past => nodeNote a n s e s' ++ past

/-! ## What a node sees -/

/-- The pool of node `n`, as an allocator of its own. -/
def nodeAllocator (a : Allocator) (heads : Nat → TaggedPtr) (n : Nat) :
    TlFreelistAllocator.Allocator where
  global := heads n
  batchSize := (a.pools n).batchSize
  blockSize := (a.pools n).blockSize
  blockCount := (a.pools n).blockCount
  region := (a.pools n).region

/-- Node `n` with its own blocks; what it sees of other memory is always `base n`. -/
def project (a : Allocator) (base : Nat → Heap) (n : Nat) (s : State) :
    TlFreelistInterleaving.State :=
  { s.node n with
    next := fun b => if b ∈ nodeBlocks a n then s.next b else base n b
    live := s.live.filter (· ∈ nodeBlocks a n) }

/-- A step that is `e` to node `n` and nothing to the others. -/
structure StepOf (a : Allocator) (base : Nat → Heap) (s : State) (n : Nat)
    (e : TlFreelistInterleaving.Event) (s' : State) : Prop where
  own : TlFreelistInterleaving.exec (a.pools n).batchSize (project a base n s) e =
    some (project a base n s')
  others : ∀ m, m < a.numNodes → m ≠ n → project a base m s' = project a base m s
  live : ∀ b ∈ s'.live, b ∈ s.live ∨ b ∈ nodeBlocks a n

section Projection

variable {a : Allocator} {base : Nat → Heap} {s s' : State} {n m t b : Nat}
variable {o : TlFreelistInterleaving.State} {e : TlFreelistInterleaving.Event} {c : Call}

theorem project_next_of_mem (hb : b ∈ nodeBlocks a n) :
    (project a base n s).next b = s.next b :=
  if_pos hb

theorem project_next_of_notMem (hb : b ∉ nodeBlocks a n) :
    (project a base n s).next b = base n b :=
  if_neg hb

theorem mem_project_live : b ∈ (project a base n s).live ↔ b ∈ s.live ∧ b ∈ nodeBlocks a n := by
  simp [project]

theorem project_congr (hnode : s'.nodes n = s.nodes n)
    (hnext : ∀ b ∈ nodeBlocks a n, s'.next b = s.next b)
    (hlive : (project a base n s').live = (project a base n s).live) :
    project a base n s' = project a base n s := by
  have hnext' : (project a base n s').next = (project a base n s).next := by
    funext b
    by_cases hb : b ∈ nodeBlocks a n
    · rw [project_next_of_mem hb, project_next_of_mem hb, hnext b hb]
    · rw [project_next_of_notMem hb, project_next_of_notMem hb]
  simp only [project, State.node, TlFreelistInterleaving.State.mk.injEq] at hnext' hlive ⊢
  rw [hnode]
  exact ⟨hnext', rfl, rfl, rfl, hlive⟩

/-- The node a step went to, after it. -/
theorem project_visited : project a base n ((s.setNode n o).call t c) =
    { o with
      next := fun b => if b ∈ nodeBlocks a n then o.next b else base n b
      live := o.live.filter (· ∈ nodeBlocks a n) } := by
  simp [project, State.call, State.setNode, State.node]

theorem project_other (hne : m ≠ n) (hnext : ∀ b ∈ nodeBlocks a m, o.next b = s.next b)
    (hlive : o.live.filter (· ∈ nodeBlocks a m) = s.live.filter (· ∈ nodeBlocks a m)) :
    project a base m ((s.setNode n o).call t c) = project a base m s := by
  apply project_congr
  · simp [State.call, State.setNode, hne]
  · exact hnext
  · exact hlive

theorem stepOf_callAlloc
    (ho : TlFreelistInterleaving.exec (a.pools n).batchSize (s.node n) (.callAlloc t) = some o) :
    StepOf a base s n (.callAlloc t) ((s.setNode n o).call t c) := by
  simp only [TlFreelistInterleaving.exec, Option.ite_none_right_eq_some,
    Option.some.injEq] at ho
  obtain ⟨hidle, rfl⟩ := ho
  exact
    { own := by
        rw [project_visited, TlFreelistInterleaving.exec]
        exact if_pos hidle
      others := fun m _ hne => project_other hne (fun _ _ => rfl) rfl
      live := fun b hb => .inl hb }

theorem stepOf_callDealloc {ptr : Nat} (hn : n < a.numNodes) (ha : a.Placed)
    (hptr : ptr = 0 ∨ ptr ∈ s.live ∧ ptr ∈ nodeBlocks a n)
    (ho : TlFreelistInterleaving.exec (a.pools n).batchSize (s.node n) (.callDealloc t ptr) =
      some o) :
    StepOf a base s n (.callDealloc t ptr) ((s.setNode n o).call t c) := by
  simp only [TlFreelistInterleaving.exec, Option.ite_none_right_eq_some] at ho
  obtain ⟨hidle, ho⟩ := ho
  have hidle' : ((project a base n s).threads t).pc = .idle := hidle
  split at ho
  · next hnull =>
      cases ho
      exact
        { own := by
            rw [project_visited, TlFreelistInterleaving.exec, if_pos hidle', if_pos hnull]
            rfl
          others := fun m _ hne => project_other hne (fun _ _ => rfl) rfl
          live := fun b hb => .inl hb }
  · next hne =>
      simp only [Option.ite_none_right_eq_some, Option.some.injEq] at ho
      obtain ⟨hmem, rfl⟩ := ho
      have hown : ptr ∈ nodeBlocks a n := (hptr.resolve_left hne).2
      exact
        { own := by
            have hlive : ptr ∈ (project a base n s).live := mem_project_live.mpr ⟨hmem, hown⟩
            rw [project_visited, TlFreelistInterleaving.exec, if_pos hidle', if_neg hne,
              if_pos hlive]
            congr 1
            simp only [project, TlFreelistInterleaving.State.goto,
              TlFreelistInterleaving.State.setThread, List.erase_filter]
            rfl
          others := fun m hm hmn => by
            have hother : ptr ∉ nodeBlocks a m := ha.disjoint hn hm (Ne.symm hmn) hown
            apply project_other hmn fun _ _ => rfl
            show (s.live.erase ptr).filter _ = _
            rw [← List.erase_filter, List.erase_of_not_mem]
            simp [hother]
          live := fun b hb => .inl (List.mem_of_mem_erase hb) }

/-- A step of a running call touches only nodes of its own pool. -/
theorem stepOf_step (hn : n < a.numNodes) (ha : a.Placed)
    (hpart : Partitioned (· ∈ nodeBlocks a n) (project a base n s))
    (ho : TlFreelistInterleaving.exec (a.pools n).batchSize (s.node n) (.step t) = some o) :
    StepOf a base s n (.step t) ((s.setNode n o).call t c) := by
  obtain ⟨g, l, x, hinv⟩ := hpart
  have hheld : ∀ b ∈ l t ++ x t, b ∈ nodeBlocks a n := by
    intro b hb
    rcases List.mem_append.mp hb with hcache | htransit
    · exact (hinv.ledger.mem b).mpr ⟨.cache t, hcache⟩
    · exact (hinv.ledger.mem b).mpr ⟨.transit t, htransit⟩
  have hread : ∀ b ∈ l t ++ x t, s.next b = (project a base n s).next b := fun b hb =>
    (project_next_of_mem (hheld b hb)).symm
  have htop : (s.node n).head.ptr ≠ 0 →
      s.next (s.node n).head.ptr = (project a base n s).next (s.node n).head.ptr := by
    intro hne
    obtain ⟨rest, rfl, -⟩ := hinv.chain.pop hne
    have hmem : (s.node n).head.ptr ∈ nodeBlocks a n :=
      hinv.ledger.mem_of (k := .global) List.mem_cons_self
    exact (project_next_of_mem hmem).symm
  obtain ⟨c', hc', hfollows⟩ :=
    step_local (s := s.node n) (project a base n s).live (hinv.holds t) hread htop ho
  have hlive : o.live = ((s.node n).threads t).pc.grants ++ s.live := (footprint ho).live
  have hgrants : ∀ b ∈ ((s.node n).threads t).pc.grants, b ∈ nodeBlocks a n := by
    intro b hb
    cases hpc : ((s.node n).threads t).pc with
    | allocated block =>
        obtain ⟨-, htransit⟩ := hinv.holds_at hpc
        rw [hpc] at hb
        apply hheld
        rw [htransit]
        exact List.mem_append_right _ hb
    | _ =>
        rw [hpc] at hb
        cases hb
  exact
    { own := by
        rw [project_visited]
        refine hc'.trans (congrArg some ?_)
        rw [hfollows.eq]
        simp only [TlFreelistInterleaving.State.mk.injEq, true_and]
        constructor
        · funext b
          by_cases hb : b ∈ nodeBlocks a n
          · rw [if_pos hb]
            exact (hfollows.agree b (project_next_of_mem hb).symm).symm
          · rw [if_neg hb, (hfollows.frame b fun hmem => hb (hheld b hmem)).2]
            exact project_next_of_notMem hb
        · rw [hlive, List.filter_append,
            List.filter_eq_self.mpr fun b hb => decide_eq_true (hgrants b hb)]
          rfl
      others := fun m hm hne => by
        have hother : ∀ b ∈ nodeBlocks a m, b ∉ nodeBlocks a n := fun b hb =>
          ha.disjoint hm hn hne hb
        apply project_other hne
        · intro b hb
          exact (hfollows.frame b fun hmem => hother b hb (hheld b hmem)).1
        · rw [hlive, List.filter_append, List.filter_eq_nil_iff.mpr, List.nil_append]
          intro b hb hmem
          exact hother b (of_decide_eq_true hmem) (hgrants b hb)
      live := fun b hb => by
        have hb' : b ∈ ((s.node n).threads t).pc.grants ++ s.live := hlive ▸ hb
        rcases List.mem_append.mp hb' with hgranted | hold
        · exact .inr (hgrants b hgranted)
        · exact .inl hold }

/-- So does a user's write. -/
theorem stepOf_scribble {block value : Nat} (hn : n < a.numNodes) (ha : a.Placed)
    (hmem : block ∈ s.live) (hown : block ∈ nodeBlocks a n) :
    StepOf a base s n (.scribble block value)
      { s with next := Function.update s.next block value } where
  own := by
    have hlive : block ∈ (project a base n s).live := mem_project_live.mpr ⟨hmem, hown⟩
    rw [TlFreelistInterleaving.exec, if_pos hlive]
    congr 1
    simp only [project, State.node, TlFreelistInterleaving.State.mk.injEq, and_true]
    funext b
    by_cases hb : b = block
    · rw [hb, Function.update_self, if_pos hown, Function.update_self]
    · rw [Function.update_of_ne hb, Function.update_of_ne hb]
  others m hm hne := by
    refine project_congr rfl (fun b hb => ?_) rfl
    have hne' : b ≠ block := fun heq => ha.disjoint hm hn hne hb (heq ▸ hown)
    exact Function.update_of_ne hne' _ _
  live b hb := .inl hb

end Projection

/-! ## Control -/

/-- Where a thread with the program counters `pcs` is while its call is at `c`. -/
def Within (a : Allocator) (pcs : Nat → Pc) : Call → Prop
  | .idle => ∀ n, pcs n = .idle
  | .alloc n rest => n < a.numNodes ∧ (∀ m ∈ rest, m < a.numNodes) ∧
      ∀ m, m ≠ n → pcs m = .idle
  | .dealloc n => n < a.numNodes ∧ pcs n ≠ .idle ∧ ∀ m, m ≠ n → pcs m = .idle

def State.pcs (s : State) (t n : Nat) : Pc := ((s.nodes n).threads t).pc

/-- Between any two steps. -/
structure Ok (a : Allocator) (base : Nat → Heap) (s : State) : Prop where
  part : ∀ n, n < a.numNodes → Partitioned (· ∈ nodeBlocks a n) (project a base n s)
  exclusive : ∀ n, n < a.numNodes → Exclusive (project a base n s)
  within : ∀ t, Within a (s.pcs t) (s.calls t)
  owned : ∀ b ∈ s.live, ∃ n, n < a.numNodes ∧ b ∈ nodeBlocks a n

section Control

variable {a : Allocator} {base : Nat → Heap} {s s' : State} {n m t u b : Nat}
variable {o : TlFreelistInterleaving.State} {e : TlFreelistInterleaving.Event} {c : Call}

/-- The thread that takes a step. -/
def stepper : TlFreelistInterleaving.Event → Option Nat
  | .callAlloc t => some t
  | .callDealloc t _ => some t
  | .step t => some t
  | .scribble _ _ => none

theorem pc_of_exec {batchSize : Nat} {d d' : TlFreelistInterleaving.State}
    (h : TlFreelistInterleaving.exec batchSize d e = some d') (hu : stepper e ≠ some u) :
    (d'.threads u) = d.threads u := by
  cases e with
  | callAlloc t =>
      simp only [TlFreelistInterleaving.exec, Option.ite_none_right_eq_some,
        Option.some.injEq] at h
      obtain ⟨-, rfl⟩ := h
      have hne : u ≠ t := fun heq => hu (heq ▸ rfl)
      exact Function.update_of_ne hne _ _
  | callDealloc t ptr =>
      simp only [TlFreelistInterleaving.exec, Option.ite_none_right_eq_some] at h
      obtain ⟨-, h⟩ := h
      split at h
      · cases h
        rfl
      · simp only [Option.ite_none_right_eq_some, Option.some.injEq] at h
        obtain ⟨-, rfl⟩ := h
        have hne : u ≠ t := fun heq => hu (heq ▸ rfl)
        exact Function.update_of_ne hne _ _
  | step t => exact (footprint h).others u fun heq => hu (heq ▸ rfl)
  | scribble block value =>
      simp only [TlFreelistInterleaving.exec, Option.ite_none_right_eq_some,
        Option.some.injEq] at h
      obtain ⟨-, rfl⟩ := h
      rfl

/-- A step to one node keeps what holds of all of them. -/
theorem Ok.of_stepOf (h : Ok a base s) (hn : n < a.numNodes) (hstep : StepOf a base s n e s')
    (hwithin : ∀ t, Within a (s'.pcs t) (s'.calls t)) : Ok a base s' where
  part m hm := by
    by_cases hmn : m = n
    · subst hmn
      obtain ⟨g, l, x, hinv⟩ := h.part m hm
      exact hinv.step hstep.own
    · rw [hstep.others m hm hmn]
      exact h.part m hm
  exclusive m hm := by
    by_cases hmn : m = n
    · subst hmn
      exact (h.exclusive m hm).step hstep.own
    · rw [hstep.others m hm hmn]
      exact h.exclusive m hm
  within := hwithin
  owned b hb := by
    rcases hstep.live b hb with hold | hnew
    · exact h.owned b hold
    · exact ⟨n, hn, hnew⟩

/-- The other threads are where they were. -/
theorem Ok.within_visited (h : Ok a base s) (ht : stepper e = some t)
    (ho : TlFreelistInterleaving.exec (a.pools n).batchSize (s.node n) e = some o)
    (hown : Within a (Function.update (s.pcs t) n (o.threads t).pc) c) :
    ∀ u, Within a (((s.setNode n o).call t c).pcs u) (((s.setNode n o).call t c).calls u) := by
  intro u
  have hpcs : ((s.setNode n o).call t c).pcs u =
      Function.update (s.pcs u) n (o.threads u).pc := by
    funext m
    by_cases hm : m = n
    · subst hm
      simp [State.pcs, State.call, State.setNode]
    · simp [State.pcs, State.call, State.setNode, hm]
  rw [hpcs]
  by_cases hu : u = t
  · subst hu
    simpa [State.call] using hown
  · have hsame : o.threads u = (s.node n).threads u := by
      apply pc_of_exec ho
      rw [ht]
      exact fun heq => hu (Option.some.inj heq).symm
    have hpc : (o.threads u).pc = s.pcs u n := by
      rw [hsame]
      rfl
    have hcall : ((s.setNode n o).call t c).calls u = s.calls u := by
      simp [State.call, State.setNode, hu]
    rw [hpc, Function.update_eq_self, hcall]
    exact h.within u

/-- To the nodes a step is one of a single node, or none at all. -/
def Answers (a : Allocator) (base : Nat → Heap) (s : State) (e : Event) (s' : State) : Prop :=
  ((∀ m, m < a.numNodes → project a base m s' = project a base m s) ∧
      ∀ m, nodeNote a m s e s' = []) ∨
    ∃ n e', n < a.numNodes ∧ StepOf a base s n e' s' ∧
      ∀ m, nodeNote a m s e s' = if n = m then note (s.node m) e' (s'.node m) else []

theorem Ok.visit (h : Ok a base s) {ev : Event}
    {after : TlFreelistInterleaving.State → Call} (hn : n < a.numNodes)
    (hvisits : visits a s ev = some (n, e)) (ht : stepper e = some t)
    (hstep : ∀ o, TlFreelistInterleaving.exec (a.pools n).batchSize (s.node n) e = some o →
      StepOf a base s n e ((s.setNode n o).call t (after o)) ∧
        Within a (Function.update (s.pcs t) n (o.threads t).pc) (after o))
    (hvisit : visit a s t n e after = some s') : Ok a base s' ∧ Answers a base s ev s' := by
  obtain ⟨o, ho, rfl⟩ := Option.map_eq_some_iff.mp hvisit
  obtain ⟨hstepOf, hwithin⟩ := hstep o ho
  refine ⟨h.of_stepOf hn hstepOf (h.within_visited ht ho hwithin),
    .inr ⟨n, e, hn, hstepOf, fun m => ?_⟩⟩
  rw [nodeNote, hvisits]

/-- `alloc` goes to the next node, or returns null. -/
theorem Ok.tryNext (h : Ok a base s) {ev : Event} {rest : List Nat}
    (hidle : ∀ m, s.pcs t m = .idle) (hrest : ∀ m ∈ rest, m < a.numNodes)
    (hvisits : visits a s ev = rest.head?.map fun m => (m, .callAlloc t))
    (hnext : NumaInterleaving.tryNext a s t rest = some s') :
    Ok a base s' ∧ Answers a base s ev s' := by
  cases rest with
  | nil =>
      cases hnext
      have hwithin : ∀ u, Within a ((s.call t .idle).pcs u) ((s.call t .idle).calls u) := by
        intro u
        by_cases hu : u = t
        · subst hu
          simp only [State.call, Function.update_self]
          exact hidle
        · simp only [State.call, Function.update_of_ne hu]
          exact h.within u
      refine ⟨⟨h.part, h.exclusive, hwithin, h.owned⟩, .inl ⟨fun m _ => rfl, fun m => ?_⟩⟩
      rw [nodeNote, hvisits]
      rfl
  | cons n rest =>
      have hn : n < a.numNodes := hrest n List.mem_cons_self
      apply h.visit hn hvisits rfl ?_ hnext
      intro o ho
      refine ⟨stepOf_callAlloc ho, hn, fun m hm => hrest m (List.mem_cons_of_mem n hm), ?_⟩
      intro m hm
      rw [Function.update_of_ne hm]
      exact hidle m

/-- Where a `dealloc` is after a step of its cache. -/
theorem within_afterDealloc (hn : n < a.numNodes) (helse : ∀ m, m ≠ n → s.pcs t m = .idle) :
    Within a (Function.update (s.pcs t) n (o.threads t).pc) (afterDealloc t n o) := by
  unfold afterDealloc
  split
  · next hidle =>
      intro m
      by_cases hm : m = n
      · rw [hm, Function.update_self, hidle]
      · rw [Function.update_of_ne hm, helse m hm]
  · next hbusy =>
      refine ⟨hn, ?_, fun m hm => ?_⟩
      · rwa [Function.update_self]
      · rw [Function.update_of_ne hm, helse m hm]

/-- A cache that returns a block has no more to do. -/
theorem idle_of_grants {batchSize : Nat} {d d' : TlFreelistInterleaving.State}
    (h : TlFreelistInterleaving.exec batchSize d (.step t) = some d')
    (hgrants : (d.threads t).pc.grants ≠ []) : (d'.threads t).pc = .idle := by
  cases hpc : (d.threads t).pc with
  | allocated block =>
      simp only [TlFreelistInterleaving.exec, TlFreelistInterleaving.callStep, hpc,
        Option.some_or, Option.some.injEq] at h
      subst h
      simp [TlFreelistInterleaving.State.goto, TlFreelistInterleaving.State.setThread]
  | _ =>
      rw [hpc] at hgrants
      exact (hgrants rfl).elim

/-- Every step keeps `Ok`. -/
theorem Ok.step (ha : a.Placed) (htell : a.Tellable) (h : Ok a base s) {ev : Event}
    (hexec : exec a s ev = some s') : Ok a base s' ∧ Answers a base s ev s' := by
  cases ev with
  | callAlloc t currentNode =>
      simp only [exec, Option.ite_none_right_eq_some] at hexec
      obtain ⟨hidle, hnext⟩ := hexec
      have hwithin := h.within t
      rw [hidle] at hwithin
      exact h.tryNext hwithin (fun m hm => (mem_nodeOrder ha).mp hm) rfl hnext
  | callDealloc t ptr =>
      simp only [exec, Option.ite_none_right_eq_some] at hexec
      obtain ⟨⟨hidle, hptr⟩, hvisit⟩ := hexec
      have hwithin := h.within t
      rw [hidle] at hwithin
      have hn := ownerNode_lt ha ptr
      have hown : ptr = 0 ∨ ptr ∈ s.live ∧ ptr ∈ nodeBlocks a (ownerNode a ptr) := by
        refine hptr.imp_right fun hlive => ⟨hlive, ?_⟩
        obtain ⟨n, hn, hmem⟩ := h.owned ptr hlive
        rwa [ownerNode_eq ha htell hn hmem]
      apply h.visit hn rfl rfl ?_ hvisit
      intro o ho
      exact ⟨stepOf_callDealloc hn ha hown ho, within_afterDealloc hn fun m _ => hwithin m⟩
  | step t =>
      have hwithin := h.within t
      cases hcall : s.calls t with
      | idle => simp [exec, hcall] at hexec
      | alloc n rest =>
          rw [hcall] at hwithin
          obtain ⟨hn, hrest, helse⟩ := hwithin
          by_cases hpc : ((s.nodes n).threads t).pc = .idle
          · simp only [exec, hcall, if_pos hpc] at hexec
            have hidle : ∀ m, s.pcs t m = .idle := by
              intro m
              by_cases hm : m = n
              · rw [hm]
                exact hpc
              · exact helse m hm
            apply h.tryNext hidle hrest ?_ hexec
            simp only [visits, hcall, if_pos hpc]
          · simp only [exec, hcall, if_neg hpc] at hexec
            apply h.visit hn ?_ rfl ?_ hexec
            · simp only [visits, hcall, if_neg hpc]
            · intro o ho
              refine ⟨stepOf_step hn ha (h.part n hn) ho, ?_⟩
              split
              · refine ⟨hn, hrest, fun m hm => ?_⟩
                rw [Function.update_of_ne hm, helse m hm]
              · next hgrants =>
                  have hdone := idle_of_grants ho hgrants
                  intro m
                  by_cases hm : m = n
                  · rw [hm, Function.update_self, hdone]
                  · rw [Function.update_of_ne hm, helse m hm]
      | dealloc n =>
          rw [hcall] at hwithin
          obtain ⟨hn, -, helse⟩ := hwithin
          simp only [exec, hcall] at hexec
          apply h.visit hn ?_ rfl ?_ hexec
          · simp only [visits, hcall]
          · intro o ho
            exact ⟨stepOf_step hn ha (h.part n hn) ho, within_afterDealloc hn helse⟩
  | scribble block value =>
      simp only [exec, Option.ite_none_right_eq_some, Option.some.injEq] at hexec
      obtain ⟨hmem, rfl⟩ := hexec
      obtain ⟨n, hn, hown⟩ := h.owned block hmem
      have hstep : StepOf a base s n (.scribble block value) _ :=
        stepOf_scribble hn ha hmem hown
      refine ⟨h.of_stepOf hn hstep h.within, .inr ⟨n, _, hn, hstep, fun m => ?_⟩⟩
      rw [note, ite_self]
      rfl

end Control

/-! ## The constructor -/

/-- The memory right after the constructor has seeded node `n`, from `before`. -/
def seeded (a : Allocator) (before : Heap) (n : Nat) : Heap :=
  (seedNodes a.pools before (n + 1)).1

section Constructor

variable {a : Allocator} {next before : Heap} {heads : Nat → TaggedPtr} {n b : Nat}
variable {blockSz blocksPerNode batch : Nat}

/-- Seeding the nodes after it leaves a node alone. -/
theorem seedNodes_kept (ha : a.Placed) (before : Heap) : ∀ m, n < m → m ≤ a.numNodes →
    (∀ b ∈ nodeBlocks a n, (seedNodes a.pools before m).1 b = seeded a before n b) ∧
      (seedNodes a.pools before m).2 n = (seedNodes a.pools before (n + 1)).2 n := by
  intro m
  induction m with
  | zero => exact fun hlt => absurd hlt (Nat.not_lt_zero n)
  | succ m ih =>
      intro hlt hm
      rcases Nat.lt_succ_iff_lt_or_eq.mp hlt with hlt | rfl
      · obtain ⟨hlinks, hhead⟩ := ih hlt (by omega)
        have hne : n ≠ m := by omega
        simp only [seedNodes]
        split
        · exact ⟨hlinks, hhead⟩
        · next hregion =>
            refine ⟨fun b hb => ?_, (Function.update_of_ne hne _ _).trans hhead⟩
            have hother := ha.disjoint (by omega) (by omega) hne hb
            rw [nodeBlocks_of_granted hregion] at hother
            exact (seed_of_notMem _ hother).trans (hlinks b hb)
      · exact ⟨fun b _ => rfl, rfl⟩

/-- What the constructor gives every node. -/
theorem Constructed.pools_eq (h : Constructed blockSz blocksPerNode batch a next heads) (n : Nat) :
    (a.pools n).blockSize = alignUp (atLeastFreeBlock blockSz) cacheLine ∧
      (a.pools n).blockCount = blocksPerNode ∧ (a.pools n).batchSize = batch ∧
      (a.pools n).regionSize = (a.pools 0).regionSize := by
  obtain ⟨-, -, allocOnNode, isNode, before, hmade⟩ := h
  have ha : (NumaAllocator.construct allocOnNode isNode before blockSz blocksPerNode batch).1 =
      a := by
    rw [hmade]
  subst ha
  exact ⟨rfl, rfl, rfl, rfl⟩

/-- To itself a node that was granted its region is an allocator that has just been
constructed, on memory with the links its blocks have. -/
theorem constructed_node (h : Constructed blockSz blocksPerNode batch a next heads)
    (hseeded : (next, heads) = seedNodes a.pools before a.numNodes) (hn : n < a.numNodes)
    (hregion : (a.pools n).region ≠ 0) :
    TlFreelistAllocator.Constructed blockSz blocksPerNode batch (nodeAllocator a heads n)
      (seeded a before n) := by
  obtain ⟨hsize, hcount, hbatch, hextent⟩ := Constructed.pools_eq h n
  obtain ⟨haligned, hfits, -⟩ := h.regions n hn hregion
  have hplaced := h.placed.1
  have hbytes : regionBytes blockSz blocksPerNode = (a.pools 0).regionSize := by
    rw [regionBytes_eq h.sizes, ← hextent, hplaced.extent n hn, hcount, hsize, alignUp_eq,
      Nat.mul_comm]
  have hhead : heads n = (seed (a.pools n).region (a.pools n).blockSize
      (seedNodes a.pools before n).1 (a.pools n).blockCount).2 := by
    have hkept := (seedNodes_kept hplaced before a.numNodes hn (Nat.le_refl _)).2
    rw [← hseeded] at hkept
    refine hkept.trans ?_
    simp only [seedNodes, if_neg hregion, Function.update_self]
  have hlinks : seeded a before n = (seed (a.pools n).region (a.pools n).blockSize
      (seedNodes a.pools before n).1 (a.pools n).blockCount).1 := by
    simp only [seeded, seedNodes, if_neg hregion]
  have hmade : TlFreelistAllocator.construct (fun _ => (a.pools n).region)
      (seedNodes a.pools before n).1 blockSz blocksPerNode batch =
        some (nodeAllocator a heads n, seeded a before n) := by
    simp only [TlFreelistAllocator.construct, if_neg hregion, Option.some.injEq,
      Prod.mk.injEq]
    constructor
    · simp only [nodeAllocator, hhead, hsize, hcount, hbatch]
    · rw [hlinks, hsize, hcount]
  apply constructed_of_granted h.sizes haligned ?_ hmade
  rw [hbytes]
  exact hfits

/-- At first every block of a node is on its list. -/
theorem part_start (ha : a.Placed) (hseeded : (next, heads) = seedNodes a.pools before a.numNodes)
    (base : Nat → Heap) (hn : n < a.numNodes) :
    Inv (· ∈ nodeBlocks a n) (nodeBlocks a n).reverse (fun _ => []) (fun _ => [])
      (project a base n (start next heads)) where
  chain := by
    have hchain := seedNodes_chain ha before a.numNodes (Nat.le_refl _) n hn
    rw [← hseeded] at hchain
    apply Segment.congr ?_ hchain
    intro b hb
    exact project_next_of_mem (List.mem_reverse.mp hb)
  ledger :=
    { nodup := fun k => by
        cases k with
        | global => exact List.nodup_reverse.mpr (ha.nodup hn)
        | _ => exact List.nodup_nil
      only := fun k j b hk hj => by
        cases k with
        | global =>
            cases j with
            | global => rfl
            | _ => cases hj
        | _ => cases hk
      mem := fun b => by
        constructor
        · intro hb
          exact ⟨.global, List.mem_reverse.mpr hb⟩
        · intro hb
          obtain ⟨k, hk⟩ := hb
          cases k with
          | global => exact List.mem_reverse.mp hk
          | _ => cases hk }
  holds t := ⟨rfl, rfl⟩
  null := fun hzero => (ha.address hn hzero).1 rfl

theorem ok_start (ha : a.Placed) (hseeded : (next, heads) = seedNodes a.pools before a.numNodes)
    (base : Nat → Heap) : Ok a base (start next heads) where
  part n hn := ⟨_, _, _, part_start ha hseeded base hn⟩
  exclusive n hn t := by simp [project, State.node, start, TlFreelistInterleaving.Pc.locked]
  within t n := rfl
  owned b hb := by cases hb

end Constructor

/-! ## Runs -/

section Runs

variable {blockSz blocksPerNode batch : Nat} {a : Allocator} {next before : Heap}
variable {heads : Nat → TaggedPtr} {base : Nat → Heap} {s : State} {n t u b : Nat}

theorem ok_of_reachable (ha : Constructed blockSz blocksPerNode batch a next heads)
    (htell : a.Tellable) (base : Nat → Heap) (h : Reachable (steps a next heads) s) :
    Ok a base s := by
  obtain ⟨hplaced, before, hseeded⟩ := ha.placed
  refine h.invariant (P := Ok a base) ?_ ?_
  · intro s hs
    rw [hs]
    exact ok_start hplaced hseeded base
  · intro s e s' _ hok hstep
    exact (hok.step hplaced htell hstep).1

/-- What a node sees of a run is a run of an allocator of its own. -/
theorem node_of_reachable (ha : Constructed blockSz blocksPerNode batch a next heads)
    (htell : a.Tellable) (hseeded : (next, heads) = seedNodes a.pools before a.numNodes)
    (hn : n < a.numNodes) {past : List (Mark Nat TlFreelistLinearizable.Call Nat)}
    (h : Reachable (histories a next heads n) (s, past)) :
    Reachable (TlFreelistLinearizable.histories (nodeAllocator a heads n) (seeded a before n))
      (project a (seeded a before) n s, past) := by
  have hplaced := ha.placed.1
  obtain ⟨c, hc, rfl, -⟩ : ∃ c, Reachable (TlFreelistLinearizable.histories
      (nodeAllocator a heads n) (seeded a before n)) (c, past) ∧
      c = project a (seeded a before) n s ∧ Ok a (seeded a before) s := by
    refine h.simulate_recorded
      (fun s c => c = project a (seeded a before) n s ∧ Ok a (seeded a before) s) ?_ ?_
    · intro s hs
      subst hs
      refine ⟨_, ?_, rfl, ok_start hplaced hseeded _⟩
      have hnext : ∀ b ∈ nodeBlocks a n, next b = seeded a before n b := by
        have hkept := (seedNodes_kept hplaced before a.numNodes hn (Nat.le_refl _)).1
        rwa [← hseeded] at hkept
      simp only [project, State.node, start, TlFreelistInterleaving.start,
        TlFreelistInterleaving.State.mk.injEq, true_and]
      refine ⟨?_, rfl, rfl⟩
      funext b
      split
      · next hb => exact hnext b hb
      · rfl
    · intro s c e s' hrel hexec
      obtain ⟨rfl, hok⟩ := hrel
      obtain ⟨hok', hanswers⟩ := hok.step hplaced htell hexec
      rcases hanswers with ⟨hsame, hsilent⟩ | ⟨m, e', hm, hstep, hnote⟩
      · refine .inl ⟨⟨(hsame n hn).symm, hok'⟩, fun past => ?_⟩
        rw [hsilent n, List.nil_append]
      · by_cases hmn : m = n
        · subst hmn
          refine .inr ⟨e', _, hstep.own, ⟨rfl, hok'⟩, fun past => ?_⟩
          have hsame : note (s.node m) e' (s'.node m) =
              note (project a (seeded a before) m s) e' (project a (seeded a before) m s') := by
            apply note_congr
            · rfl
            · rfl
          rw [hnote m, if_pos rfl, hsame]
        · refine .inl ⟨⟨(hstep.others n hn (Ne.symm hmn)).symm, hok'⟩, fun past => ?_⟩
          rw [hnote n, if_neg hmn, List.nil_append]
  exact hc

/-! ### Progress -/

/-- A thread with a busy cache takes its next step there. -/
theorem exec_busy (hwithin : Within a (s.pcs t) (s.calls t)) (hbusy : s.pcs t n ≠ .idle)
    {o : TlFreelistInterleaving.State}
    (ho : TlFreelistInterleaving.exec (a.pools n).batchSize (s.node n) (.step t) = some o) :
    ∃ s', exec a s (.step t) = some s' := by
  cases hcall : s.calls t with
  | idle =>
      rw [hcall] at hwithin
      exact (hbusy (hwithin n)).elim
  | alloc m rest =>
      rw [hcall] at hwithin
      obtain rfl : n = m := Decidable.byContradiction fun hne => hbusy (hwithin.2.2 n hne)
      have hbusy' : ¬ ((s.nodes n).threads t).pc = .idle := hbusy
      simp only [exec, hcall, if_neg hbusy', visit, ho]
      exact ⟨_, rfl⟩
  | dealloc m =>
      rw [hcall] at hwithin
      obtain rfl : n = m := Decidable.byContradiction fun hne => hbusy (hwithin.2.2 n hne)
      simp only [exec, hcall, visit, ho]
      exact ⟨_, rfl⟩

/-- Thread `t` is about to take the mutex of node `n`, which thread `u` holds. -/
structure Blocked (s : State) (t n u : Nat) : Prop where
  other : u ≠ t
  waits : (s.pcs t n).waits = true
  held : (s.nodes n).bulkLock = some u

/-- A running call goes on unless it waits for a thread that does. -/
theorem Ok.unblocked (h : Ok a base s) (hcall : s.calls t ≠ .idle) :
    (∃ s', exec a s (.step t) = some s') ∨
      ∃ n u s', Blocked s t n u ∧ exec a s (.step u) = some s' := by
  by_cases hbusy : ∃ n, n < a.numNodes ∧ s.pcs t n ≠ .idle
  · obtain ⟨n, hn, hbusy⟩ := hbusy
    by_cases hfree : (s.pcs t n).waits = true → (s.nodes n).bulkLock = none
    · obtain ⟨o, ho⟩ := TlFreelistInterleaving.enabled (s := s.node n)
        (a.pools n).batchSize hbusy hfree
      exact .inl (exec_busy (h.within t) hbusy ho)
    · obtain ⟨hwaits, hheld⟩ := Classical.not_imp.mp hfree
      obtain ⟨u, hu⟩ := Option.ne_none_iff_exists'.mp hheld
      have hinside : (s.pcs u n).locked = true := (h.exclusive n hn u).mpr hu
      have hmoves : s.pcs u n ≠ .idle ∧ (s.pcs u n).waits = false := by
        cases hpc : s.pcs u n <;>
          simp [hpc, TlFreelistInterleaving.Pc.locked,
            TlFreelistInterleaving.Pc.waits] at hinside ⊢
      have hne : u ≠ t := by
        intro heq
        rw [heq, hwaits] at hmoves
        cases hmoves.2
      obtain ⟨o, ho⟩ := TlFreelistInterleaving.enabled (s := s.node n)
        (a.pools n).batchSize hmoves.1 fun hwaiting => by
          have hnot := hmoves.2
          rw [State.pcs] at hnot
          rw [State.node, hnot] at hwaiting
          cases hwaiting
      obtain ⟨s', hs'⟩ := exec_busy (h.within u) hmoves.1 ho
      exact .inr ⟨n, u, s', ⟨hne, hwaits, hu⟩, hs'⟩
  · have hidle : ∀ n, n < a.numNodes → s.pcs t n = .idle := fun n hn =>
      Decidable.byContradiction fun hne => hbusy ⟨n, hn, hne⟩
    have hwithin := h.within t
    cases hc : s.calls t with
    | idle => exact (hcall hc).elim
    | dealloc n =>
        rw [hc] at hwithin
        exact (hwithin.2.1 (hidle n hwithin.1)).elim
    | alloc n rest =>
        rw [hc] at hwithin
        obtain ⟨hn, hrest, -⟩ := hwithin
        have hpc : ((s.nodes n).threads t).pc = .idle := hidle n hn
        left
        simp only [exec, hc, if_pos hpc]
        cases rest with
        | nil => exact ⟨_, rfl⟩
        | cons m rest =>
            have hm : ((s.nodes m).threads t).pc = .idle := hidle m (hrest m List.mem_cons_self)
            have hcalled : TlFreelistInterleaving.exec (a.pools m).batchSize (s.node m)
                (.callAlloc t) = some ((s.node m).goto t .allocTest) := by
              rw [TlFreelistInterleaving.exec]
              exact if_pos hm
            rw [NumaInterleaving.tryNext, NumaInterleaving.visit, hcalled]
            exact ⟨_, rfl⟩

/-- What holds between any two steps. -/
structure Undisturbed (a : Allocator) (s : State) : Prop where
  /-- The list of a node, the caches for it, what is in transit there and those of its
  blocks that are live have every block of the node once. -/
  partitioned : ∀ n, n < a.numNodes → Partitioned (· ∈ nodeBlocks a n)
    { s.node n with live := s.live.filter (· ∈ nodeBlocks a n) }
  nodup : s.live.Nodup
  owned : ∀ b ∈ s.live, ∃ n, n < a.numNodes ∧ b ∈ nodeBlocks a n
  /-- A thread is in one cache at a time. -/
  single : ∀ t n m, s.pcs t n ≠ .idle → s.pcs t m ≠ .idle → n = m
  exclusive : ∀ n, n < a.numNodes → ∀ t u, (s.pcs t n).locked = true →
    (s.pcs u n).locked = true → t = u
  unblocked : ∀ t, s.calls t ≠ .idle → (∃ s', exec a s (.step t) = some s') ∨
    ∃ n u s', Blocked s t n u ∧ exec a s (.step u) = some s'

theorem numaPool3_tellable : numaPool3.1.Tellable := by
  intro n m _ _ hnull
  have hnull : 4096 * (n + 1) = 0 := hnull
  omega

theorem Ok.single (h : Ok a base s) {m : Nat} (hn : s.pcs t n ≠ .idle)
    (hm : s.pcs t m ≠ .idle) : n = m := by
  have hwithin := h.within t
  cases hcall : s.calls t with
  | idle =>
      rw [hcall] at hwithin
      exact (hn (hwithin n)).elim
  | alloc k rest =>
      rw [hcall] at hwithin
      have hnk : n = k := Decidable.byContradiction fun hne => hn (hwithin.2.2 n hne)
      have hmk : m = k := Decidable.byContradiction fun hne => hm (hwithin.2.2 m hne)
      rw [hnk, hmk]
  | dealloc k =>
      rw [hcall] at hwithin
      have hnk : n = k := Decidable.byContradiction fun hne => hn (hwithin.2.2 n hne)
      have hmk : m = k := Decidable.byContradiction fun hne => hm (hwithin.2.2 m hne)
      rw [hnk, hmk]

theorem Ok.nodup (h : Ok a base s) : s.live.Nodup := by
  apply List.nodup_iff_count_le_one.mpr
  intro b
  by_cases hb : b ∈ s.live
  · obtain ⟨n, hn, hmem⟩ := h.owned b hb
    obtain ⟨g, l, x, hinv⟩ := h.part n hn
    have hfiltered : (s.live.filter (· ∈ nodeBlocks a n)).Nodup := hinv.ledger.nodup .user
    have hcount : (s.live.filter (· ∈ nodeBlocks a n)).count b = s.live.count b :=
      List.count_filter (decide_eq_true hmem)
    rw [← hcount]
    exact List.nodup_iff_count_le_one.mp hfiltered b
  · rw [List.count_eq_zero_of_not_mem hb]
    exact Nat.zero_le 1

/-- Any number of threads on any nodes: no block of a node is lost, doubled or mixed with
another node's, and no thread waits for one that cannot go on. -/
theorem nodes_undisturbed (blockSz blocksPerNode batch : Nat) (a : Allocator) (next : Heap)
    (heads : Nat → TaggedPtr) (ha : Constructed blockSz blocksPerNode batch a next heads)
    (htell : a.Tellable) (s : State) (h : Reachable (steps a next heads) s) :
    Undisturbed a s := by
  have hok := ok_of_reachable ha htell (fun _ => next) h
  exact
    { partitioned := fun n hn => by
        obtain ⟨g, l, x, hinv⟩ := hok.part n hn
        exact ⟨g, l, x, hinv.outside fun b hb _ => (project_next_of_mem hb).symm⟩
      nodup := hok.nodup
      owned := hok.owned
      single := fun t n m => hok.single
      exclusive := fun n hn t u ht hu => (hok.exclusive n hn).unique ht hu
      unblocked := fun t => hok.unblocked }

/-- Two threads in their first `alloc` on node 1; thread 1 has the mutex. -/
theorem nodes_undisturbed_numaPool3 : ∃ s,
    replay (exec numaPool3.1) (start numaPool3.2.1 numaPool3.2.2)
      [.callAlloc 0 1, .callAlloc 1 1, .step 1, .step 1, .step 0] = some s ∧
    Undisturbed numaPool3.1 s :=
  ⟨_, rfl, nodes_undisturbed 48 3 2 _ _ _ numaPool3_constructed numaPool3_tellable _
    (Reachable.replay [.callAlloc 0 1, .callAlloc 1 1, .step 1, .step 1, .step 0]
      (.init rfl) rfl)⟩

/-- The calls on the caches of a node, made by any threads and interleaved with those on
the other nodes, are linearizable: they are whole calls on an allocator of the node's
blocks alone. -/
theorem node_calls_linearizable (blockSz blocksPerNode batch : Nat) (a : Allocator)
    (next : Heap) (heads : Nat → TaggedPtr)
    (ha : Constructed blockSz blocksPerNode batch a next heads) (htell : a.Tellable)
    (n : Nat) (hn : n < a.numNodes) (hregion : (a.pools n).region ≠ 0) (s : State)
    (past : List (Mark Nat TlFreelistLinearizable.Call Nat))
    (h : Reachable (histories a next heads n) (s, past)) :
    ∃ memory, (∀ b ∈ nodeBlocks a n, memory b = next b) ∧
      TlFreelistAllocator.Constructed blockSz blocksPerNode batch (nodeAllocator a heads n)
        memory ∧
      ∃ c, Linearized (object (nodeAllocator a heads n) memory) past c := by
  obtain ⟨hplaced, before, hseeded⟩ := ha.placed
  have hnode := constructed_node ha hseeded hn hregion
  obtain ⟨c, hlinear, -⟩ :=
    related_of_reachable hnode (node_of_reachable ha htell hseeded hn h)
  refine ⟨seeded a before n, ?_, hnode, c, hlinear⟩
  have hkept := (seedNodes_kept hplaced before a.numNodes hn (Nat.le_refl _)).1
  rw [← hseeded] at hkept
  exact fun b hb => (hkept b hb).symm

/-- Threads 0 and 1 overlap in node 1; thread 2 finds nothing there and goes on to
node 0. -/
def fallback : List Event :=
  [.callAlloc 0 1, .step 0, .callAlloc 1 1] ++ List.replicate 15 (.step 1) ++
    List.replicate 10 (.step 0) ++ [.callAlloc 2 1] ++ List.replicate 6 (.step 2)

theorem node_calls_linearizable_numaPool3 : ∃ s,
    replay (record (exec numaPool3.1) fun s e s' past => nodeNote numaPool3.1 1 s e s' ++ past)
      (start numaPool3.2.1 numaPool3.2.2, []) fallback = some s ∧
    (s.1.calls 2 = .alloc 0 [] ∧
      s.2 = [.ret 2 0, .call 2 .alloc, .ret 0 8192, .ret 1 8320, .call 1 .alloc,
        .call 0 .alloc]) ∧
    ∃ memory, (∀ b ∈ nodeBlocks numaPool3.1 1, memory b = numaPool3.2.1 b) ∧
      TlFreelistAllocator.Constructed 48 3 2 (nodeAllocator numaPool3.1 numaPool3.2.2 1)
        memory ∧
      ∃ c, Linearized (object (nodeAllocator numaPool3.1 numaPool3.2.2 1) memory) s.2 c :=
  ⟨_, rfl, ⟨rfl, rfl⟩,
    node_calls_linearizable 48 3 2 _ _ _ numaPool3_constructed numaPool3_tellable 1
      (by decide) (by decide) _ _
      (Reachable.replay (s := (start numaPool3.2.1 numaPool3.2.2, [])) fallback
        (.init ⟨rfl, rfl⟩) rfl)⟩

end Runs

end PoolMemalloc.Ports.NumaInterleaving
