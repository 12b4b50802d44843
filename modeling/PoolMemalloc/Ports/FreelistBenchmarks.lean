import PoolMemalloc.Ports.BenchmarkWorkers
import PoolMemalloc.Ports.FreelistInterleaving
import PoolMemalloc.Ports.ProducerConsumer

/-!
# The benchmarks on a bare `FreelistAllocator`

`initialize_pool` cuts memory into blocks of `cfg.size` bytes and pushes them; then the
same threads run as on the other allocators, with `pop` for `alloc` and `push` for
`dealloc`.

A thread may push a block that another thread has popped: in the steps of
`FreelistInterleaving` it is given the block first.
-/

namespace PoolMemalloc.Ports.FreelistBenchmarks

open PoolMemalloc.Verified.SizeT (wrap)
open PoolMemalloc.Verified.BlockService
open PoolMemalloc.Verified.Conservation
open PoolMemalloc.Verified.LinkedChain (Chain)
open PoolMemalloc.Verified.Transition
open PoolMemalloc.Ports.BlockArray (Placed)
open PoolMemalloc.Ports.FreelistAllocator (Heap)
open PoolMemalloc.Ports.FreelistInterleaving (Pc Timely holds inHand taken_of_exec)
open PoolMemalloc.Ports.TlFreelistAllocator (seed seed_chain blocksOf mem_blocksOf
  nodup_blocksOf zero_notMem_blocksOf)
open PoolMemalloc.Ports.BenchmarkWorkers

/-- The list, its threads, and the blocks that have been popped and not pushed again. -/
structure State where
  core : FreelistInterleaving.State
  live : List Nat

inductive Event
  | core (e : FreelistInterleaving.Event)
  /-- `push(block)` by `thread`, of a block that `owner` has popped. -/
  | push (thread owner block : Nat)

/-- The block a `pop` that returns now has got. -/
def gets : Pc → Nat
  | .popped ptr => ptr
  | _ => 0

def hand (s : FreelistInterleaving.State) (owner thread block : Nat) :
    Option FreelistInterleaving.State :=
  if owner = thread then some s
  else FreelistInterleaving.exec s (.give owner thread block)

/-- The live blocks after a step. -/
def liveAfter (s : State) : FreelistInterleaving.Event → List Nat
  | .ret t =>
      if gets (s.core.pc t) = 0 then s.live else gets (s.core.pc t) :: s.live
  | _ => s.live

/-- The users push through `push` only. -/
def isInner : FreelistInterleaving.Event → Bool
  | .callPush .. => false
  | .give .. => false
  | _ => true

def exec (s : State) : Event → Option State
  | .core e =>
      if isInner e ∧ Timely s.core e then
        (FreelistInterleaving.exec s.core e).map fun c => ⟨c, liveAfter s e⟩
      else none
  | .push t owner block =>
      (hand s.core owner t block).bind fun c =>
        (FreelistInterleaving.exec c (.callPush t block)).map fun d =>
          ⟨d, s.live.erase block⟩

/-- `initialize_pool`: `pool` blocks of `size` bytes from `memory` on. -/
def initializePool (next : Heap) (memory size pool : Nat) : State where
  core :=
    { next := (seed memory size next pool).1
      head := (seed memory size next pool).2
      exchanges := pool
      pc := fun _ => .idle
      owned := fun _ => [] }
  live := []

def listPhase : Pc → Phase
  | .idle => .outside
  | .pushLoad _ => .freeing
  | .pushLink .. => .freeing
  | .pushExchange .. => .freeing
  | _ => .allocating

def view (s : State) : View where
  phase t := listPhase (s.core.pc t)
  live := s.live

def notice (s : State) (e : Event) (s' : State) : Option Notice :=
  match e with
  | .core (.callPop t) => some (.callAlloc t)
  | .core (.ret t) => some (.gotBlock t (gets (s.core.pc t)))
  | .core (.exchange t _) => if s'.core.pc t = .idle then some (.freed t) else none
  | .push t _ block => some (.callDealloc t block)
  | _ => none

/-- Between any two steps: what the users have, some thread owns. -/
structure Inv (pool : Nat → Prop) (s : State) : Prop where
  core : ∃ items, FreelistInterleaving.Inv pool items s.core
  nodup : s.live.Nodup
  owned : Ledger (· ∈ s.live) s.core.owned

section Steps

variable {pool : Nat → Prop} {s s' : State} {c d : FreelistInterleaving.State}
variable {e : FreelistInterleaving.Event} {t owner block ptr : Nat} {pc : Pc}

/-- What a `pop` is about to return nobody has. -/
theorem Inv.notMem_live (h : Inv pool s) (hpc : s.core.pc t = .popped ptr) (hne : ptr ≠ 0) :
    ptr ∉ s.live := by
  obtain ⟨items, hcore⟩ := h.core
  have hhand : inHand (s.core.pc t) = [ptr] := by
    rw [hpc, inHand, if_neg hne]
  have hmem : ptr ∈ holds s.core t := by
    rw [holds, hhand]
    exact List.mem_cons_self
  intro hlive
  obtain ⟨u, hu⟩ := (h.owned.mem ptr).mp hlive
  by_cases hut : u = t
  · have hnodup := hcore.ledger.nodup (some t)
    rw [FreelistInterleaving.cell, holds, hhand] at hnodup
    exact (List.nodup_cons.mp hnodup).1 (hut ▸ hu)
  · exact hcore.notMem_holds hmem hut (List.mem_append_right _ hu)

theorem Inv.step_core (h : Inv pool s) (hinner : isInner e = true) (htimely : Timely s.core e)
    (hexec : FreelistInterleaving.exec s.core e = some c) :
    Inv pool ⟨c, liveAfter s e⟩ := by
  obtain ⟨items, hcore⟩ := h.core
  obtain ⟨items', -, hcore'⟩ := hcore.step htimely hexec
  cases taken_of_exec hexec with
  | callPush _ _ => cases hinner
  | give _ _ => cases hinner
  | retNull hpc =>
      rw [liveAfter, hpc, gets, if_pos rfl]
      exact ⟨⟨items', hcore'⟩, h.nodup, h.owned⟩
  | @ret t ptr hpc hne =>
      rw [liveAfter, hpc, gets, if_neg hne]
      have hnew := h.notMem_live hpc hne
      refine ⟨⟨items', hcore'⟩, List.nodup_cons.mpr ⟨hnew, h.nodup⟩, ?_⟩
      refine h.owned.insert (k := t) hnew (fun _ => List.mem_cons) ?_ ?_
      · exact Function.update_self ..
      · intro u hu
        exact Function.update_of_ne hu _ _
  | _ => exact ⟨⟨items', hcore'⟩, h.nodup, h.owned⟩

/-- A block that goes to another thread. -/
theorem Inv.hand (h : Inv pool s) (hhand : hand s.core owner t block = some c) :
    Inv pool ⟨c, s.live⟩ := by
  unfold FreelistBenchmarks.hand at hhand
  split at hhand
  · cases hhand
    exact h
  · obtain ⟨items, hcore⟩ := h.core
    have htimely : Timely s.core (.give owner t block) := trivial
    obtain ⟨items', -, hcore'⟩ := hcore.step htimely hhand
    refine ⟨⟨items', hcore'⟩, h.nodup, ?_⟩
    cases taken_of_exec hhand with
    | give hmem hne =>
        refine h.owned.move (k := owner) (l := t) hne ?_ ?_
        · simp only [FreelistInterleaving.State.own, Function.update_self,
            Function.update_of_ne hne]
          have hperm := List.perm_cons_erase hmem
          exact (List.perm_middle.trans (hperm.symm.append_right _))
        · intro u ho ht
          simp only [FreelistInterleaving.State.own, Function.update_of_ne ho,
            Function.update_of_ne ht]

theorem Inv.step_push (h : Inv pool s)
    (hexec : FreelistInterleaving.exec s.core (.callPush t block) = some d) :
    Inv pool ⟨d, s.live.erase block⟩ ∧ block ∈ s.live ∧ s.core.pc t = .idle ∧
      d.pc = Function.update s.core.pc t (.pushLoad block) := by
  obtain ⟨items, hcore⟩ := h.core
  have htimely : Timely s.core (.callPush t block) := trivial
  obtain ⟨items', -, hcore'⟩ := hcore.step htimely hexec
  cases taken_of_exec hexec with
  | callPush hpc hmem =>
      refine ⟨⟨⟨items', hcore'⟩, h.nodup.erase _, ?_⟩, h.owned.mem_of hmem, hpc, rfl⟩
      have hfront : Ledger (· ∈ s.live)
          (Function.update s.core.owned t (block :: (s.core.owned t).erase block)) := by
        refine h.owned.permute (k := t) ?_ fun u hu => Function.update_of_ne hu _ _
        rw [Function.update_self]
        exact (List.perm_cons_erase hmem).symm
      refine hfront.remove (k := t) (b := block) (fun _ => h.nodup.mem_erase_iff) ?_ ?_
      · simp only [FreelistInterleaving.State.goto, FreelistInterleaving.State.own,
          Function.update_self]
      · intro u hu
        simp only [FreelistInterleaving.State.goto, FreelistInterleaving.State.own,
          Function.update_of_ne hu]

/-! ## What the users notice -/

theorem view_moved (s : State) (t : Nat) (pc : Pc) (live : List Nat)
    (hpc : c.pc = Function.update s.core.pc t pc) :
    view ⟨c, live⟩ = { (view s).enter t (listPhase pc) with live := live } := by
  simp only [view, View.enter, hpc, View.mk.injEq, and_true]
  funext u
  by_cases hu : u = t
  · subst hu
    simp
  · simp [hu]

/-- Within a call the users notice nothing. -/
theorem view_quiet (hpc : c.pc = Function.update s.core.pc t pc)
    (hphase : listPhase (s.core.pc t) = listPhase pc) : view ⟨c, s.live⟩ = view s := by
  have hsame : (view s).phase t = listPhase pc := hphase
  rw [view_moved s t pc s.live hpc, View.enter, ← hsame, Function.update_eq_self]
  rfl

theorem phase_eq (hpc : s.core.pc t = pc) : (view s).phase t = listPhase pc :=
  congrArg listPhase hpc

theorem listPhase_outside (h : listPhase pc = .outside) : pc = .idle := by
  cases pc with
  | idle => rfl
  | _ => cases h

theorem told_core (h : Inv pool s) (hinner : isInner e = true)
    (hexec : FreelistInterleaving.exec s.core e = some c) :
    Told (view s) (notice s (.core e) ⟨c, liveAfter s e⟩) (view ⟨c, liveAfter s e⟩) := by
  cases taken_of_exec hexec with
  | callPush _ _ => cases hinner
  | give _ _ => cases hinner
  | @callPop t hpc =>
      have hview : view ⟨s.core.goto t .popLoad, s.live⟩ = (view s).enter t .allocating :=
        view_moved s t .popLoad s.live rfl
      exact hview ▸ Tells.callAlloc (phase_eq hpc)
  | pushLoad hpc => exact view_quiet rfl (by rw [hpc]; rfl)
  | popEmpty hpc _ => exact view_quiet rfl (by rw [hpc]; rfl)
  | popLoad hpc _ => exact view_quiet rfl (by rw [hpc]; rfl)
  | link hpc => exact view_quiet rfl (by rw [hpc]; rfl)
  | readNext hpc => exact view_quiet rfl (by rw [hpc]; rfl)
  | scribble _ => rfl
  | @pushed t node old count hpc hsame =>
      have hidle : ((s.core.swing node).goto t .idle).pc t = .idle :=
        Function.update_self ..
      have hview : view ⟨(s.core.swing node).goto t .idle, s.live⟩ =
          (view s).enter t .outside := view_moved s t .idle s.live rfl
      rw [notice, if_pos hidle]
      exact hview ▸ Tells.freed (phase_eq hpc)
  | @pushFailed t node old count spurious hpc hfail =>
      have hbusy : (s.core.goto t (.pushLoad node)).pc t ≠ .idle := by
        simp [FreelistInterleaving.State.goto]
      rw [notice, if_neg hbusy]
      exact view_quiet rfl (by rw [hpc]; rfl)
  | @popped t next old count hpc hsame =>
      have hbusy : ((s.core.swing next).goto t (.popped old.ptr)).pc t ≠ .idle := by
        simp [FreelistInterleaving.State.goto]
      rw [notice, if_neg hbusy]
      exact view_quiet rfl (by rw [hpc]; rfl)
  | @popFailed t next old count spurious hpc hfail =>
      have hbusy : (s.core.goto t .popLoad).pc t ≠ .idle := by
        simp [FreelistInterleaving.State.goto]
      rw [notice, if_neg hbusy]
      exact view_quiet rfl (by rw [hpc]; rfl)
  | @retNull t hpc =>
      have hview : view ⟨s.core.goto t .idle, s.live⟩ = (view s).enter t .outside :=
        view_moved s t .idle s.live rfl
      rw [notice, liveAfter, hpc, gets, if_pos rfl]
      exact hview ▸ Tells.refused (phase_eq hpc)
  | @ret t ptr hpc hne =>
      have hview : view ⟨(s.core.own t (ptr :: s.core.owned t)).goto t .idle,
          ptr :: s.live⟩ = { (view s).enter t .outside with live := ptr :: s.live } :=
        view_moved s t .idle (ptr :: s.live) rfl
      rw [notice, liveAfter, hpc, gets, if_neg hne]
      exact hview ▸ Tells.granted (phase_eq hpc) hne (h.notMem_live hpc hne)

end Steps

/-! ## The list as a service -/

/-- What `aligned_alloc` has granted to `initialize_pool`, which does not look whether it
has.  Each block is a `FreeBlock`, and those are aligned to 64, so `cfg.size` has to be a
multiple of it. -/
structure Granted (cfg : BenchmarkConfig) (memory : Nat) : Prop where
  placed : Placed cfg.size memory cfg.pool
  aligned : 64 ∣ memory ∧ 64 ∣ cfg.size

def IsBlock (cfg : BenchmarkConfig) (memory b : Nat) : Prop :=
  b ∈ blocksOf cfg.size memory cfg.pool

section Service

variable {cfg : BenchmarkConfig} {memory : Nat} {next : Heap}

/-- The tag counts the blocks pushed. -/
theorem seed_tag (memory size : Nat) (next : Heap) (n : Nat) :
    (seed memory size next n).2.tag = wrap n := by
  induction n with
  | zero => rfl
  | succ n ih =>
      show wrap ((seed memory size next n).2.tag + 1) = wrap (n + 1)
      rw [ih]
      unfold wrap
      omega

theorem inv_initializePool (hpool : Granted cfg memory) (next : Heap) :
    Inv (IsBlock cfg memory) (initializePool next memory cfg.size cfg.pool) where
  core := by
    refine ⟨(blocksOf cfg.size memory cfg.pool).reverse,
      { chain := seed_chain next hpool.placed cfg.pool (Nat.le_refl _)
        ledger := ?_
        tag := seed_tag memory cfg.size next cfg.pool
        pcOk := fun _ => trivial
        null := zero_notMem_blocksOf hpool.placed }⟩
    have hnodup := List.nodup_reverse.mpr (nodup_blocksOf hpool.placed)
    exact
      { nodup := fun place => by
          cases place with
          | none => exact hnodup
          | some t => exact List.nodup_nil
        only := fun i j b hi hj => by
          cases i with
          | some t => cases hi
          | none =>
              cases j with
              | some t => cases hj
              | none => rfl
        mem := fun b => by
          constructor
          · intro hb
            exact ⟨none, List.mem_reverse.mpr hb⟩
          · intro hb
            obtain ⟨place, hplace⟩ := hb
            cases place with
            | none => exact List.mem_reverse.mp hplace
            | some t => cases hplace }
  nodup := List.nodup_nil
  owned :=
    { nodup := fun _ => List.nodup_nil
      only := fun _ _ _ hi _ => by cases hi
      mem := fun b => by simp [initializePool] }

theorem exec_spec {pool : Nat → Prop} {s s' : State} (h : Inv pool s) {e : Event}
    (hexec : exec s e = some s') : Inv pool s' ∧ Told (view s) (notice s e s') (view s') := by
  cases e with
  | core e =>
      simp only [exec, Option.ite_none_right_eq_some] at hexec
      obtain ⟨⟨hinner, htimely⟩, hexec⟩ := hexec
      obtain ⟨c, hc, rfl⟩ := Option.map_eq_some_iff.mp hexec
      exact ⟨h.step_core hinner htimely hc, told_core h hinner hc⟩
  | push t owner block =>
      simp only [exec] at hexec
      obtain ⟨c, hhand, hexec⟩ := Option.bind_eq_some_iff.mp hexec
      obtain ⟨d, hd, rfl⟩ := Option.map_eq_some_iff.mp hexec
      have hpc : c.pc = s.core.pc := by
        unfold hand at hhand
        split at hhand
        · cases hhand
          rfl
        · cases taken_of_exec hhand with
          | give _ _ => rfl
      obtain ⟨hinv, hmem, hidle, hmoved⟩ := (h.hand hhand).step_push hd
      refine ⟨hinv, ?_⟩
      have hidle : s.core.pc t = .idle := by
        rw [← hpc]
        exact hidle
      have hview : view ⟨d, s.live.erase block⟩ =
          { (view s).enter t .freeing with live := s.live.erase block } := by
        apply view_moved s t (.pushLoad block)
        rw [← hpc]
        exact hmoved
      exact hview ▸ Tells.callDealloc (phase_eq hidle) hmem

theorem asks_spec {s : State} {t : Nat} (hphase : (view s).phase t = .outside) :
    ∃ e s', exec s e = some s' ∧ notice s e s' = some (.callAlloc t) := by
  have hidle : s.core.pc t = .idle := listPhase_outside hphase
  refine ⟨.core (.callPop t), ⟨s.core.goto t .popLoad, s.live⟩, ?_, rfl⟩
  have hcore : FreelistInterleaving.exec s.core (.callPop t) =
      some (s.core.goto t .popLoad) := if_pos hidle
  rw [exec, if_pos ⟨rfl, trivial⟩, hcore]
  rfl

theorem takes_spec {pool : Nat → Prop} {s : State} (h : Inv pool s) {t block : Nat}
    (hphase : (view s).phase t = .outside) (hmem : block ∈ s.live) :
    ∃ e s', exec s e = some s' ∧ notice s e s' = some (.callDealloc t block) := by
  have hidle : s.core.pc t = .idle := listPhase_outside hphase
  obtain ⟨u, hu⟩ := (h.owned.mem block).mp hmem
  have hhand : ∃ c, hand s.core u t block = some c ∧ c.pc t = .idle ∧ block ∈ c.owned t := by
    unfold hand
    split
    · next hut => exact ⟨s.core, rfl, hidle, hut ▸ hu⟩
    · next hut =>
        refine ⟨_, if_pos ⟨hu, hut⟩, hidle, ?_⟩
        simp [FreelistInterleaving.State.own]
  obtain ⟨c, hc, hpc, hown⟩ := hhand
  refine ⟨.push t u block, ⟨(c.own t ((c.owned t).erase block)).goto t (.pushLoad block),
    s.live.erase block⟩, ?_, rfl⟩
  have hcall : FreelistInterleaving.exec c (.callPush t block) =
      some ((c.own t ((c.owned t).erase block)).goto t (.pushLoad block)) :=
    if_pos ⟨hpc, hown⟩
  rw [exec, hc, Option.bind_some, hcall]
  rfl

/-- `FreelistAllocator` after `initialize_pool`. -/
def service (hpool : Granted cfg memory) (next : Heap) : Service where
  State := State
  Event := Event
  init := initializePool next memory cfg.size cfg.pool
  exec := exec
  view := view
  notice := notice
  Inv := Inv (IsBlock cfg memory)
  start := ⟨inv_initializePool hpool next, rfl⟩
  step _ _ _ hinv hexec := exec_spec hinv hexec
  asks _ _ _ hphase := asks_spec hphase
  takes _ _ _ hinv hphase hmem := takes_spec hinv hphase hmem

end Service

/-! ## Runs -/

section Runs

variable {cfg : BenchmarkConfig} {memory threads : Nat} {next : Heap} {w : Workload}

/-- Every block is on the list, once. -/
def AllBack (cfg : BenchmarkConfig) (memory : Nat) (s : State) : Prop :=
  ∃ items, Chain 0 s.core.next s.core.head.ptr items ∧
    items.Perm (blocksOf cfg.size memory cfg.pool)

/-- With all threads outside and no block live, the list has them all. -/
theorem Inv.allBack {s : State} (h : Inv (IsBlock cfg memory) s)
    (hpool : Granted cfg memory) (houtside : ∀ t, (view s).phase t = .outside)
    (hlive : s.live = []) : AllBack cfg memory s := by
  obtain ⟨items, hcore⟩ := h.core
  refine ⟨items, hcore.chain, ?_⟩
  apply (List.perm_ext_iff_of_nodup (hcore.ledger.nodup none)
    (nodup_blocksOf hpool.placed)).mpr
  intro b
  constructor
  · intro hb
    exact hcore.ledger.mem_of (k := none) hb
  · intro hb
    obtain ⟨place, hplace⟩ := (hcore.ledger.mem b).mp hb
    cases place with
    | none => exact hplace
    | some t =>
        have hidle : s.core.pc t = .idle := listPhase_outside (houtside t)
        rw [FreelistInterleaving.cell, holds, hidle] at hplace
        have howned : b ∈ s.core.owned t := hplace
        have hmem := h.owned.mem_of howned
        rw [hlive] at hmem
        cases hmem

/-- The live blocks are some that `initialize_pool` has pushed, each where a `FreeBlock` may
be. -/
def Lent (cfg : BenchmarkConfig) (memory : Nat) (s : State) : Prop :=
  ∀ b ∈ s.live, 64 ∣ b ∧ ∃ i, i < cfg.pool ∧ b = memory + i * cfg.size

theorem Inv.lent {s : State} (h : Inv (IsBlock cfg memory) s) (hpool : Granted cfg memory) :
    Lent cfg memory s := by
  intro b hb
  obtain ⟨items, hcore⟩ := h.core
  obtain ⟨t, ht⟩ := (h.owned.mem b).mp hb
  have hblock : IsBlock cfg memory b := by
    apply hcore.ledger.mem_of (k := some t)
    exact List.mem_append_right _ ht
  obtain ⟨i, hi, heq⟩ := mem_blocksOf.mp hblock
  rw [hpool.placed.indexToPtr_eq hi] at heq
  refine ⟨?_, i, hi, heq⟩
  rw [heq]
  exact Nat.dvd_add hpool.aligned.1 (Dvd.dvd.mul_left hpool.aligned.2 i)

/-- All workers have finished. -/
theorem allBack_of_finished (hpool : Granted cfg memory) (hsuits : w.Suits cfg.size)
    {s : (Nat → Worker) × State}
    (h : Reachable (together (workers w threads cfg.size) (service hpool next)) s)
    (hall : ∀ t, (s.1 t).point = .finished) : AllBack cfg memory s.2 := by
  have hkept := (custody hsuits threads).kept h
  have hfits : Fits w s.1 (view s.2).phase := hkept.fits
  have hinv : Inv (IsBlock cfg memory) s.2 := hkept.inv
  apply hinv.allBack hpool
  · intro t
    rw [(hfits t).1, hall t]
    rfl
  · exact (orderly_of_reachable hsuits h).finished hall

/-- The benchmarks on a bare list.  The workers free no block twice and none that they have
not got, and when all have finished every block is on the list; the producer and the
consumer hand the blocks over as with the other allocators. -/
theorem list_orderly (cfg : BenchmarkConfig) (memory : Nat) (hpool : Granted cfg memory)
    (next : Heap) :
    (∀ (w : Workload) (s : (Nat → Worker) × State),
      w ∈ sized cfg ∨ w ∈ classed cfg ∧ 1024 ≤ cfg.size →
        Reachable (together (workers w cfg.threads cfg.size) (service hpool next)) s →
          Orderly w cfg.threads cfg.size (service hpool next) s ∧ Lent cfg memory s.2 ∧
            ((∀ t, (s.1 t).point = .finished) → AllBack cfg memory s.2)) ∧
    ∀ s : ProducerConsumer.State × State,
      Reachable (together (ProducerConsumer.program cfg.ops) (service hpool next)) s →
        ProducerConsumer.HandedOver cfg.ops (service hpool next) s ∧
          Lent cfg memory s.2 := by
  constructor
  · intro w s hw h
    have hsuits : w.Suits cfg.size := by
      rcases hw with hw | ⟨hw, hlarge⟩
      · exact sized_suits hw (Nat.le_refl _) hpool.placed.blockPos
      · exact classed_suits hw (classes_le_iff.mpr hlarge)
    have hinv : Inv (IsBlock cfg memory) s.2 := ((custody hsuits _).kept h).inv
    exact ⟨orderly_of_reachable hsuits h, hinv.lent hpool, allBack_of_finished hpool hsuits h⟩
  · intro s h
    have hinv : Inv (IsBlock cfg memory) s.2 := ((ProducerConsumer.custody _).kept h).inv
    exact ⟨ProducerConsumer.handedOver_of_reachable h, hinv.lent hpool⟩

/-- One worker, and two blocks of 64 bytes. -/
def twoConfig : BenchmarkConfig := { ops := 1, threads := 1, pool := 2 }

theorem twoConfig_granted : Granted twoConfig 4096 where
  placed := ⟨by decide, by decide, by decide⟩
  aligned := by decide

/-- The worker pops the upper block, fills it and pushes it at its end; the exchange of its
`push` fails once. -/
def popRun : List (Nat × Choice ⊕ Event) :=
  [.inr (.core (.callPop 0)), .inr (.core (.load 0)), .inr (.core (.readNext 0)),
    .inr (.core (.exchange 0 false)), .inr (.core (.ret 0)), .inl (0, ⟨[], 64⟩),
    .inl (0, ⟨[], 0⟩), .inl (0, ⟨[4160], 0⟩), .inr (.push 0 0 4160), .inr (.core (.load 0)),
    .inr (.core (.link 0)), .inr (.core (.exchange 0 true)), .inr (.core (.load 0)),
    .inr (.core (.link 0)), .inr (.core (.exchange 0 false)), .inl (0, ⟨[], 0⟩)]

theorem list_orderly_popRun : ∃ s : (Nat → Worker) × State,
    replay (stepBoth (workers (allocBurst twoConfig) 1 64)
      (service twoConfig_granted fun _ => 0))
      ((workers (allocBurst twoConfig) 1 64).init,
        initializePool (fun _ => 0) 4096 64 2) popRun = some s ∧
    (s.1 0).point = .finished ∧
    Orderly (allocBurst twoConfig) 1 64 (service twoConfig_granted fun _ => 0) s :=
  ⟨_, rfl, rfl, ((list_orderly twoConfig 4096 twoConfig_granted fun _ => 0).1 _ _
    (.inl List.mem_cons_self) (Reachable.replay popRun (.init rfl) rfl)).1⟩

end Runs

end PoolMemalloc.Ports.FreelistBenchmarks
