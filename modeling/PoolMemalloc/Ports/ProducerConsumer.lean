import PoolMemalloc.Ports.AllocatorServices

/-!
# `producer_consumer`

One thread asks for blocks and puts them on a queue, the other takes them from the queue
and frees them; the mutex of the queue makes each of its operations one step.  The
producer sets `done` after its last block, and the consumer stops when it has found the
queue empty and then `done` set.

A block changes hands on the way and is freed by another thread than the one that got it,
once.  But the test of the queue and that of `done` are two steps: what the producer puts
on the queue between them stays there (`leftRun`).
-/

namespace PoolMemalloc.Ports.ProducerConsumer

open PoolMemalloc.Verified.BlockService
open PoolMemalloc.Verified.Conservation
open PoolMemalloc.Verified.Transition
open PoolMemalloc.Ports.AllocatorServices

/-- The thread that runs `producer`, and the one that runs `consumer`. -/
def producerThread : Nat := 0

def consumerThread : Nat := 1

inductive ProducerPoint
  /-- Head of the `for` loop. -/
  | loop
  | allocating
  /-- Before `memset` and `queue_.push`. -/
  | holding (block : Nat)
  | finished
  deriving Repr, DecidableEq

inductive ConsumerPoint
  /-- Before `queue_.pop`. -/
  | popping
  | freeing (block : Nat)
  | releasing
  /-- The queue was empty; before the load of `done`. -/
  | testing
  | finished
  deriving Repr, DecidableEq

/-- The two threads, the loop counter of the producer, the queue and `done`. -/
structure State where
  producer : ProducerPoint
  i : Nat
  consumer : ConsumerPoint
  queue : List Nat
  done : Bool
  deriving Repr, DecidableEq

inductive Act
  | produce
  | consume
  deriving Repr, DecidableEq

def start : State where
  producer := .loop
  i := 0
  consumer := .popping
  queue := []
  done := false

/-- The producer's steps between calls. -/
def produce (ops : Nat) (s : State) : Option State :=
  match s.producer with
  | .loop => if s.i < ops then none else some { s with producer := .finished, done := true }
  | .holding block =>
      some { s with producer := .loop, i := s.i + 1, queue := s.queue ++ [block] }
  | _ => none

/-- The consumer's. -/
def consume (s : State) : Option State :=
  match s.consumer with
  | .popping =>
      match s.queue with
      | [] => some { s with consumer := .testing }
      | block :: rest => some { s with consumer := .freeing block, queue := rest }
  | .testing =>
      if s.done then some { s with consumer := .finished }
      else some { s with consumer := .popping }
  | _ => none

/-- The calls of the two and their results. -/
def hears (ops : Nat) (s : State) : Notice → Option State
  | .callAlloc t =>
      if t = producerThread ∧ s.producer = .loop ∧ s.i < ops then
        some { s with producer := .allocating }
      else none
  | .gotBlock t block =>
      if t = producerThread ∧ s.producer = .allocating then
        if block = 0 then some { s with producer := .loop, i := s.i + 1 }
        else some { s with producer := .holding block }
      else none
  | .callDealloc t block =>
      if t = consumerThread ∧ s.consumer = .freeing block then
        some { s with consumer := .releasing }
      else none
  | .freed t =>
      if t = consumerThread ∧ s.consumer = .releasing then
        some { s with consumer := .popping }
      else none

def program (ops : Nat) : Program where
  State := State
  Act := Act
  init := start
  own
    | s, .produce => produce ops s
    | s, .consume => consume s
  hears := hears ops

/-! ## Where the blocks are -/

inductive Holder
  | producer
  | queue
  | consumer
  deriving Repr, DecidableEq

def ProducerPoint.has : ProducerPoint → List Nat
  | .holding block => [block]
  | _ => []

def ConsumerPoint.has : ConsumerPoint → List Nat
  | .freeing block => [block]
  | _ => []

def cell (s : State) : Holder → List Nat
  | .producer => s.producer.has
  | .queue => s.queue
  | .consumer => s.consumer.has

def ProducerPoint.phase : ProducerPoint → Phase
  | .allocating => .allocating
  | _ => .outside

def ConsumerPoint.phase : ConsumerPoint → Phase
  | .releasing => .freeing
  | _ => .outside

/-- The threads are where they think they are, and `done` tells of the producer's end. -/
structure Fits (s : State) (phase : Nat → Phase) : Prop where
  producer : phase producerThread = s.producer.phase
  consumer : phase consumerThread = s.consumer.phase
  done : s.done = true ↔ s.producer = .finished
  stopped : s.consumer = .finished → s.done = true

section Steps

variable {ops : Nat} {s s' : State} {phase : Nat → Phase} {n : Notice} {v v' : View}

/-- No block changes hands. -/
theorem ledger_same {Q : Nat → Prop} (hledger : Ledger Q (cell s))
    (hproducer : s'.producer.has = s.producer.has) (hqueue : s'.queue = s.queue)
    (hconsumer : s'.consumer.has = s.consumer.has) : Ledger Q (cell s') := by
  have hcell : cell s' = cell s := by
    funext holder
    cases holder with
    | producer => exact hproducer
    | queue => exact hqueue
    | consumer => exact hconsumer
  rw [hcell]
  exact hledger

theorem produce_kept (hfits : Fits s phase) (hown : produce ops s = some s') :
    Fits s' phase ∧ ∀ Q, Ledger Q (cell s) → Ledger Q (cell s') := by
  obtain ⟨hproducer, hconsumer, hdone, hstopped⟩ := hfits
  cases hpoint : s.producer with
  | loop =>
      simp only [produce, hpoint] at hown
      split at hown
      · cases hown
      · cases hown
        rw [hpoint] at hproducer
        refine ⟨⟨hproducer, hconsumer, by simp, fun _ => rfl⟩, fun Q hledger => ?_⟩
        exact ledger_same hledger (by rw [hpoint]; rfl) rfl rfl
  | holding block =>
      simp only [produce, hpoint, Option.some.injEq] at hown
      subst hown
      rw [hpoint] at hproducer
      have hnot : s.done = false := by
        cases hd : s.done with
        | false => rfl
        | true =>
            have hfinished := hdone.mp hd
            rw [hpoint] at hfinished
            cases hfinished
      refine ⟨⟨hproducer, hconsumer, by simp [hnot], hstopped⟩, fun Q hledger => ?_⟩
      apply hledger.move (k := .producer) (l := .queue) (by simp)
      · show (s.queue ++ [block]).Perm (s.producer.has ++ s.queue)
        rw [hpoint]
        exact List.perm_append_singleton block s.queue
      · intro holder hne hne'
        cases holder with
        | producer => exact (hne rfl).elim
        | queue => exact (hne' rfl).elim
        | consumer => rfl
  | allocating => simp [produce, hpoint] at hown
  | finished => simp [produce, hpoint] at hown

theorem consume_kept (hfits : Fits s phase) (hown : consume s = some s') :
    Fits s' phase ∧ ∀ Q, Ledger Q (cell s) → Ledger Q (cell s') := by
  obtain ⟨hproducer, hconsumer, hdone, hstopped⟩ := hfits
  cases hpoint : s.consumer with
  | popping =>
      rw [hpoint] at hconsumer
      cases hqueue : s.queue with
      | nil =>
          simp only [consume, hpoint, hqueue, Option.some.injEq] at hown
          subst hown
          refine ⟨⟨hproducer, hconsumer, hdone, by simp⟩, fun Q hledger => ?_⟩
          exact ledger_same hledger rfl hqueue.symm (by rw [hpoint]; rfl)
      | cons block rest =>
          simp only [consume, hpoint, hqueue, Option.some.injEq] at hown
          subst hown
          refine ⟨⟨hproducer, hconsumer, hdone, by simp⟩, fun Q hledger => ?_⟩
          apply hledger.move (k := .consumer) (l := .queue) (by simp)
          · show ([block] ++ rest).Perm (s.consumer.has ++ s.queue)
            rw [hpoint, hqueue]
            exact List.Perm.refl _
          · intro holder hne hne'
            cases holder with
            | producer => rfl
            | queue => exact (hne' rfl).elim
            | consumer => exact (hne rfl).elim
  | testing =>
      rw [hpoint] at hconsumer
      simp only [consume, hpoint] at hown
      split at hown
      · next hset =>
          cases hown
          refine ⟨⟨hproducer, hconsumer, hdone, fun _ => hset⟩, fun Q hledger => ?_⟩
          exact ledger_same hledger rfl rfl (by rw [hpoint]; rfl)
      · next hset =>
          cases hown
          refine ⟨⟨hproducer, hconsumer, hdone, by simp⟩, fun Q hledger => ?_⟩
          exact ledger_same hledger rfl rfl (by rw [hpoint]; rfl)
  | freeing block => simp [consume, hpoint] at hown
  | releasing => simp [consume, hpoint] at hown
  | finished => simp [consume, hpoint] at hown

/-- A result for one of the two changes the phase of that thread. -/
theorem Fits.producer_moved (h : Fits s phase) {point : ProducerPoint} {i : Nat}
    (hdone : s.producer ≠ .finished) (hpoint : point ≠ .finished) :
    Fits { s with producer := point, i := i }
      (Function.update phase producerThread point.phase) where
  producer := Function.update_self ..
  consumer := by
    rw [Function.update_of_ne (by decide)]
    exact h.consumer
  done := by simp [h.done, hdone, hpoint]
  stopped := h.stopped

theorem Fits.consumer_moved (h : Fits s phase) {point : ConsumerPoint}
    (hpoint : point ≠ .finished) :
    Fits { s with consumer := point } (Function.update phase consumerThread point.phase) where
  producer := by
    rw [Function.update_of_ne (by decide)]
    exact h.producer
  consumer := Function.update_self ..
  done := h.done
  stopped := fun heq => (hpoint heq).elim

theorem hears_kept (hfits : Fits s v.phase) (hnodup : v.live.Nodup)
    (hheld : Ledger (· ∈ v.live) (cell s)) (htells : Tells v n v')
    (hhears : hears ops s n = some s') :
    Fits s' v'.phase ∧ Ledger (· ∈ v'.live) (cell s') := by
  cases htells with
  | callAlloc hphase =>
      simp only [hears, Option.ite_none_right_eq_some, Option.some.injEq] at hhears
      obtain ⟨⟨rfl, hpoint, -⟩, rfl⟩ := hhears
      constructor
      · exact hfits.producer_moved (by simp [hpoint]) (by simp)
      · exact ledger_same hheld (by rw [hpoint]; rfl) rfl rfl
  | refused hphase =>
      simp only [hears, if_true, Option.ite_none_right_eq_some, Option.some.injEq] at hhears
      obtain ⟨⟨rfl, hpoint⟩, rfl⟩ := hhears
      constructor
      · exact hfits.producer_moved (by simp [hpoint]) (by simp)
      · exact ledger_same hheld (by rw [hpoint]; rfl) rfl rfl
  | @granted t block hphase hne hnew =>
      simp only [hears, if_neg hne, Option.ite_none_right_eq_some, Option.some.injEq] at hhears
      obtain ⟨⟨rfl, hpoint⟩, rfl⟩ := hhears
      constructor
      · exact hfits.producer_moved (by simp [hpoint]) (by simp)
      · apply hheld.insert (k := .producer) hnew (fun _ => List.mem_cons)
        · show [block] = block :: s.producer.has
          rw [hpoint]
          rfl
        · intro holder hholder
          cases holder with
          | producer => exact (hholder rfl).elim
          | queue => rfl
          | consumer => rfl
  | @callDealloc t block hphase hmem =>
      simp only [hears, Option.ite_none_right_eq_some, Option.some.injEq] at hhears
      obtain ⟨⟨rfl, hpoint⟩, rfl⟩ := hhears
      constructor
      · exact hfits.consumer_moved (by simp)
      · apply hheld.remove (k := .consumer) (fun _ => hnodup.mem_erase_iff)
        · show s.consumer.has = [block]
          rw [hpoint]
          rfl
        · intro holder hholder
          cases holder with
          | producer => rfl
          | queue => rfl
          | consumer => exact (hholder rfl).elim
  | freed hphase =>
      simp only [hears, Option.ite_none_right_eq_some, Option.some.injEq] at hhears
      obtain ⟨⟨rfl, hpoint⟩, rfl⟩ := hhears
      constructor
      · exact hfits.consumer_moved (by simp)
      · exact ledger_same hheld rfl rfl (by rw [hpoint]; rfl)

end Steps

theorem fits_start : Fits start View.blank.phase where
  producer := rfl
  consumer := rfl
  done := by simp [start]
  stopped := by simp [start]

/-- Producer and consumer keep account of their blocks. -/
def custody (ops : Nat) : Custody (program ops) where
  Holder := Holder
  cell := cell
  fits := Fits
  start := ⟨fits_start, fun holder => by cases holder <;> rfl⟩
  own _ act _ _ hfits hown := by
    cases act with
    | produce => exact produce_kept hfits hown
    | consume => exact consume_kept hfits hown
  hears _ _ _ _ _ hfits hnodup hheld htells hhears := hears_kept hfits hnodup hheld htells hhears

/-! ## Runs -/

/-- What holds of the two threads and the service they run on, between any two steps. -/
structure HandedOver (ops : Nat) (S : Service) (s : State × S.State) : Prop where
  /-- The blocks that are live are the one the producer holds, those on the queue and the
  one the consumer is about to free, each of them once. -/
  held : Ledger (· ∈ (S.view s.2).live) (cell s.1)
  /-- What the consumer is about to free is live, and the allocator takes it. -/
  frees : ∀ block, s.1.consumer = .freeing block → block ∈ (S.view s.2).live ∧
    ∃ e d, S.exec s.2 e = some d ∧ S.notice s.2 e d = some (.callDealloc consumerThread block)
  /-- A thread that has not finished is in a call, or can go on. -/
  produces : s.1.producer ≠ .finished → (S.view s.2).phase producerThread = .outside →
    ∃ e s', stepBoth (program ops) S s e = some s' ∧ s'.1.producer ≠ s.1.producer
  consumes : s.1.consumer ≠ .finished → (S.view s.2).phase consumerThread = .outside →
    ∃ e s', stepBoth (program ops) S s e = some s' ∧ s'.1.consumer ≠ s.1.consumer
  /-- The consumer finishes last. -/
  last : s.1.consumer = .finished → s.1.producer = .finished
  /-- Then the blocks that are live are those left on the queue. -/
  left : s.1.consumer = .finished → (S.view s.2).live.Perm s.1.queue

section Runs

variable {ops : Nat} {S : Service} {s : State × S.State}

theorem produces_of_fits (hinv : S.Inv s.2) (hfits : Fits s.1 (S.view s.2).phase)
    (hbusy : s.1.producer ≠ .finished) (hphase : (S.view s.2).phase producerThread = .outside) :
    ∃ e s', stepBoth (program ops) S s e = some s' ∧ s'.1.producer ≠ s.1.producer := by
  have hpoint := hfits.producer
  rw [hphase] at hpoint
  cases hproducer : s.1.producer with
  | loop =>
      by_cases hi : s.1.i < ops
      · obtain ⟨e, d, hexec, hnotice⟩ := S.asks _ _ hinv hphase
        refine ⟨.inr e, ({ s.1 with producer := .allocating }, d),
          stepBoth_notice hexec hnotice ?_, by simp⟩
        simp only [program, hears, hproducer, hi, and_self, if_true]
      · refine ⟨.inl .produce, ({ s.1 with producer := .finished, done := true }, s.2), ?_,
          by simp⟩
        simp only [stepBoth, program, produce, hproducer, if_neg hi, Option.map_some]
  | holding block =>
      refine ⟨.inl .produce, ({ s.1 with
        producer := .loop, i := s.1.i + 1, queue := s.1.queue ++ [block] }, s.2), ?_, by simp⟩
      simp only [stepBoth, program, produce, hproducer, Option.map_some]
  | allocating =>
      rw [hproducer] at hpoint
      cases hpoint
  | finished => exact (hbusy hproducer).elim

theorem consumes_of_fits (hinv : S.Inv s.2) (hfits : Fits s.1 (S.view s.2).phase)
    (hlive : ∀ block, s.1.consumer = .freeing block → block ∈ (S.view s.2).live)
    (hbusy : s.1.consumer ≠ .finished) (hphase : (S.view s.2).phase consumerThread = .outside) :
    ∃ e s', stepBoth (program ops) S s e = some s' ∧ s'.1.consumer ≠ s.1.consumer := by
  have hpoint := hfits.consumer
  rw [hphase] at hpoint
  cases hconsumer : s.1.consumer with
  | popping =>
      cases hqueue : s.1.queue with
      | nil =>
          refine ⟨.inl .consume, ({ s.1 with consumer := .testing }, s.2), ?_, by simp⟩
          simp only [stepBoth, program, consume, hconsumer, hqueue, Option.map_some]
      | cons block rest =>
          refine ⟨.inl .consume, ({ s.1 with consumer := .freeing block, queue := rest }, s.2),
            ?_, by simp⟩
          simp only [stepBoth, program, consume, hconsumer, hqueue, Option.map_some]
  | testing =>
      by_cases hdone : s.1.done = true
      · refine ⟨.inl .consume, ({ s.1 with consumer := .finished }, s.2), ?_, by simp⟩
        simp only [stepBoth, program, consume, hconsumer, if_pos hdone, Option.map_some]
      · refine ⟨.inl .consume, ({ s.1 with consumer := .popping }, s.2), ?_, by simp⟩
        simp only [stepBoth, program, consume, hconsumer, if_neg hdone, Option.map_some]
  | freeing block =>
      obtain ⟨e, d, hexec, hnotice⟩ := S.takes _ _ _ hinv hphase (hlive block hconsumer)
      refine ⟨.inr e, ({ s.1 with consumer := .releasing }, d),
        stepBoth_notice hexec hnotice ?_, by simp⟩
      simp only [program, hears, hconsumer, and_self, if_true]
  | releasing =>
      rw [hconsumer] at hpoint
      cases hpoint
  | finished => exact (hbusy hconsumer).elim

theorem handedOver_of_reachable (h : Reachable (together (program ops) S) s) :
    HandedOver ops S s := by
  have hkept := (custody ops).kept h
  have hfits : Fits s.1 (S.view s.2).phase := hkept.fits
  have hheld : Ledger (· ∈ (S.view s.2).live) (cell s.1) := hkept.held
  have hlive : ∀ block, s.1.consumer = .freeing block → block ∈ (S.view s.2).live := by
    intro block hpoint
    apply hheld.mem_of (k := .consumer)
    rw [cell, hpoint]
    exact List.mem_singleton_self block
  have hlast : s.1.consumer = .finished → s.1.producer = .finished := fun hfinished =>
    hfits.done.mp (hfits.stopped hfinished)
  exact
    { held := hheld
      frees := fun block hpoint => by
        have hphase : (S.view s.2).phase consumerThread = .outside := by
          rw [hfits.consumer, hpoint]
          rfl
        exact ⟨hlive block hpoint, S.takes _ _ _ hkept.inv hphase (hlive block hpoint)⟩
      produces := produces_of_fits hkept.inv hfits
      consumes := consumes_of_fits hkept.inv hfits hlive
      last := hlast
      left := fun hfinished => by
        apply (List.perm_ext_iff_of_nodup hkept.nodup (hheld.nodup .queue)).mpr
        intro b
        constructor
        · intro hb
          obtain ⟨holder, hholder⟩ := (hheld.mem b).mp hb
          cases holder with
          | queue => exact hholder
          | producer =>
              rw [cell, hlast hfinished] at hholder
              cases hholder
          | consumer =>
              rw [cell, hfinished] at hholder
              cases hholder
        · intro hb
          exact (hheld.mem b).mpr ⟨.queue, hb⟩ }

/-- On any of the allocators each block the producer gets is freed at most once, by the
consumer, and in the end only those left on the queue are live. -/
theorem blocks_handed_over (ops : Nat) (b : Backend) (s : State × b.service.State)
    (h : Reachable (together (program ops) b.service) s) : HandedOver ops b.service s :=
  handedOver_of_reachable h

/-- The consumer finds the queue empty when the producer has its only block in hand, and
tests `done` after the producer has ended. -/
def leftRun : List (Act ⊕ TlFreelistInterleaving.Event) :=
  .inr (.callAlloc 0) :: List.replicate 15 (.inr (.step 0)) ++
    [.inl .consume, .inl .produce, .inl .produce, .inl .consume]

/-- One block is left on the queue, and live. -/
theorem blocks_handed_over_leftRun : ∃ s,
    replay (stepBoth (program 1) smallPool.service) (start, smallPool.service.init) leftRun =
      some s ∧
    s.1.consumer = .finished ∧ s.1.queue = [4224] ∧ HandedOver 1 smallPool.service s :=
  ⟨_, rfl, rfl, rfl, blocks_handed_over 1 smallPool _ (Reachable.replay leftRun (.init rfl) rfl)⟩

end Runs

end PoolMemalloc.Ports.ProducerConsumer
