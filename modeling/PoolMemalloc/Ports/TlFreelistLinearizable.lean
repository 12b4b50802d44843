import PoolMemalloc.Ports.TlFreelistCalls
import PoolMemalloc.Ports.TlFreelistMutex
import PoolMemalloc.Verified.Linearization

/-!
# Interleaved calls behave as whole calls

The machine of `PoolMemalloc.Ports.TlFreelistInterleaving` is compared with the whole
calls of `PoolMemalloc.Ports.TlFreelistCalls`.  An `alloc` takes effect at its test of
`local_size` when it does not refill, else when `pop_bulk` releases the mutex; a
`dealloc` takes effect at its last step.

`Matches` says at each point of the code how the lists of the machine stand to those of
the whole calls, and `Matches.step` that a step of the machine keeps it when the whole
calls answer with the call that takes effect, if one does.
-/

namespace PoolMemalloc.Ports.TlFreelistLinearizable

open PoolMemalloc.Verified.SizeT
open PoolMemalloc.Verified.Transition
open PoolMemalloc.Verified.LinkedChain
open PoolMemalloc.Verified.Conservation
open PoolMemalloc.Verified.Linearization
open PoolMemalloc.Ports.BlockArray
open PoolMemalloc.Ports.FreelistAllocator
open PoolMemalloc.Ports.ThreadCache (refilled flushed)
open PoolMemalloc.Ports.TlFreelistAllocator (Allocator Constructed blocksOf)
open PoolMemalloc.Ports.CacheWorld (allocFrom deallocTo granted addresses onList inCache)
open PoolMemalloc.Ports.TlFreelistInterleaving

/-- The calls of the interface. -/
inductive Call
  | alloc
  | dealloc (ptr : Nat)
  deriving Repr, DecidableEq

/-! ## One thread's lists -/

/-- The thread's cache has the same nodes in both, and `local_size` counts them. -/
def Same (la : List Nat) (h : Hand) : Prop := la = h.chain ∧ h.size = h.chain.length

/-- Of the nodes `all` an `alloc` has taken the first. -/
def Took (la all : List Nat) (stage : Stage Call Nat) : Prop :=
  stage = .done .alloc (all.headD 0) ∧ la = all.tail

/-- A `dealloc` has put its block on the chain and found it too long. -/
def Flushing (batch : Nat) (la : List Nat) (stage : Stage Call Nat) (h : Hand)
    (excess : Nat) : Prop :=
  ∃ block, stage = .called (.dealloc block) ∧ h.chain = block :: la ∧
    h.size = h.chain.length ∧ wrap (batch * 2) < h.chain.length ∧
    excess = wrapSub h.chain.length batch

/-- `g` is the global list of the machine, `ga` that of the whole calls, where the
thread's cache has the nodes `la` and its call is at `stage`. -/
def Matches (batch : Nat) (g ga la : List Nat) (stage : Stage Call Nat) (h : Hand) : Prop :=
  match h.pc with
  | .idle => stage = .idle ∧ Same la h
  | .allocTest => stage = .called .alloc ∧ Same la h
  | .refillLock => stage = .called .alloc ∧ Same la h ∧ h.size ≤ batch / 2
  | .refillPop => stage = .called .alloc ∧ Same la h ∧ h.size ≤ batch / 2 ∧ ga = g
  | .refillMore _ _ count => stage = .called .alloc ∧ Same la h ∧ h.size ≤ batch / 2 ∧
      ga = h.transit ++ g ∧ count = h.transit.length ∧ 0 < count ∧ count ≤ max batch 1
  | .refillLink _ _ count _ => stage = .called .alloc ∧ Same la h ∧ h.size ≤ batch / 2 ∧
      ga = h.transit ++ g ∧ count + 1 = h.transit.length ∧ count < batch
  | .refillNull _ _ => stage = .called .alloc ∧ Same la h ∧ h.size ≤ batch / 2 ∧
      refilled batch ga la = (g, h.transit ++ h.chain)
  | .refillUnlock _ => stage = .called .alloc ∧ Same la h ∧ h.size ≤ batch / 2 ∧
      refilled batch ga la = (g, h.transit ++ h.chain)
  | .refillWalk _ tail count => Took la (h.transit ++ h.chain) stage ∧
      h.size = h.chain.length ∧ count = upTo tail h.transit
  | .refillAdvance _ tail count => Took la (h.transit ++ h.chain) stage ∧
      h.size = h.chain.length ∧ count = upTo tail h.transit
  | .refillSplice _ _ count => Took la (h.transit ++ h.chain) stage ∧
      h.size = h.chain.length ∧ count = h.transit.length
  | .refillSet _ count => Took la (h.transit ++ h.chain) stage ∧
      h.size = h.chain.length ∧ count = h.transit.length ∧ h.transit ≠ []
  | .allocTake => Took la h.chain stage ∧ h.size = h.chain.length
  | .allocated block => stage = .done .alloc block ∧ Same la h
  | .deallocLink block => stage = .called (.dealloc block) ∧ Same la h
  | .deallocSet block => stage = .called (.dealloc block) ∧ Same la h
  | .flushTest excess => Flushing batch la stage h excess
  | .flushWalk excess _ tail count => Flushing batch la stage h excess ∧
      count = upTo tail h.chain ∧ count ≤ excess
  | .flushAdvance excess _ tail count => Flushing batch la stage h excess ∧
      count = upTo tail h.chain ∧ count < excess
  | .flushCut _ tail count => ∃ excess, Flushing batch la stage h excess ∧
      count = upTo tail h.chain ∧ count = min excess h.chain.length
  | .flushNull _ _ count => ∃ block, stage = .called (.dealloc block) ∧
      (∀ ga, flushed batch ga (block :: la) = (h.transit.reverse ++ ga, h.chain)) ∧
      h.size = h.transit.length + h.chain.length ∧ count = h.transit.length
  | .flushShrink _ _ count => ∃ block, stage = .called (.dealloc block) ∧
      (∀ ga, flushed batch ga (block :: la) = (h.transit.reverse ++ ga, h.chain)) ∧
      h.size = h.transit.length + h.chain.length ∧ count = h.transit.length
  | .pushLock _ _ => ∃ block, stage = .called (.dealloc block) ∧
      (∀ ga, flushed batch ga (block :: la) = (h.transit.reverse ++ ga, h.chain)) ∧
      h.size = h.chain.length
  | .pushNull _ _ => ∃ block, stage = .called (.dealloc block) ∧
      flushed batch ga (block :: la) = (h.transit.reverse ++ g, h.chain) ∧
      h.size = h.chain.length ∧ ga.length ≤ g.length
  | .pushRead _ => ∃ block, stage = .called (.dealloc block) ∧
      flushed batch ga (block :: la) = (h.transit.reverse ++ g, h.chain) ∧
      h.size = h.chain.length ∧ ga.length ≤ g.length
  | .pushNode _ _ => ∃ block, stage = .called (.dealloc block) ∧
      flushed batch ga (block :: la) = (h.transit.reverse ++ g, h.chain) ∧
      h.size = h.chain.length ∧ ga.length ≤ g.length
  | .pushUnlock => ∃ block, stage = .called (.dealloc block) ∧
      flushed batch ga (block :: la) = (h.transit.reverse ++ g, h.chain) ∧
      h.size = h.chain.length

/-- What the whole calls do at a step of a running call that gives the blocks `granted`
to the user: first the global list, the thread's cache and its call before, then those
after. -/
inductive Answered (batch : Nat) : List Nat → List Nat → List Nat → Stage Call Nat →
    List Nat → List Nat → Stage Call Nat → Prop
  | silent {ga la : List Nat} {stage : Stage Call Nat} (hbusy : stage ≠ .idle) :
      Answered batch [] ga la stage ga la stage
  | took {ga la ga' all : List Nat} (h : refilled batch ga la = (ga', all)) :
      Answered batch [] ga la (.called .alloc) ga' all.tail (.done .alloc (all.headD 0))
  | freed {ga la ga' la' : List Nat} {block : Nat}
      (h : flushed batch ga (block :: la) = (ga', la')) :
      Answered batch [] ga la (.called (.dealloc block)) ga' la' .idle
  | returned {ga la granted : List Nat} :
      Answered batch granted ga la (.done .alloc (granted.headD 0)) ga la .idle

/-- The parts of the code. -/
inductive Part
  | call
  | popBulk
  | refill
  | flush
  | pushBulk
  deriving Repr, DecidableEq

/-- The part a thread is in. -/
def partOf : Pc → Part
  | .idle => .call
  | .allocTest => .call
  | .refillLock => .popBulk
  | .refillPop => .popBulk
  | .refillMore _ _ _ => .popBulk
  | .refillLink _ _ _ _ => .popBulk
  | .refillNull _ _ => .popBulk
  | .refillUnlock _ => .popBulk
  | .refillWalk _ _ _ => .refill
  | .refillAdvance _ _ _ => .refill
  | .refillSplice _ _ _ => .refill
  | .refillSet _ _ => .refill
  | .allocTake => .call
  | .allocated _ => .call
  | .deallocLink _ => .call
  | .deallocSet _ => .call
  | .flushTest _ => .flush
  | .flushWalk _ _ _ _ => .flush
  | .flushAdvance _ _ _ _ => .flush
  | .flushCut _ _ _ => .flush
  | .flushNull _ _ _ => .flush
  | .flushShrink _ _ _ => .flush
  | .pushLock _ _ => .pushBulk
  | .pushNull _ _ => .pushBulk
  | .pushRead _ => .pushBulk
  | .pushNode _ _ => .pushBulk
  | .pushUnlock => .pushBulk

section Hands

variable {batch : Nat} {g g' ga ga' la la' : List Nat} {stage : Stage Call Nat} {h h' : Hand}

theorem Matches.idle_iff (hm : Matches batch g ga la stage h) :
    stage = .idle ↔ h.pc = .idle := by
  unfold Matches at hm
  cases hpc : h.pc with
  | idle =>
      rw [hpc] at hm
      simp [hm.1]
  | _ =>
      rw [hpc] at hm
      simp only [reduceCtorEq, iff_false]
      rintro rfl
      simp [Took, Flushing] at hm

/-- Outside the mutex the global list does not matter. -/
theorem Matches.outside (hm : Matches batch g ga la stage h)
    (hout : h.pc.locked = false) : Matches batch g' ga' la stage h := by
  unfold Matches at hm ⊢
  cases hpc : h.pc <;> simp [hpc, Pc.locked] at hm hout ⊢ <;> exact hm

/-- `pop_bulk` has taken `front`: a whole batch, or all there was. -/
theorem refilled_eq {front : List Nat} (hlow : la.length ≤ batch / 2)
    (hga : ga = front ++ g)
    (hfront : front.length = max batch 1 ∨ (front.length ≤ max batch 1 ∧ g = [])) :
    refilled batch ga la = (g, front ++ la) := by
  rw [refilled, if_pos hlow, hga]
  rcases hfront with hall | ⟨hle, rfl⟩
  · rw [← hall, List.drop_left, List.take_left]
  · rw [List.append_nil, List.drop_eq_nil_of_le hle, List.take_of_length_le hle]

/-- A cut chain is the one that `flushed` leaves. -/
theorem flushed_eq {block excess : Nat} {front back : List Nat}
    (hlong : wrap (batch * 2) < (block :: la).length)
    (hexcess : excess = wrapSub (block :: la).length batch)
    (hchain : front ++ back = block :: la)
    (hfront : front.length = min excess (block :: la).length) (ga : List Nat) :
    flushed batch ga (block :: la) = (front.reverse ++ ga, back) := by
  rw [flushed, if_pos hlong, ← hexcess, ← hchain]
  rw [← hchain] at hfront
  have htake : (front ++ back).take excess = front := by
    rw [List.take_eq_take_min, ← hfront, List.take_left]
  have hdrop : (front ++ back).drop excess = back := by
    rw [List.drop_eq_drop_min, ← hfront, List.drop_left]
  rw [htake, hdrop]

theorem flushed_of_le {block : Nat} (hshort : ¬ wrap (batch * 2) < (block :: la).length) :
    flushed batch ga (block :: la) = (ga, block :: la) := if_neg hshort

/-- What a step of the machine keeps. -/
structure Stepped (batch : Nat) (g ga la : List Nat) (stage : Stage Call Nat) (h : Hand)
    (g' : List Nat) (h' : Hand) (ga' la' : List Nat) (stage' : Stage Call Nat) : Prop where
  answered : Answered batch h.pc.grants ga la stage ga' la' stage'
  matched : Matches batch g' ga' la' stage' h'
  /-- Outside the mutex nothing happens to the global lists. -/
  outside : h.pc.locked = false → h'.pc.locked = false → ga' = ga ∧ g' = g
  /-- They agree when the mutex is released. -/
  released : h.pc.locked = true → h'.pc.locked = false → ga' = g'

/-- A step outside the mutex that the whole calls do not see. -/
theorem Stepped.apart (hm : Matches batch g ga la stage h')
    (hpc : h.pc.locked = false ∧ h.pc.grants = [] ∧ h'.pc ≠ .idle) :
    Stepped batch g ga la stage h g h' ga la stage where
  answered := hpc.2.1 ▸ .silent fun hstage => hpc.2.2 (hm.idle_iff.mp hstage)
  matched := hm
  outside _ _ := ⟨rfl, rfl⟩
  released hinside _ := by simp [hpc.1] at hinside

/-- One into the mutex or within. -/
theorem Stepped.within (hm : Matches batch g' ga la stage h')
    (hpc : h'.pc.locked = true ∧ h.pc.grants = []) :
    Stepped batch g ga la stage h g' h' ga la stage where
  answered := hpc.2 ▸ .silent fun hstage => by
    rw [hm.idle_iff.mp hstage] at hpc
    cases hpc.1
  matched := hm
  outside _ hout := by simp [hpc.1] at hout
  released _ hout := by simp [hpc.1] at hout

/-- One outside it that ends or carries out the call. -/
theorem Stepped.stays {ga' la' : List Nat} {stage' : Stage Call Nat}
    (hans : Answered batch h.pc.grants ga la stage ga' la' stage')
    (hm : Matches batch g ga' la' stage' h') (hpc : h.pc.locked = false) (hga : ga' = ga) :
    Stepped batch g ga la stage h g h' ga' la' stage' where
  answered := hans
  matched := hm
  outside _ _ := ⟨hga, rfl⟩
  released hinside _ := by simp [hpc] at hinside

/-- One that carries out the call and releases the mutex. -/
theorem Stepped.leaves {ga' la' : List Nat} {stage' : Stage Call Nat}
    (hans : Answered batch h.pc.grants ga la stage ga' la' stage')
    (hm : Matches batch g' ga' la' stage' h') (hpc : h.pc.locked = true) (hga : ga' = g') :
    Stepped batch g ga la stage h g' h' ga' la' stage' where
  answered := hans
  matched := hm
  outside hout _ := by simp [hpc] at hout
  released _ _ := hga

/-- A step inside `pop_bulk`. -/
theorem Matches.step_pop (hm : Matches batch g ga la stage h)
    (hmoves : Moves batch g h g' h') (hpart : partOf h.pc = .popBulk)
    (hlen : h.chain.length + h.transit.length < 2 ^ 64)
    (hfree : h.pc.waits = true → ga = g) :
    ∃ ga' la' stage', Stepped batch g ga la stage h g' h' ga' la' stage' := by
  cases hmoves with
  | refillLock =>
      obtain ⟨hstage, hsame, hlow⟩ := hm
      exact ⟨_, _, _, .within ⟨hstage, hsame, hlow, hfree rfl⟩ ⟨rfl, rfl⟩⟩
  | popNone =>
      obtain ⟨hstage, ⟨rfl, hsize⟩, hlow, rfl⟩ := hm
      refine ⟨_, _, _, .within ⟨hstage, ⟨rfl, hsize⟩, hlow, ?_⟩ ⟨rfl, rfl⟩⟩
      exact refilled_eq (hsize ▸ hlow) rfl (.inr ⟨Nat.zero_le _, rfl⟩)
  | popFirst =>
      obtain ⟨hstage, hsame, hlow, rfl⟩ := hm
      exact ⟨_, _, _, .within ⟨hstage, hsame, hlow, rfl, rfl, Nat.one_pos,
        Nat.le_max_right _ _⟩ ⟨rfl, rfl⟩⟩
  | popEnough henough =>
      simp only [Matches, Same] at hm
      obtain ⟨hstage, ⟨rfl, hsize⟩, hlow, rfl, rfl, hpos, hle⟩ := hm
      refine ⟨_, _, _, .within ⟨hstage, ⟨rfl, hsize⟩, hlow, ?_⟩ ⟨rfl, rfl⟩⟩
      have hall : _ = max batch 1 := Nat.le_antisymm hle (by omega)
      exact refilled_eq (hsize ▸ hlow) rfl (.inl hall)
  | popLast hmore =>
      simp only [Matches, Same] at hm
      obtain ⟨hstage, ⟨rfl, hsize⟩, hlow, rfl, rfl, hpos, hle⟩ := hm
      refine ⟨_, _, _, .within ⟨hstage, ⟨rfl, hsize⟩, hlow, ?_⟩ ⟨rfl, rfl⟩⟩
      exact refilled_eq (hsize ▸ hlow) rfl (.inr ⟨hle, rfl⟩)
  | popMore hmore =>
      simp only [Matches, Same] at hm
      obtain ⟨hstage, hsame, hlow, rfl, rfl, -, -⟩ := hm
      refine ⟨_, _, _, .within ⟨hstage, hsame, hlow, ?_, ?_, hmore⟩ ⟨rfl, rfl⟩⟩
      · exact List.append_cons ..
      · simp
  | refillLink =>
      obtain ⟨hstage, hsame, hlow, hga, hcount, hmore⟩ := hm
      simp only at hcount hlen
      refine ⟨_, _, _, .within ⟨hstage, hsame, hlow, hga, ?_⟩ ⟨rfl, rfl⟩⟩
      rw [wrap_of_lt (by omega)]
      exact ⟨hcount, Nat.succ_pos _, by omega⟩
  | refillNull =>
      exact ⟨_, _, _, .within hm ⟨rfl, rfl⟩⟩
  | unlockNone =>
      obtain ⟨rfl, ⟨-, hsize⟩, -, hrefilled⟩ := hm
      exact ⟨_, _, _, .leaves (.took hrefilled) ⟨⟨rfl, rfl⟩, hsize⟩ rfl rfl⟩
  | unlockSome =>
      obtain ⟨rfl, ⟨-, hsize⟩, -, hrefilled⟩ := hm
      exact ⟨_, _, _, .leaves (.took hrefilled) ⟨⟨rfl, rfl⟩, hsize, by simp [upTo]⟩ rfl rfl⟩
  | _ => cases hpart

/-- A step that splices the batch into the chain. -/
theorem Matches.step_refill (hm : Matches batch g ga la stage h)
    (hmoves : Moves batch g h g' h') (hpart : partOf h.pc = .refill)
    (htransit : h.transit.Nodup)
    (hlen : h.chain.length + h.transit.length < 2 ^ 64) :
    ∃ ga' la' stage', Stepped batch g ga la stage h g' h' ga' la' stage' := by
  cases hmoves with
  | walkMore =>
      exact ⟨_, _, _, .apart hm ⟨rfl, rfl, by simp⟩⟩
  | walkEnd =>
      simp only [Matches] at hm
      obtain ⟨htook, hsize, rfl⟩ := hm
      refine ⟨_, _, _, .apart ⟨htook, hsize, ?_⟩ ⟨rfl, rfl, by simp⟩⟩
      simp only
      rw [upTo_eq htransit, List.length_append, List.length_singleton]
  | refillAdvance =>
      simp only [Matches] at hm hlen
      obtain ⟨htook, hsize, rfl⟩ := hm
      simp only [List.length_append, List.length_cons] at hlen
      refine ⟨_, _, _, .apart ⟨htook, hsize, ?_⟩ ⟨rfl, rfl, by simp⟩⟩
      simp only
      rw [upTo_eq htransit, upTo_succ htransit, wrap_of_lt (by omega)]
  | refillSplice =>
      obtain ⟨htook, hsize, hcount⟩ := hm
      exact ⟨_, _, _, .apart ⟨htook, hsize, hcount, List.append_ne_nil_of_right_ne_nil _
        (List.cons_ne_nil _ _)⟩ ⟨rfl, rfl, by simp⟩⟩
  | refillSet =>
      simp only [Matches] at hm hlen
      obtain ⟨htook, rfl, rfl, -⟩ := hm
      refine ⟨_, _, _, .apart ⟨htook, ?_⟩ ⟨rfl, rfl, by simp⟩⟩
      simp only [List.length_append]
      rw [wrap_of_lt hlen, Nat.add_comm]
  | _ => cases hpart

/-- A step of `alloc` or `dealloc` itself. -/
theorem Matches.step_call (hm : Matches batch g ga la stage h)
    (hmoves : Moves batch g h g' h') (hpart : partOf h.pc = .call)
    (hlen : h.chain.length + h.transit.length < 2 ^ 64) :
    ∃ ga' la' stage', Stepped batch g ga la stage h g' h' ga' la' stage' := by
  cases hmoves with
  | allocLow hlow =>
      obtain ⟨hstage, hsame⟩ := hm
      exact ⟨_, _, _, .apart ⟨hstage, hsame, hlow⟩ ⟨rfl, rfl, by simp⟩⟩
  | allocHigh hlow =>
      obtain ⟨rfl, rfl, hsize⟩ := hm
      have hkeep : refilled batch ga la = (ga, la) := if_neg (hsize ▸ hlow)
      exact ⟨_, _, _, .stays (.took hkeep) ⟨⟨rfl, rfl⟩, hsize⟩ rfl rfl⟩
  | takeNone =>
      obtain ⟨⟨rfl, rfl⟩, hsize⟩ := hm
      exact ⟨_, _, _, .stays .returned ⟨rfl, rfl, hsize⟩ rfl rfl⟩
  | takeFirst =>
      simp only [Matches] at hm hlen
      obtain ⟨⟨rfl, rfl⟩, rfl⟩ := hm
      simp only [List.length_cons, List.length_nil] at hlen
      refine ⟨_, _, _, .apart ⟨rfl, rfl, ?_⟩ ⟨rfl, rfl, by simp⟩⟩
      simp only [List.length_cons]
      rw [wrapSub_of_le (by omega) (by omega), Nat.add_sub_cancel]
  | allocated =>
      obtain ⟨rfl, hsame⟩ := hm
      exact ⟨_, _, _, .stays .returned ⟨rfl, hsame⟩ rfl rfl⟩
  | deallocLink =>
      exact ⟨_, _, _, .apart hm ⟨rfl, rfl, by simp⟩⟩
  | deallocHigh hhigh =>
      simp only [Matches, Same] at hm hlen
      obtain ⟨hstage, rfl, rfl⟩ := hm
      simp only [List.length_cons, List.length_nil] at hlen
      rw [wrap_of_lt hlen] at hhigh
      refine ⟨_, _, _, .apart ⟨_, hstage, rfl, wrap_of_lt hlen, hhigh, ?_⟩ ⟨rfl, rfl, by simp⟩⟩
      simp only [List.length_cons]
      rw [wrap_of_lt hlen]
  | deallocDone hhigh =>
      simp only [Matches, Same] at hm hlen
      obtain ⟨rfl, rfl, rfl⟩ := hm
      simp only [List.length_cons, List.length_nil] at hlen
      rw [wrap_of_lt hlen] at hhigh
      exact ⟨_, _, _, .stays (.freed (flushed_of_le hhigh)) ⟨rfl, rfl, wrap_of_lt hlen⟩ rfl rfl⟩
  | _ => cases hpart

/-- A step that cuts a batch off the chain. -/
theorem Matches.step_flush (hm : Matches batch g ga la stage h)
    (hmoves : Moves batch g h g' h') (hpart : partOf h.pc = .flush)
    (hchain : h.chain.Nodup)
    (hlen : h.chain.length + h.transit.length < 2 ^ 64) :
    ∃ ga' la' stage', Stepped batch g ga la stage h g' h' ga' la' stage' := by
  cases hmoves with
  | flushNone hnone =>
      simp only [Matches, Flushing] at hm
      obtain ⟨block, rfl, rfl, hsize, hlong, rfl⟩ := hm
      have hzero := hnone.resolve_left (List.cons_ne_nil _ _)
      have hkeep := flushed_eq hlong rfl (List.nil_append _)
        (by rw [hzero, Nat.zero_min, List.length_nil]) ga
      exact ⟨_, _, _, .stays (.freed hkeep) ⟨rfl, rfl, hsize⟩ rfl rfl⟩
  | flushSome hexcess =>
      exact ⟨_, _, _, .apart ⟨hm, by simp [upTo], Nat.pos_of_ne_zero hexcess⟩ ⟨rfl, rfl, by simp⟩⟩
  | flushMore hmore =>
      obtain ⟨hflushing, hcount, -⟩ := hm
      exact ⟨_, _, _, .apart ⟨hflushing, hcount, hmore⟩ ⟨rfl, rfl, by simp⟩⟩
  | flushEnd hend =>
      obtain ⟨hflushing, hcount, hle⟩ := hm
      refine ⟨_, _, _, .apart ⟨_, hflushing, hcount, ?_⟩ ⟨rfl, rfl, by simp⟩⟩
      simp only at hcount ⊢
      rw [upTo_eq hchain] at hcount
      rw [List.length_append, List.length_cons]
      rcases Nat.lt_or_eq_of_le hle with hlt | heq
      · rw [hend hlt, List.length_nil]
        omega
      · omega
  | flushAdvance =>
      simp only [Matches] at hm hlen
      obtain ⟨hflushing, rfl, hlt⟩ := hm
      simp only [List.length_append, List.length_cons] at hlen
      refine ⟨_, _, _, .apart ⟨hflushing, ?_⟩ ⟨rfl, rfl, by simp⟩⟩
      simp only
      rw [upTo_eq hchain] at hlt ⊢
      rw [upTo_succ hchain, wrap_of_lt (by omega)]
      exact ⟨rfl, hlt⟩
  | flushCut =>
      obtain ⟨excess, ⟨block, hstage, hcons, hsize, hlong, hexcess⟩, hcount, hmin⟩ := hm
      simp only at hcons hsize hlong hexcess hcount hmin
      rw [upTo_eq hchain] at hcount
      rw [hcount] at hmin
      refine ⟨_, _, _, .apart ⟨block, hstage, ?_, ?_, ?_⟩ ⟨rfl, rfl, by simp⟩⟩
      · rw [hcons] at hlong hexcess hmin
        refine flushed_eq hlong hexcess ?_ ?_
        · rw [← hcons, List.append_assoc, List.singleton_append]
        · rw [← hmin, List.length_append, List.length_singleton]
      · rw [hsize]
        simp only [List.length_append, List.length_cons, List.length_nil]
        omega
      · rw [hcount, List.length_append, List.length_singleton]
  | flushNull =>
      exact ⟨_, _, _, .apart hm ⟨rfl, rfl, by simp⟩⟩
  | flushShrink =>
      simp only [Matches] at hm hlen
      obtain ⟨block, hstage, hflushed, rfl, rfl⟩ := hm
      refine ⟨_, _, _, .apart ⟨block, hstage, hflushed, ?_⟩ ⟨rfl, rfl, by simp⟩⟩
      simp only
      rw [wrapSub_of_le (by omega) (Nat.le_add_right _ _), Nat.add_sub_cancel_left]
  | _ => cases hpart

/-- A step inside `push_bulk`. -/
theorem Matches.step_push (hm : Matches batch g ga la stage h)
    (hmoves : Moves batch g h g' h') (hpart : partOf h.pc = .pushBulk)
    (hfree : h.pc.waits = true → ga = g) :
    ∃ ga' la' stage', Stepped batch g ga la stage h g' h' ga' la' stage' := by
  cases hmoves with
  | pushLock =>
      obtain ⟨block, hstage, hflushed, hsize⟩ := hm
      obtain rfl := hfree rfl
      exact ⟨_, _, _, .within ⟨block, hstage, hflushed ga, hsize, Nat.le_refl _⟩ ⟨rfl, rfl⟩⟩
  | pushNull =>
      exact ⟨_, _, _, .within hm ⟨rfl, rfl⟩⟩
  | pushEnd =>
      obtain ⟨block, hstage, hflushed, hsize, -⟩ := hm
      exact ⟨_, _, _, .within ⟨block, hstage, hflushed, hsize⟩ ⟨rfl, rfl⟩⟩
  | pushRead =>
      exact ⟨_, _, _, .within hm ⟨rfl, rfl⟩⟩
  | pushNode =>
      obtain ⟨block, hstage, hflushed, hsize, hle⟩ := hm
      refine ⟨_, _, _, .within ⟨block, hstage, ?_, hsize, Nat.le_succ_of_le hle⟩ ⟨rfl, rfl⟩⟩
      rw [hflushed, List.reverse_cons, List.append_assoc, List.singleton_append]
  | pushUnlock =>
      obtain ⟨block, rfl, hflushed, hsize⟩ := hm
      exact ⟨_, _, _, .leaves (.freed hflushed) ⟨rfl, rfl, hsize⟩ rfl rfl⟩
  | _ => cases hpart

/-- The whole calls can answer every step. -/
theorem Matches.step (hm : Matches batch g ga la stage h) (hmoves : Moves batch g h g' h')
    (hchain : h.chain.Nodup) (htransit : h.transit.Nodup)
    (hlen : h.chain.length + h.transit.length < 2 ^ 64)
    (hfree : h.pc.waits = true → ga = g) :
    ∃ ga' la' stage', Stepped batch g ga la stage h g' h' ga' la' stage' := by
  cases hpart : partOf h.pc with
  | call => exact hm.step_call hmoves hpart hlen
  | popBulk => exact hm.step_pop hmoves hpart hlen hfree
  | refill => exact hm.step_refill hmoves hpart htransit hlen
  | flush => exact hm.step_flush hmoves hpart hchain hlen
  | pushBulk => exact hm.step_push hmoves hpart hfree

end Hands

/-! ## The whole calls as an object -/

/-- The call as an event of the whole calls. -/
def Call.event (t : Nat) : Call → TlFreelistCalls.Event Nat
  | .alloc => .alloc t
  | .dealloc ptr => .dealloc t ptr

/-- What the call returns; 0 stands for null, and for nothing. -/
def Call.result (batch : Nat) (c : TlFreelistCalls.State Nat) (t : Nat) : Call → Option Nat
  | .alloc => (allocFrom c.world t () batch).map Prod.fst
  | .dealloc _ => some 0

def object (a : Allocator) (next : Heap) : Object (TlFreelistCalls.State Nat) Nat Call Nat where
  init c := c = TlFreelistCalls.start a next
  step c t o r c' := TlFreelistCalls.exec a.batchSize c (o.event t) = some c' ∧
    o.result a.batchSize c t = some r

/-- Shared or not, the object only makes runs of whole calls. -/
theorem calls_of_atomic {a : Allocator} {next : Heap}
    {c : Shared (TlFreelistCalls.State Nat) Nat Call Nat}
    (h : Reachable (atomic (object a next)) c) :
    Reachable (TlFreelistCalls.calls a next) c.object := by
  have hstep : ∀ c t o r c', (object a next).step c t o r c' →
      (TlFreelistCalls.calls a next).step c (Call.event t o) c' := by
    intro c t o r c' hcall
    exact hcall.1
  exact object_of_reachable (fun _ hinit => hinit) hstep h

/-- The blocks of a thread's call that the whole calls have with the users, and the
machine has not. -/
def held : Stage Call Nat → List Nat
  | .called (.dealloc ptr) => [ptr]
  | .done .alloc r => if r = 0 then [] else [r]
  | _ => []

@[simp] theorem held_idle : held .idle = [] := rfl

@[simp] theorem held_alloc : held (.called .alloc) = [] := rfl

@[simp] theorem held_dealloc (ptr : Nat) : held (.called (.dealloc ptr)) = [ptr] := rfl

@[simp] theorem held_done (r : Nat) :
    held (.done .alloc r) = if r = 0 then [] else [r] := rfl

/-- Where the blocks are that the whole calls have with the users. -/
def spread (live : List Nat) (stage : Nat → Stage Call Nat) : Option Nat → List Nat
  | none => live
  | some t => held (stage t)

section Answers

variable {a : Allocator} {ga : Unit → List Nat} {la : Nat → List Nat}
variable {c : Shared (TlFreelistCalls.State Nat) Nat Call Nat} {live : List Nat} {t : Nat}

/-- The whole calls between two steps of the machine, whose users hold `live`. -/
structure Answering (a : Allocator) (ga : Unit → List Nat) (la : Nat → List Nat)
    (live : List Nat) (c : Shared (TlFreelistCalls.State Nat) Nat Call Nat) : Prop where
  whole : TlFreelistCalls.Inv a c.object ga la
  running : ∀ t, c.object.world.exited t = none
  hands : Ledger (fun b => b ∈ c.object.live) (spread live c.stage)

section Spread

variable {stage : Stage Call Nat} {stages : Nat → Stage Call Nat}

theorem spread_self : spread live (Function.update stages t stage) (some t) = held stage := by
  rw [spread, Function.update_self]

/-- A call of thread `t` changes no other hand. -/
theorem spread_other {k : Option Nat} (live' : List Nat) (hnone : k ≠ none)
    (hk : k ≠ some t) :
    spread live' (Function.update stages t stage) k = spread live stages k := by
  cases k with
  | none => exact (hnone rfl).elim
  | some u =>
      have hu : u ≠ t := fun heq => hk (congrArg some heq)
      simp only [spread, Function.update_of_ne hu]

theorem spread_update {k : Option Nat} (hk : k ≠ some t) :
    spread live (Function.update stages t stage) k = spread live stages k := by
  cases k with
  | none => rfl
  | some u => exact spread_other live (by simp) hk

/-- Nor its own, if it holds the same there. -/
theorem spread_same (hheld : held stage = held (stages t)) :
    spread live (Function.update stages t stage) = spread live stages := by
  funext k
  by_cases hk : k = some t
  · rw [hk, spread_self, hheld, spread]
  · exact spread_update hk

end Spread

/-- An `alloc` takes effect. -/
theorem Answering.took (h : Answering a ga la live c) (next : Heap)
    (hstage : c.stage t = .called .alloc) {ga' all : List Nat}
    (hrefilled : refilled a.batchSize (ga ()) (la t) = (ga', all)) :
    ∃ c', Runs (object a next) c [.effect t .alloc (all.headD 0)] c' ∧
      c'.stage = Function.update c.stage t (.done .alloc (all.headD 0)) ∧
      Answering a (Function.update ga () ga') (Function.update la t all.tail) live c' := by
  obtain ⟨w, hrun, hwhole, hcalled⟩ := h.whole.alloc (h.running t)
  simp only [hrefilled] at hrun hwhole
  refine ⟨_, .cons (.nil c) (.effect hstage ⟨?_, ?_⟩), rfl, hwhole, fun u => ?_, ?_⟩
  · simp only [Call.event, TlFreelistCalls.exec, if_pos (h.running t), hrun, Option.map_some]
  · simp only [Call.result, hrun, Option.map_some]
  · simp only [hcalled.exited]
    exact h.running u
  · have hnodup := hwhole.owned.ledger.nodup .user
    simp only [CacheWorld.cell] at hnodup
    by_cases hnull : all.headD 0 = 0
    · simp only [granted, if_pos hnull]
      rw [spread_same (by rw [hstage, held_done, if_pos hnull, held_alloc])]
      exact h.hands
    · simp only [granted, if_neg hnull] at hnodup ⊢
      refine h.hands.insert (k := some t) (List.nodup_cons.mp hnodup).1
        (fun _ => List.mem_cons) ?_ fun k hk => spread_update hk
      rw [spread_self, spread, hstage, held_done, if_neg hnull, held_alloc]

/-- A `dealloc` takes effect and returns. -/
theorem Answering.freed (h : Answering a ga la live c) (next : Heap) {block : Nat}
    (hstage : c.stage t = .called (.dealloc block)) {ga' la' : List Nat}
    (hflushed : flushed a.batchSize (ga ()) (block :: la t) = (ga', la')) :
    ∃ c', Runs (object a next) c [.ret t 0, .effect t (.dealloc block) 0] c' ∧
      c'.stage = Function.update c.stage t .idle ∧
      Answering a (Function.update ga () ga') (Function.update la t la') live c' := by
  have hlive : block ∈ c.object.live := (h.hands.mem block).mpr ⟨some t, by
    rw [spread, hstage]
    exact List.mem_singleton_self block⟩
  obtain ⟨w, hrun, hwhole⟩ := h.whole.dealloc (h.running t) hlive
  simp only [hflushed] at hwhole
  refine ⟨_, .cons (.cons (.nil c) (.effect hstage ⟨?_, rfl⟩))
    (.ret (Function.update_self ..)), Function.update_idem .., hwhole, fun u => ?_, ?_⟩
  · simp only [Call.event, TlFreelistCalls.exec, if_pos (And.intro (h.running t) (Or.inr hlive)),
      hrun, Option.map_some]
  · simp only [(CacheWorld.deallocTo_binds hrun).exited]
    exact h.running u
  · rw [Function.update_idem]
    refine h.hands.remove (k := some t)
      (fun _ => (h.whole.owned.ledger.nodup .user).mem_erase_iff) ?_
      fun k hk => spread_update hk
    rw [spread_self, spread, hstage, held_dealloc, held_idle]

/-- A `dealloc` of null is over at once. -/
theorem Answering.freed_null (h : Answering a ga la live c) (next : Heap)
    (hstage : c.stage t = .idle) :
    ∃ c', Runs (object a next) c
        [.ret t 0, .effect t (.dealloc 0) 0, .call t (.dealloc 0)] c' ∧
      c'.stage = c.stage ∧ Answering a ga la live c' := by
  obtain ⟨w, hrun, hwhole⟩ := h.whole.dealloc_null (h.running t)
  have hback : Function.update (Function.update (Function.update c.stage t
      (.called (.dealloc 0))) t (.done (.dealloc 0) 0)) t .idle = c.stage := by
    rw [Function.update_idem, Function.update_idem, ← hstage, Function.update_eq_self]
  refine ⟨_, .cons (.cons (.cons (.nil c) (.call hstage))
    (.effect (Function.update_self ..) ⟨?_, rfl⟩)) (.ret (Function.update_self ..)), hback,
    hwhole, fun u => ?_, ?_⟩
  · simp [Call.event, TlFreelistCalls.exec, h.running t, hrun,
      List.erase_of_not_mem h.whole.notMem_zero]
  · simp only [(CacheWorld.deallocTo_binds hrun).exited]
    exact h.running u
  · rw [hback]
    exact h.hands

/-- An `alloc` returns. -/
theorem Answering.returned (h : Answering a ga la live c) (next : Heap) {blocks : List Nat}
    (hstage : c.stage t = .done .alloc (blocks.headD 0))
    (hblocks : blocks = [] ∨ ∃ block, block ≠ 0 ∧ blocks = [block]) :
    ∃ c', Runs (object a next) c [.ret t (blocks.headD 0)] c' ∧
      c'.stage = Function.update c.stage t .idle ∧
      Answering a ga la (blocks ++ live) c' := by
  refine ⟨_, .cons (.nil c) (.ret hstage), rfl, h.whole, h.running, ?_⟩
  rcases hblocks with rfl | ⟨block, hne, rfl⟩
  · rw [List.nil_append, spread_same (by simp [hstage])]
    exact h.hands
  · refine h.hands.move (k := none) (l := some t) (by simp) ?_ fun k hnone hk =>
      spread_other _ hnone hk
    rw [spread_self]
    simp only [spread, hstage, held_idle, held_done, List.headD_cons, if_neg hne,
      List.append_nil]
    exact (List.perm_append_singleton block live).symm

/-- A call is made: the user gives away the block of a `dealloc`. -/
theorem Answering.called (h : Answering a ga la live c) (next : Heap)
    (hstage : c.stage t = .idle) (o : Call) {live' : List Nat}
    (hlive : (live' ++ held (.called o)).Perm live) :
    ∃ c', Runs (object a next) c [.call t o] c' ∧
      c'.stage = Function.update c.stage t (.called o) ∧ Answering a ga la live' c' := by
  refine ⟨_, .cons (.nil c) (.call hstage), rfl, h.whole, h.running, ?_⟩
  refine h.hands.move (k := none) (l := some t) (by simp) ?_ fun k hnone hk =>
    spread_other _ hnone hk
  rw [spread_self]
  simp only [spread, hstage, held_idle, List.append_nil]
  exact hlive

end Answers

/-! ## The simulation -/

/-- What the users see of a step: the calls they make and the results they get. -/
def note (s : State) : Event → State → List (Mark Nat Call Nat)
  | .callAlloc t, _ => [.call t .alloc]
  | .callDealloc t ptr, _ =>
      if ptr = 0 then [.ret t 0, .call t (.dealloc ptr)] else [.call t (.dealloc ptr)]
  | .step t, s' =>
      if (s'.threads t).pc = .idle then [.ret t ((s.threads t).pc.grants.headD 0)] else []
  | .scribble _ _, _ => []

/-- It depends on the threads only. -/
theorem note_congr {s s' c c' : State} (hbefore : s.threads = c.threads)
    (hafter : s'.threads = c'.threads) (e : Event) : note s e s' = note c e c' := by
  cases e with
  | step t => rw [note, note, hbefore, hafter]
  | _ => rfl

/-- The runs of the machine with their histories. -/
def histories (a : Allocator) (next : Heap) :
    System (State × List (Mark Nat Call Nat)) Event :=
  recorded (fun s => s = start a next) (exec a.batchSize) []
    fun s e s' past => note s e s' ++ past

/-- The machine with the lists `g`, `l`, `x`, and the whole calls with `ga` and `la`. -/
structure Related (a : Allocator) (g : List Nat) (l x : Nat → List Nat)
    (ga : Unit → List Nat) (la : Nat → List Nat) (s : State)
    (c : Shared (TlFreelistCalls.State Nat) Nat Call Nat) : Prop where
  inv : Inv (IsBlock a) g l x s
  exclusive : Exclusive s
  matched : ∀ t, Matches a.batchSize g (ga ()) (la t) (c.stage t) (s.hand t (l t) (x t))
  free : s.bulkLock = none → ga () = g
  answering : Answering a ga la s.live c

section Simulation

variable {blockSz numBlocks batch : Nat} {a : Allocator} {next : Heap} {g : List Nat}
variable {l x la : Nat → List Nat} {ga : Unit → List Nat} {s s' : State} {t : Nat}
variable {c : Shared (TlFreelistCalls.State Nat) Nat Call Nat}

theorem Related.stage_idle (h : Related a g l x ga la s c)
    (hidle : (s.threads t).pc = .idle) : c.stage t = .idle :=
  (h.matched t).idle_iff.mpr hidle

/-- The global list and one thread's nodes are fewer than the addresses. -/
theorem Related.length_lt (ha : Constructed blockSz numBlocks batch a next)
    (h : Related a g l x ga la s c) (t : Nat) :
    g.length + (l t).length + (x t).length < 2 ^ 64 := by
  have hle := h.inv.length_held_le (fun b hb => hb) t
  rw [TlFreelistAllocator.length_blocksOf] at hle
  have hfits := ha.placed.fits
  have hmul := Nat.le_mul_of_pos_right a.blockCount ha.placed.blockPos
  omega

/-- The whole calls answer a step of the machine. -/
theorem Related.answer (h : Related a g l x ga la s c) (next : Heap) {blocks ga' la' : List Nat}
    {stage' : Stage Call Nat}
    (hans : Answered a.batchSize blocks (ga ()) (la t) (c.stage t) ga' la' stage')
    (hblocks : blocks = [] ∨ ∃ block, block ≠ 0 ∧ blocks = [block]) :
    ∃ marks c', Runs (object a next) c marks c' ∧
      history marks = (if stage' = .idle then [.ret t (blocks.headD 0)] else []) ∧
      c'.stage = Function.update c.stage t stage' ∧
      Answering a (fun _ => ga') (Function.update la t la') (blocks ++ s.live) c' := by
  have hga : ∀ gs, Function.update ga () gs = fun _ => gs := fun gs =>
    funext fun _ => Function.update_self ..
  generalize hstage : c.stage t = stage at hans
  cases hans with
  | silent hbusy =>
      refine ⟨[], c, .nil c, ?_, ?_, ?_⟩
      · rw [if_neg hbusy, history]
      · rw [← hstage, Function.update_eq_self]
      · rw [Function.update_eq_self]
        exact h.answering
  | took hrefilled =>
      obtain ⟨c', hrun, hstage', hanswering⟩ :=
        h.answering.took next hstage hrefilled
      exact ⟨_, c', hrun, rfl, hstage', hga _ ▸ hanswering⟩
  | freed hflushed =>
      obtain ⟨c', hrun, hstage', hanswering⟩ :=
        h.answering.freed next hstage hflushed
      exact ⟨_, c', hrun, rfl, hstage', hga _ ▸ hanswering⟩
  | returned =>
      obtain ⟨c', hrun, hstage', hanswering⟩ :=
        h.answering.returned next hstage hblocks
      refine ⟨_, c', hrun, rfl, hstage', ?_⟩
      rw [Function.update_eq_self]
      exact hanswering

/-- The block a step gives to the user. -/
theorem Related.grants (h : Related a g l x ga la s c) (t : Nat) :
    (s.threads t).pc.grants = [] ∨ ∃ block, block ≠ 0 ∧ (s.threads t).pc.grants = [block] := by
  cases hpc : (s.threads t).pc with
  | allocated block =>
      obtain ⟨-, htransit⟩ := h.inv.holds_at hpc
      refine .inr ⟨block, h.inv.ne_null (k := .transit t) ?_, rfl⟩
      rw [cell, htransit]
      exact List.mem_singleton_self block
  | _ => exact .inl rfl

/-- The other threads' calls do not notice a step of thread `t`. -/
theorem Related.others (h : Related a g l x ga la s c) (hfoot : Footprint s t s')
    {g' ga' : List Nat} (houtside : (s.threads t).pc.locked = false →
      (s'.threads t).pc.locked = false → ga' = ga () ∧ g' = g) {u : Nat} (hu : u ≠ t) :
    Matches a.batchSize g' ga' (la u) (c.stage u) (s'.hand u (l u) (x u)) := by
  have hhand : s'.hand u (l u) (x u) = s.hand u (l u) (x u) := by
    rw [State.hand, State.hand, hfoot.others u hu]
  rw [hhand]
  cases hinside : (s.threads u).pc.locked with
  | false => exact (h.matched u).outside hinside
  | true =>
      have hbefore : (s.threads t).pc.locked = false := Bool.eq_false_iff.mpr fun ht =>
        hu (h.exclusive.unique hinside ht)
      have hafter : (s'.threads t).pc.locked = false := Bool.eq_false_iff.mpr fun ht =>
        hu ((hfoot.exclusive h.exclusive).unique (by rwa [hfoot.others u hu]) ht)
      obtain ⟨rfl, rfl⟩ := houtside hbefore hafter
      exact h.matched u

/-- The global lists agree whenever the mutex is free. -/
theorem Related.free_step (h : Related a g l x ga la s c) (hfoot : Footprint s t s')
    {g' ga' : List Nat} (houtside : (s.threads t).pc.locked = false →
      (s'.threads t).pc.locked = false → ga' = ga () ∧ g' = g)
    (hreleased : (s.threads t).pc.locked = true → (s'.threads t).pc.locked = false →
      ga' = g') (hnone : s'.bulkLock = none) : ga' = g' := by
  rcases hfoot.lock with ⟨hsame, hlock⟩ | ⟨-, -, -, hlock⟩ | ⟨hbefore, hafter, -⟩
  · rw [hlock] at hnone
    have hbefore : (s.threads t).pc.locked = false := Bool.eq_false_iff.mpr fun ht => by
      have hmine := (h.exclusive t).mp ht
      rw [hnone] at hmine
      cases hmine
    obtain ⟨rfl, rfl⟩ := houtside hbefore (hsame ▸ hbefore)
    exact h.free hnone
  · rw [hnone] at hlock
    cases hlock
  · exact hreleased hbefore hafter

theorem Related.step (ha : Constructed blockSz numBlocks batch a next)
    (h : Related a g l x ga la s c) (hexec : exec a.batchSize s (.step t) = some s') :
    ∃ marks c', Runs (object a next) c marks c' ∧ history marks = note s (.step t) s' ∧
      ∃ g' l' x' ga' la', Related a g' l' x' ga' la' s' c' := by
  have hfoot := footprint hexec
  obtain ⟨g', l', x', hmoves, hothers, hinv⟩ := h.inv.moves hexec
  obtain ⟨ga', la', stage', hanswered, hmatched, houtside, hreleased⟩ :=
    (h.matched t).step hmoves (h.inv.ledger.nodup (.cache t)) (h.inv.ledger.nodup (.transit t))
      (by
        have hlen := h.length_lt ha t
        simp only [State.hand]
        omega) fun hwaits => h.free (hfoot.waited hwaits)
  obtain ⟨marks, c', hruns, hhistory, hstage, hanswering⟩ :=
    h.answer next hanswered (h.grants t)
  refine ⟨marks, c', hruns, ?_, g', l', x', fun _ => ga', Function.update la t la', ?_⟩
  · rw [hhistory, note]
    exact if_congr hmatched.idle_iff rfl rfl
  · exact
      { inv := hinv
        exclusive := hfoot.exclusive h.exclusive
        matched := fun u => by
          by_cases hu : u = t
          · subst hu
            rw [hstage, Function.update_self, Function.update_self]
            exact hmatched
          · rw [hstage, Function.update_of_ne hu, Function.update_of_ne hu,
              (hothers u hu).1, (hothers u hu).2]
            exact h.others hfoot houtside hu
        free := h.free_step hfoot houtside hreleased
        answering := hfoot.live ▸ hanswering }

/-- Thread `t` makes the call `o` and goes to `pc` with the nodes `xt` in transit. -/
theorem Related.called (h : Related a g l x ga la s c) (next : Heap)
    (hidle : (s.threads t).pc = .idle)
    (o : Call) {pc : Pc} {xt live : List Nat}
    (hinv : Inv (IsBlock a) g l (Function.update x t xt) { s.goto t pc with live := live })
    (hlive : (live ++ held (.called o)).Perm s.live) (hout : pc.locked = false)
    (hpc : ∀ n, Same (la t) ⟨.idle, n, l t, x t⟩ →
      Matches a.batchSize g (ga ()) (la t) (.called o) ⟨pc, n, l t, xt⟩) :
    ∃ c', Runs (object a next) c [.call t o] c' ∧
      Related a g l (Function.update x t xt) ga la { s.goto t pc with live := live } c' := by
  have hmatched := h.matched t
  simp only [State.hand, hidle] at hmatched
  obtain ⟨hstage, hsame⟩ := hmatched
  obtain ⟨c', hruns, hstage', hanswering⟩ :=
    h.answering.called next hstage o hlive
  refine ⟨c', hruns, hinv, h.exclusive.goto hidle hout, fun u => ?_, h.free, hanswering⟩
  rw [hstage']
  by_cases hu : u = t
  · subst hu
    simp only [State.hand, State.goto, State.setThread, Function.update_self]
    exact hpc _ hsame
  · simp only [State.hand, State.goto, State.setThread, Function.update_of_ne hu]
    exact h.matched u

/-- The whole calls answer every step of the machine, and the users see no difference. -/
theorem Related.answers (ha : Constructed blockSz numBlocks batch a next)
    (h : Related a g l x ga la s c) {e : Event} (hexec : exec a.batchSize s e = some s') :
    ∃ marks c', Runs (object a next) c marks c' ∧ history marks = note s e s' ∧
      ∃ g' l' x' ga' la', Related a g' l' x' ga' la' s' c' := by
  cases e with
  | callAlloc t =>
      simp only [exec, Option.ite_none_right_eq_some, Option.some.injEq] at hexec
      obtain ⟨hidle, rfl⟩ := hexec
      have hinv := h.inv.callAlloc hidle
      rw [← Function.update_eq_self t x] at hinv
      obtain ⟨c', hruns, hrelated⟩ := h.called next hidle .alloc hinv
        (by rw [held_alloc, List.append_nil]) rfl fun _ hsame => ⟨rfl, hsame⟩
      exact ⟨_, c', hruns, rfl, g, l, _, ga, la, hrelated⟩
  | callDealloc t ptr =>
      simp only [exec, Option.ite_none_right_eq_some] at hexec
      obtain ⟨hidle, hexec⟩ := hexec
      split at hexec
      · next hnull =>
          cases hexec
          subst hnull
          obtain ⟨c', hruns, hstage, hanswering⟩ :=
            h.answering.freed_null next (h.stage_idle hidle)
          exact ⟨_, c', hruns, rfl, g, l, x, ga, la, h.inv, h.exclusive,
            hstage ▸ h.matched, h.free, hanswering⟩
      · next hne =>
          simp only [Option.ite_none_right_eq_some, Option.some.injEq] at hexec
          obtain ⟨hmem, rfl⟩ := hexec
          obtain ⟨c', hruns, hrelated⟩ := h.called next hidle (.dealloc ptr)
            (h.inv.callDealloc hidle hmem) (by
              rw [held_dealloc]
              exact (List.perm_append_singleton ptr _).trans (List.perm_cons_erase hmem).symm)
            rfl fun _ hsame => ⟨rfl, hsame⟩
          refine ⟨_, c', hruns, ?_, g, l, _, ga, la, hrelated⟩
          rw [note, if_neg hne]
          rfl
  | step t => exact h.step ha hexec
  | scribble block value =>
      simp only [exec, Option.ite_none_right_eq_some, Option.some.injEq] at hexec
      obtain ⟨hmem, rfl⟩ := hexec
      exact ⟨[], c, .nil c, rfl, g, l, x, ga, la, h.inv.scribble hmem, h.exclusive,
        h.matched, h.free, h.answering⟩

/-- The whole calls before any is made. -/
def fresh (a : Allocator) (next : Heap) : Shared (TlFreelistCalls.State Nat) Nat Call Nat where
  object := TlFreelistCalls.start a next
  stage _ := .idle
  log := []

/-- After the constructor both have the same list. -/
theorem related_start (ha : Constructed blockSz numBlocks batch a next) :
    ∃ g l x ga la, Related a g l x ga la (start a next) (fresh a next) := by
  obtain ⟨ga, la, hwhole⟩ : ∃ ga la, TlFreelistCalls.Inv a (fresh a next).object ga la :=
    TlFreelistCalls.start_inv ha
  have hinv := inv_start ha
  have hsame : ga () = (blocksOf a.blockSize a.region a.blockCount).reverse :=
    Chain.unique (hwhole.owned.global () rfl) hinv.chain
  refine ⟨_, _, _, ga, la, hinv, exclusive_of_reachable (.init rfl), fun t => ?_,
    fun _ => hsame, hwhole, fun _ => rfl, ?_⟩
  · have hnone := hwhole.idle t List.not_mem_nil
    exact ⟨rfl, hnone, rfl⟩
  · exact
      { nodup := fun k => by cases k <;> exact List.nodup_nil
        only := fun k j b hk _ => by cases k <;> cases hk
        mem := fun b => by
          constructor
          · intro hb
            cases hb
          · rintro ⟨k, hk⟩
            cases k <;> cases hk }

theorem related_of_reachable (ha : Constructed blockSz numBlocks batch a next)
    {past : List (Mark Nat Call Nat)} (h : Reachable (histories a next) (s, past)) :
    ∃ c, Linearized (object a next) past c ∧
      ∃ g l x ga la, Related a g l x ga la s c := by
  refine linearizes (R := fun s c => ∃ g l x ga la, Related a g l x ga la s c) ?_ ?_ h
  · rintro s rfl
    exact ⟨fresh a next, ⟨rfl, fun _ => rfl, rfl⟩, related_start ha⟩
  · rintro s c e s' ⟨g, l, x, ga, la, hrelated⟩ hexec
    exact hrelated.answers ha hexec

theorem related_of_steps (ha : Constructed blockSz numBlocks batch a next)
    (h : Reachable (steps a next) s) : ∃ c g l x ga la, Related a g l x ga la s c := by
  obtain ⟨past, hpast⟩ := h.remember ([] : List (Mark Nat Call Nat))
    fun s e s' past => note s e s' ++ past
  obtain ⟨c, -, hrelated⟩ := related_of_reachable ha hpast
  exact ⟨c, hrelated⟩

/-- The machine `s` between calls and the whole calls `c` have the same blocks in the
same places, in the same order. -/
structure Agree (s : State) (c : TlFreelistCalls.State Nat) : Prop where
  live : c.live.Perm s.live
  global : onList c.world () = nodes 0 s.next addresses s.head.ptr
  cache : ∀ t, inCache c.world t = nodes 0 s.next addresses (s.threads t).localHead
  size : ∀ t, (s.threads t).localSize = (inCache c.world t).length

theorem Related.agree (ha : Constructed blockSz numBlocks batch a next)
    (h : Related a g l x ga la s c) (hidle : ∀ t, (s.threads t).pc = .idle) :
    Agree s c.object := by
  have hstage : ∀ t, c.stage t = .idle := fun t => h.stage_idle (hidle t)
  have hsame : ∀ t, la t = l t ∧ (s.threads t).localSize = (l t).length := by
    intro t
    have hmatched := h.matched t
    simp only [State.hand, hidle t] at hmatched
    exact hmatched.2
  have hchain : ∀ t, Chain 0 s.next (s.threads t).localHead (l t) := fun t =>
    (h.inv.holds_at (hidle t)).1
  have hfree : s.bulkLock = none := Option.eq_none_iff_forall_ne_some.mpr fun u hu => by
    have hinside := (h.exclusive u).mpr hu
    rw [hidle u] at hinside
    cases hinside
  have hcache : ∀ t, inCache c.object.world t = l t := by
    intro t
    rw [← (hsame t).1]
    cases hc : c.object.world.caches t with
    | none =>
        rw [inCache, hc, h.answering.whole.owned.unused t hc (h.answering.running t)]
    | some d => exact h.answering.whole.owned.inCache_eq hc rfl
  have hlength : ∀ t, g.length + (l t).length + (x t).length < 2 ^ 64 := h.length_lt ha
  refine ⟨?_, ?_, fun t => ?_, fun t => ?_⟩
  · refine (List.perm_ext_iff_of_nodup (h.answering.whole.owned.ledger.nodup .user)
      (h.inv.ledger.nodup .user)).mpr fun b => ?_
    refine (h.answering.hands.mem b).trans ⟨?_, fun hb => ⟨none, hb⟩⟩
    rintro ⟨k, hk⟩
    cases k with
    | none => exact hk
    | some t =>
        rw [spread, hstage t] at hk
        cases hk
  · rw [h.answering.whole.owned.onList_eq rfl, h.free hfree]
    have hlen := hlength 0
    exact (Chain.nodes_eq h.inv.chain (by unfold addresses; omega)).symm
  · rw [hcache]
    have hlen := hlength t
    exact (Chain.nodes_eq (hchain t) (by unfold addresses; omega)).symm
  · rw [hcache, (hsame t).2]

/-- Every history of interleaved calls is one of whole calls, each of which takes effect
at one moment between its invocation and its return. -/
theorem linearizable (blockSz numBlocks batch : Nat) (a : Allocator) (next : Heap)
    (ha : Constructed blockSz numBlocks batch a next) (s : State)
    (past : List (Mark Nat Call Nat)) (h : Reachable (histories a next) (s, past)) :
    ∃ c, Linearized (object a next) past c ∧
      Reachable (TlFreelistCalls.calls a next) c.object ∧
      ((∀ t, (s.threads t).pc = .idle) → (∀ t, c.stage t = .idle) ∧ Agree s c.object) := by
  obtain ⟨c, hlinear, g, l, x, ga, la, hrelated⟩ := related_of_reachable ha h
  refine ⟨c, hlinear, calls_of_atomic hlinear.reach, fun hidle => ?_⟩
  exact ⟨fun t => hrelated.stage_idle (hidle t), hrelated.agree ha hidle⟩

/-- Thread 1's `alloc` overtakes that of thread 0, which gets the last block on the list
and then frees it. -/
def overtaken : List Event :=
  [.callAlloc 0, .step 0, .callAlloc 1] ++ List.replicate 15 (.step 1) ++
    List.replicate 10 (.step 0) ++ [.callDealloc 0 4096, .step 0, .step 0]

theorem linearizable_tlPool3 : ∃ s,
    replay (record (exec 2) fun s e s' past => note s e s' ++ past)
      (start TlFreelistAllocator.tlPool3 TlFreelistAllocator.tlHeap3, [])
      overtaken = some s ∧
    s.2 = [.ret 0 0, .call 0 (.dealloc 4096), .ret 0 4096, .ret 1 4224, .call 1 .alloc,
      .call 0 .alloc] ∧
    ∃ c, Linearized (object TlFreelistAllocator.tlPool3 TlFreelistAllocator.tlHeap3) s.2 c ∧
      Reachable (TlFreelistCalls.calls TlFreelistAllocator.tlPool3
        TlFreelistAllocator.tlHeap3) c.object ∧
      ((∀ t, (s.1.threads t).pc = .idle) →
        (∀ t, c.stage t = .idle) ∧ Agree s.1 c.object) :=
  ⟨_, rfl, rfl, linearizable 48 3 2 _ _ TlFreelistAllocator.tlPool3_constructed _ _
    (Reachable.replay (s := (start TlFreelistAllocator.tlPool3 TlFreelistAllocator.tlHeap3, []))
      overtaken (.init ⟨rfl, rfl⟩) rfl)⟩

end Simulation

end PoolMemalloc.Ports.TlFreelistLinearizable
