import Mathlib.Data.List.Nodup
import Mathlib.Logic.Function.Basic

/-!
# Null-terminated chains in a heap of `next` fields

A heap is a function `next` from a node to its successor; `null` is not a node.
`Segment null next p l q` says that following `next` from `p` visits the nodes
`l` in order and arrives at `q`; a `Chain` is a segment that arrives at `null`.

* `Segment.update` — the frame rule: writing the field of a node that is not in
  the segment leaves the segment alone.
* `Segment.push`, `Chain.pop` — a node is put in front, or taken from the front.
* `segment_append` — segments split and join.
* `Chain.unique`, `Chain.nodup`, `Chain.nodes_eq` — a heap determines its chains, so
  they visit no node twice, and walking them finds their nodes.

A loop that builds a chain from the front holds a `Built` part of it, whose last
link is not yet written; a loop that looks for the end of a chain is `Walked` up
to some node.
-/

namespace PoolMemalloc.Verified.LinkedChain

universe u

variable {α : Type u}

/-- The nodes visited from `p` before `q` is reached. -/
def Segment (null : α) (next : α → α) : α → List α → α → Prop
  | p, [], q => p = q
  | p, b :: rest, q => p = b ∧ b ≠ null ∧ Segment null next (next b) rest q

/-- A segment that ends at null. -/
def Chain (null : α) (next : α → α) (p : α) (l : List α) : Prop :=
  Segment null next p l null

section Segments

variable {null p q b v : α} {next next' : α → α} {l l' : List α}

@[simp] theorem segment_nil : Segment null next p [] q ↔ p = q := Iff.rfl

@[simp] theorem segment_cons : Segment null next p (b :: l) q ↔
    p = b ∧ b ≠ null ∧ Segment null next (next b) l q := Iff.rfl

@[simp] theorem chain_nil : Chain null next p [] ↔ p = null := Iff.rfl

@[simp] theorem chain_cons : Chain null next p (b :: l) ↔
    p = b ∧ b ≠ null ∧ Chain null next (next b) l := Iff.rfl

/-- A segment depends only on the fields of its own nodes. -/
theorem Segment.congr (hagree : ∀ b ∈ l, next' b = next b)
    (h : Segment null next p l q) : Segment null next' p l q := by
  induction l generalizing p with
  | nil => exact h
  | cons b rest ih =>
      obtain ⟨rfl, hne, hrest⟩ := h
      refine ⟨rfl, hne, ?_⟩
      rw [hagree p List.mem_cons_self]
      exact ih (fun c hc => hagree c (List.mem_cons_of_mem p hc)) hrest

theorem Segment.ne_null (h : Segment null next p l q) : ∀ b ∈ l, b ≠ null := by
  induction l generalizing p with
  | nil => simp
  | cons b rest ih =>
      obtain ⟨rfl, hne, hrest⟩ := h
      intro c hc
      rcases List.mem_cons.mp hc with rfl | hc
      · exact hne
      · exact ih hrest c hc

theorem segment_append :
    Segment null next p (l ++ l') q ↔
      ∃ r, Segment null next p l r ∧ Segment null next r l' q := by
  induction l generalizing p with
  | nil => simp
  | cons b rest ih =>
      simp only [List.cons_append, segment_cons, ih]
      constructor
      · rintro ⟨rfl, hne, r, hl, hl'⟩
        exact ⟨r, ⟨rfl, hne, hl⟩, hl'⟩
      · rintro ⟨r, ⟨rfl, hne, hl⟩, hl'⟩
        exact ⟨rfl, hne, r, hl, hl'⟩

theorem segment_concat :
    Segment null next p (l ++ [b]) q ↔
      Segment null next p l b ∧ b ≠ null ∧ next b = q := by
  rw [segment_append]
  constructor
  · rintro ⟨r, hl, rfl, hne, hend⟩
    exact ⟨hl, hne, hend⟩
  · rintro ⟨hl, hne, hend⟩
    exact ⟨b, hl, rfl, hne, hend⟩

theorem Chain.eq_nil_iff (h : Chain null next p l) : l = [] ↔ p = null := by
  cases l with
  | nil => exact ⟨fun _ => h, fun _ => rfl⟩
  | cons b rest =>
      obtain ⟨rfl, hne, -⟩ := h
      simp [hne]

/-- A chain whose head is a node starts with that node. -/
theorem Chain.pop (h : Chain null next p l) (hne : p ≠ null) :
    ∃ rest, l = p :: rest ∧ Chain null next (next p) rest := by
  cases l with
  | nil => exact (hne h).elim
  | cons b rest =>
      obtain ⟨rfl, -, hrest⟩ := h
      exact ⟨rest, rfl, hrest⟩

/-- A heap and a head determine the chain. -/
theorem Chain.unique (h : Chain null next p l) (h' : Chain null next p l') :
    l = l' := by
  induction l generalizing p l' with
  | nil => exact (h'.eq_nil_iff.mpr h).symm
  | cons b rest ih =>
      obtain ⟨rfl, hne, hrest⟩ := h
      obtain ⟨rest', rfl, hrest'⟩ := h'.pop hne
      rw [ih hrest hrest']

/-- So a chain, being finite, visits no node twice. -/
theorem Chain.nodup (h : Chain null next p l) : l.Nodup := by
  induction l generalizing p with
  | nil => exact List.nodup_nil
  | cons b rest ih =>
      have hwhole := h
      obtain ⟨rfl, -, hrest⟩ := h
      refine List.nodup_cons.mpr ⟨fun hmem => ?_, ih hrest⟩
      obtain ⟨front, back, rfl⟩ := List.append_of_mem hmem
      obtain ⟨r, -, hagain⟩ := segment_append.mp hrest
      obtain rfl : r = p := hagain.1
      have hsame := congrArg List.length (Chain.unique hwhole hagain)
      simp only [List.length_cons, List.length_append] at hsame
      omega

end Segments

section Walks

variable [DecidableEq α]

instance Segment.decidable (null : α) (next : α → α) :
    ∀ p l q, Decidable (Segment null next p l q)
  | p, [], q => inferInstanceAs (Decidable (p = q))
  | p, b :: rest, q =>
      have := Segment.decidable null next (next b) rest q
      inferInstanceAs (Decidable (p = b ∧ b ≠ null ∧ Segment null next (next b) rest q))

instance Chain.decidable (null : α) (next : α → α) (p : α) (l : List α) :
    Decidable (Chain null next p l) :=
  Segment.decidable null next p l null

/-- The nodes of the chain from `p`, or the first `fuel` of them. -/
def nodes (null : α) (next : α → α) : Nat → α → List α
  | 0, _ => []
  | fuel + 1, p => if p = null then [] else p :: nodes null next fuel (next p)

theorem Chain.nodes_eq {null p : α} {next : α → α} {l : List α} {fuel : Nat}
    (h : Chain null next p l) (hfuel : l.length ≤ fuel) :
    nodes null next fuel p = l := by
  induction l generalizing p fuel with
  | nil =>
      obtain rfl := chain_nil.mp h
      cases fuel with
      | zero => rfl
      | succ fuel => exact if_pos rfl
  | cons b rest ih =>
      obtain ⟨rfl, hne, hrest⟩ := h
      rw [List.length_cons] at hfuel
      obtain ⟨fuel, rfl⟩ : ∃ n, fuel = n + 1 := ⟨fuel - 1, by omega⟩
      rw [nodes, if_neg hne, ih hrest (by omega)]

end Walks

section Writes

variable [DecidableEq α] {null p q b v : α} {next : α → α} {l : List α}

/-- The frame rule. -/
theorem Segment.update (h : Segment null next p l q) (hb : b ∉ l) :
    Segment null (Function.update next b v) p l q :=
  h.congr fun c hc => Function.update_of_ne (fun heq : c = b => hb (heq ▸ hc)) _ _

theorem Chain.update (h : Chain null next p l) (hb : b ∉ l) :
    Chain null (Function.update next b v) p l :=
  Segment.update h hb

/-- Linking a new node in front of a segment. -/
theorem Segment.push (h : Segment null next p l q) (hne : b ≠ null) (hb : b ∉ l) :
    Segment null (Function.update next b p) b (b :: l) q := by
  refine ⟨rfl, hne, ?_⟩
  rw [Function.update_self]
  exact h.update hb

end Writes

/-! ## Loops over a chain -/

/-- `nodes` are linked from `start` up to `tail`, the last of them, whose own
link is not yet written. -/
def Built (null : α) (next : α → α) (start tail : α) (nodes : List α) : Prop :=
  ∃ front, nodes = front ++ [tail] ∧ Segment null next start front tail ∧ tail ≠ null

/-- `tail` is one of the nodes of the chain from `start`. -/
def Walked (null : α) (next : α → α) (start tail : α) (nodes : List α) : Prop :=
  ∃ front back, nodes = front ++ tail :: back ∧ Segment null next start front tail ∧
    Chain null next tail (tail :: back)

section Loops

variable {null start tail v : α} {next next' : α → α} {nodes : List α}

/-- One node, linked to nothing yet. -/
theorem built_singleton (hne : tail ≠ null) : Built null next tail tail [tail] :=
  ⟨[], rfl, rfl, hne⟩

theorem Built.congr (hagree : ∀ b ∈ nodes, next' b = next b)
    (h : Built null next start tail nodes) : Built null next' start tail nodes := by
  obtain ⟨front, rfl, hsegment, hne⟩ := h
  exact ⟨front, rfl, hsegment.congr fun b hb => hagree b (by simp [hb]), hne⟩

theorem Built.tail_mem (h : Built null next start tail nodes) : tail ∈ nodes := by
  obtain ⟨front, rfl, -, -⟩ := h
  simp

theorem Walked.congr (hagree : ∀ b ∈ nodes, next' b = next b)
    (h : Walked null next start tail nodes) : Walked null next' start tail nodes := by
  obtain ⟨front, back, rfl, hsegment, hchain⟩ := h
  exact ⟨front, back, rfl, hsegment.congr fun b hb => hagree b (by simp [hb]),
    Segment.congr (fun b hb => hagree b (List.mem_append_right front hb)) hchain⟩

/-- The walk starts at the head of a chain. -/
theorem Chain.walked (h : Chain null next start nodes) (hne : start ≠ null) :
    Walked null next start start nodes := by
  obtain ⟨rest, rfl, hrest⟩ := h.pop hne
  exact ⟨[], rest, rfl, rfl, rfl, hne, hrest⟩

theorem Walked.advance (h : Walked null next start tail nodes)
    (hne : next tail ≠ null) : Walked null next start (next tail) nodes := by
  obtain ⟨front, back, rfl, hsegment, -, htail, hback⟩ := h
  obtain ⟨rest, rfl, hrest⟩ := Chain.pop hback hne
  refine ⟨front ++ [tail], rest, by simp, ?_, rfl, hne, hrest⟩
  exact segment_concat.mpr ⟨hsegment, htail, rfl⟩

/-- The walk is along a chain. -/
theorem Walked.chain (h : Walked null next start tail nodes) :
    Chain null next start nodes := by
  obtain ⟨front, back, rfl, hsegment, hback⟩ := h
  exact segment_append.mpr ⟨tail, hsegment, hback⟩

/-- A node is left to walk to. -/
theorem Walked.more (h : Walked null next start tail nodes) (hne : next tail ≠ null) :
    ∃ front back, nodes = front ++ tail :: next tail :: back := by
  obtain ⟨front, back, rfl, -, -, -, hback⟩ := h
  obtain ⟨back, rfl, -⟩ := Chain.pop hback hne
  exact ⟨front, back, rfl⟩

/-- The walk ends at the last node. -/
theorem Walked.built (h : Walked null next start tail nodes)
    (hnull : next tail = null) : Built null next start tail nodes := by
  obtain ⟨front, back, rfl, hsegment, -, htail, hback⟩ := h
  obtain rfl : back = [] := (Chain.eq_nil_iff hback).mpr hnull
  exact ⟨front, rfl, hsegment, htail⟩

variable [DecidableEq α]

/-- Writing the tail's link keeps what is built, and ends it there. -/
theorem Built.write (h : Built null next start tail nodes) (hnodup : nodes.Nodup) :
    Built null (Function.update next tail v) start tail nodes ∧
      Segment null (Function.update next tail v) start nodes v := by
  obtain ⟨front, rfl, hsegment, hne⟩ := h
  have hnew : tail ∉ front := by
    intro hmem
    exact (List.nodup_append.mp hnodup).2.2 tail hmem tail List.mem_cons_self rfl
  refine ⟨⟨front, rfl, hsegment.update hnew, hne⟩, ?_⟩
  exact segment_concat.mpr ⟨hsegment.update hnew, hne, Function.update_self ..⟩

/-- A node is appended once the tail links to it. -/
theorem Built.snoc (h : Built null next start tail nodes) (hnodup : nodes.Nodup)
    (hne : v ≠ null) :
    Built null (Function.update next tail v) start v (nodes ++ [v]) :=
  ⟨nodes, rfl, (h.write hnodup).2, hne⟩

end Loops

end PoolMemalloc.Verified.LinkedChain
