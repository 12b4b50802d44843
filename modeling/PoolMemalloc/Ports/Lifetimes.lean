import PoolMemalloc.Verified.Storage
import PoolMemalloc.Ports.MultiSizeAllocator
import PoolMemalloc.Ports.PoolSizing

/-!
# Construction and destruction

What the constructors of the five classes request and their destructors release, each in
the order of the source, and with every request possibly refused.

All of them give back what they hold when they throw, except `MultiSizeAllocator`: its
destructor does not run when its constructor throws, so the pools of the classes before
stay.

Two things a constructor may do are undefined: `ThreadLocalBitmapAllocator` constructs the
words of a bitmap that it may not have got, and where the sizes wrap the blocks that are
pushed on a list may lie outside the memory granted for them (`Within`).
-/

namespace PoolMemalloc.Ports.Lifetimes

open PoolMemalloc.Verified.SizeT
open PoolMemalloc.Verified.Transition
open PoolMemalloc.Verified.Conservation
open PoolMemalloc.Verified.Storage
open PoolMemalloc.Verified.Storage.Prog
open PoolMemalloc.Ports.BlockArray
open PoolMemalloc.Ports.BitmapRegion
open PoolMemalloc.Ports.FreelistAllocator (Heap)
open PoolMemalloc.Ports.TlFreelistAllocator (alignUp cacheLine alignUp_eq atLeastFreeBlock
  regionBytes)
open PoolMemalloc.Ports.MultiSizeAllocator (numClasses classSize)
open PoolMemalloc.Ports.PoolSizing (bitmapBytes tlBitmapBytes maxRegions)

/-- `std::aligned_alloc`, `operator new` and `numa::alloc_on_node`. -/
inductive Source
  | alignedAlloc
  | operatorNew
  | onNode
  deriving Repr, DecidableEq

abbrev Code := Prog Source

def alignedAlloc (bytes : Nat) : Code Nat := .request .alignedAlloc bytes .done

/-- `operator new` throws `std::bad_alloc` instead of returning null. -/
def operatorNew (bytes : Nat) : Code Nat :=
  .request .operatorNew bytes fun p => if p = 0 then .throw else .done p

def allocOnNode (bytes : Nat) : Code Nat := .request .onNode bytes .done

/-- Releasing null does nothing. -/
def giveBack (source : Source) (p : Nat) (bytes : Option Nat) : Code Unit :=
  if p = 0 then .done () else .release source p bytes (.done ())

def free (p : Nat) : Code Unit := giveBack .alignedAlloc p none

def operatorDelete (p : Nat) : Code Unit := giveBack .operatorNew p none

/-- `numa::free_on_node`, a `munmap`, which is told the size. -/
def freeOnNode (p size : Nat) : Code Unit := giveBack .onNode p (some size)

/-- What a request for `bytes` bytes that was answered with `p` has granted. -/
def granted (source : Source) (p bytes : Nat) : List (Piece Source) :=
  if p = 0 then [] else [⟨source, p, bytes⟩]

@[simp] theorem granted_zero (source : Source) (bytes : Nat) : granted source 0 bytes = [] :=
  rfl

section Primitives

variable {α : Type} {source : Source} {p bytes : Nat} {held : List (Piece Source)}
variable {Q : End α → List (Piece Source) → Prop}

/-- What follows a request is accountable for what it was granted. -/
theorem request_keeps {next : Nat → Code α}
    (h : ∀ p, (next p).Keeps (granted source p bytes ++ held) Q) :
    (Prog.request source bytes next).Keeps held Q := by
  constructor
  · exact h 0
  · intro p hp
    have hnext := h p
    rwa [granted, if_neg hp] at hnext

theorem operatorNew_keeps :
    (operatorNew bytes).Keeps []
      (Makes (fun _ => True) (fun p => granted .operatorNew p bytes) (fun l => l = [])
        False) := by
  apply request_keeps
  intro p
  split
  · next hp =>
      rw [hp]
      exact ⟨[], List.Perm.nil, rfl⟩
  · exact ⟨_, List.Perm.refl _, trivial, List.append_nil _⟩

/-- What a request has granted can be given back, with its own size if that is asked
for. -/
theorem giveBack_keeps {size : Option Nat} (hsize : ∀ n ∈ size, bytes = n) :
    (giveBack source p size).Keeps (granted source p bytes) Gone := by
  unfold giveBack granted
  split
  · exact ⟨[], List.Perm.nil, rfl, rfl⟩
  · refine ⟨⟨source, p, bytes⟩, [], List.Perm.refl _, ⟨rfl, rfl, hsize⟩, ?_⟩
    exact ⟨[], List.Perm.nil, rfl, rfl⟩

theorem free_keeps : (free p).Keeps (granted .alignedAlloc p bytes) Gone :=
  giveBack_keeps (by simp)

theorem operatorDelete_keeps : (operatorDelete p).Keeps (granted .operatorNew p bytes) Gone :=
  giveBack_keeps (by simp)

theorem freeOnNode_keeps : (freeOnNode p bytes).Keeps (granted .onNode p bytes) Gone :=
  giveBack_keeps (by simp)

/-- Releasing one thing and then the rest. -/
theorem gone_keeps {first second : Code Unit} {l m : List (Piece Source)}
    (hfirst : first.Keeps l Gone) (hsecond : second.Keeps m Gone) :
    (first >>= fun _ => second).Keeps (l ++ m) Gone := by
  apply Keeps.bind
  have hframe := hfirst.frame m
  apply (hframe.perm List.perm_append_comm).mono
  intro r l' hl
  obtain ⟨l'', hgone, rfl⟩ := hl
  obtain ⟨rfl, rfl⟩ := hgone
  rw [List.append_nil]
  exact hsecond

end Primitives

/-! ## Pushing the blocks of a region -/

/-- The `next` of each block, 8 bytes at its start, lies in the `bytes` granted. -/
def Within (blockSize blockCount bytes : Nat) : Prop :=
  ∀ i < blockCount, wrap (i * blockSize) + 8 ≤ bytes

instance (blockSize blockCount bytes : Nat) : Decidable (Within blockSize blockCount bytes) :=
  inferInstanceAs (Decidable (∀ i < blockCount, wrap (i * blockSize) + 8 ≤ bytes))

/-- The loop that pushes the blocks of a region, which writes to each. -/
def pushBlocks (blockSize blockCount bytes : Nat) : Code Unit :=
  if Within blockSize blockCount bytes then .done () else .undefined

section Pushing

variable {blockSize blockCount bytes : Nat} {held : List (Piece Source)}

theorem pushBlocks_keeps {Q : End Unit → List (Piece Source) → Prop}
    (hdone : Q (.returned ()) held)
    (hundefined : ¬ Within blockSize blockCount bytes → Q .undefined held) :
    (pushBlocks blockSize blockCount bytes).Keeps held Q := by
  unfold pushBlocks
  split
  · exact ⟨held, List.Perm.refl _, hdone⟩
  · next hout => exact ⟨held, List.Perm.refl _, hundefined hout⟩

end Pushing

/-! ## `BitmapAllocator` -/

namespace Bitmap

/-- `bitmap` is `m_bitmap`. -/
structure Object where
  allocator : BitmapAllocator.Allocator
  bitmap : Nat
  deriving Repr, DecidableEq

def construct (blockSize blockCount : Nat) : Code Object := do
  let memory ← alignedAlloc (bitmapBytes blockSize blockCount)
  if memory = 0 then .throw
  else
    let bitmap ← alignedAlloc (wrap (8 * wordsFor blockCount))
    if bitmap = 0 then do
      free memory
      .throw
    else
      return ⟨⟨BitmapAllocator.storedBlockSize blockSize, fresh memory blockCount⟩, bitmap⟩

def destruct (o : Object) : Code Unit := do
  free o.bitmap
  free o.allocator.pool.memory

def footprint (o : Object) : List (Piece Source) :=
  granted .alignedAlloc o.bitmap (wrap (8 * o.allocator.pool.wordCount)) ++
    granted .alignedAlloc o.allocator.pool.memory
      (wrap (o.allocator.blockSize * o.allocator.pool.blockCount))

/-- The object is what the constructor makes of the memory it was granted. -/
def Made (blockSize blockCount : Nat) (o : Object) : Prop :=
  BitmapAllocator.construct (fun _ => o.allocator.pool.memory) (fun _ => o.bitmap)
    blockSize blockCount = some o.allocator

theorem construct_keeps (blockSize blockCount : Nat) :
    (construct blockSize blockCount).Keeps []
      (Makes (Made blockSize blockCount) footprint (fun l => l = []) False) := by
  apply request_keeps
  intro memory
  show Keeps (ite _ _ _) _ _
  split
  · next hmemory =>
      rw [hmemory]
      exact ⟨[], List.Perm.nil, rfl⟩
  · next hmemory =>
      apply request_keeps
      intro bitmap
      show Keeps (ite _ _ _) _ _
      split
      · next hbitmap =>
          rw [hbitmap]
          apply Keeps.bind
          have hfree : (free memory).Keeps (granted .alignedAlloc memory
              (bitmapBytes blockSize blockCount)) Gone := free_keeps
          apply (hfree.perm (by simp)).mono
          intro r l hgone
          obtain ⟨rfl, rfl⟩ := hgone
          exact ⟨[], List.Perm.nil, rfl⟩
      · next hbitmap =>
          refine ⟨_, List.Perm.refl _, ?_, by simp [footprint, fresh, bitmapBytes]⟩
          simp [Made, BitmapAllocator.construct, fresh, hmemory, hbitmap]

theorem destruct_keeps (o : Object) : (destruct o).Keeps (footprint o) Gone :=
  gone_keeps free_keeps free_keeps

end Bitmap

/-! ## `ThreadLocalBitmapAllocator` -/

namespace TlBitmap

/-- `bitmaps` are the `bitmap` of the regions, and `storage` is that of `m_regions`. -/
structure Object where
  allocator : TlBitmapAllocator.Allocator
  bitmaps : List Nat
  storage : Nat
  deriving Repr, DecidableEq

/-- `sizeof(Region)`: five members, the last aligned to 64. -/
def sizeofRegion : Nat := 128

/-- `m_regions(max_threads)`. -/
def newRegions (maxThreads : Nat) : Code Nat :=
  if maxThreads > maxRegions then .throw
  else if maxThreads = 0 then return 0
  else operatorNew (sizeofRegion * maxThreads)

/-- One round of the constructor's loop.  A null `bitmap` is not checked for; its words
are then constructed in place. -/
def newRegion (blockSize blocksPerThread : Nat) : Code (Region × Nat) := do
  let memory ← alignedAlloc (tlBitmapBytes blockSize blocksPerThread)
  let bitmap ← alignedAlloc (wrap (8 * wordsFor blocksPerThread))
  if bitmap = 0 ∧ wordsFor blocksPerThread ≠ 0 then .undefined
  else return (fresh memory blocksPerThread, bitmap)

def construct (blockSize blocksPerThread maxThreads : Nat) : Code Object := do
  let storage ← newRegions maxThreads
  let regions ← each (fun _ => newRegion blockSize blocksPerThread) (List.range maxThreads)
  let allocator : TlBitmapAllocator.Allocator :=
    { blockSize := roundUp64 blockSize
      blocksPerThread := blocksPerThread
      maxThreads := maxThreads
      regions := regions.map Prod.fst
      threadCounter := 0 }
  return ⟨allocator, regions.map Prod.snd, storage⟩

/-- The storage of `m_regions` goes last, with the member. -/
def destruct (o : Object) : Code Unit := do
  eachOf (fun r : Region × Nat => do
    free r.2
    free r.1.memory) (o.allocator.regions.zip o.bitmaps)
  operatorDelete o.storage

/-- The pieces of one region. -/
def regionPieces (blockSize : Nat) (r : Region × Nat) : List (Piece Source) :=
  granted .alignedAlloc r.2 (wrap (8 * r.1.wordCount)) ++
    granted .alignedAlloc r.1.memory (wrap (blockSize * r.1.blockCount))

def footprint (o : Object) : List (Piece Source) :=
  granted .operatorNew o.storage (sizeofRegion * o.allocator.maxThreads) ++
    (o.allocator.regions.zip o.bitmaps).flatMap (regionPieces o.allocator.blockSize)

def Made (blockSize blocksPerThread maxThreads : Nat) (o : Object) : Prop :=
  ∃ memory : Nat → Nat, TlBitmapAllocator.construct (fun i _ => memory i)
    (fun i _ => o.bitmaps.getD i 0) blockSize blocksPerThread maxThreads = some o.allocator

theorem newRegions_keeps (maxThreads : Nat) :
    (newRegions maxThreads).Keeps []
      (Makes (fun _ => True)
        (fun p => granted .operatorNew p (sizeofRegion * maxThreads)) (fun l => l = [])
        False) := by
  unfold newRegions
  split
  · exact ⟨[], List.Perm.nil, rfl⟩
  · split
    · exact ⟨[], List.Perm.nil, trivial, rfl⟩
    · exact operatorNew_keeps

/-- Region and bitmap are as the constructor makes them. -/
def MadeRegion (blocksPerThread : Nat) (r : Region × Nat) : Prop :=
  r.1 = fresh r.1.memory blocksPerThread ∧ (wordsFor blocksPerThread ≠ 0 → r.2 ≠ 0)

theorem newRegion_keeps (blockSize blocksPerThread : Nat) :
    (newRegion blockSize blocksPerThread).Keeps []
      (Makes (MadeRegion blocksPerThread) (regionPieces (roundUp64 blockSize))
        (fun _ => False) (wordsFor blocksPerThread ≠ 0)) := by
  apply request_keeps
  intro memory
  apply request_keeps
  intro bitmap
  show Keeps (ite _ _ _) _ _
  split
  · next hbitmap => exact ⟨_, List.Perm.refl _, hbitmap.2⟩
  · next hbitmap =>
      refine ⟨_, List.Perm.refl _, ⟨rfl, fun hwords hnull => hbitmap ⟨hnull, hwords⟩⟩, ?_⟩
      simp [regionPieces, fresh, tlBitmapBytes]

/-- What the loop makes is what `construct` makes of the same memory. -/
theorem made_of_regions {blockSize blocksPerThread maxThreads storage : Nat}
    {regions : List (Region × Nat)}
    (hmade : List.Forall₂ (fun _ => MadeRegion blocksPerThread) (List.range maxThreads) regions) :
    Made blockSize blocksPerThread maxThreads
      ⟨⟨roundUp64 blockSize, blocksPerThread, maxThreads, regions.map Prod.fst, 0⟩,
        regions.map Prod.snd, storage⟩ := by
  have hlen : regions.length = maxThreads := by
    rw [← hmade.length_eq, List.length_range]
  have hget : ∀ i (hi : i < regions.length), MadeRegion blocksPerThread regions[i] := by
    intro i hi
    exact hmade.get (by rwa [hmade.length_eq]) hi
  refine ⟨fun i => (regions.getD i (fresh 0 0, 0)).1.memory, ?_⟩
  unfold TlBitmapAllocator.construct
  dsimp only
  rw [if_neg]
  · have hregions : (List.range maxThreads).map (fun i =>
        fresh (regions.getD i (fresh 0 0, 0)).1.memory blocksPerThread) =
          regions.map Prod.fst := by
      apply List.ext_getElem
      · simp [hlen]
      · intro i hi hi'
        have hlt : i < regions.length := by simpa using hi'
        simp [hlt, ← (hget i hlt).1]
    rw [hregions]
  · intro hnull
    obtain ⟨i, hi, hbitmap, hwords⟩ := hnull
    have hlt : i < regions.length := hlen ▸ List.mem_range.mp hi
    apply (hget i hlt).2 hwords
    simpa [hlt] using hbitmap

theorem construct_keeps (blockSize blocksPerThread maxThreads : Nat) :
    (construct blockSize blocksPerThread maxThreads).Keeps []
      (Makes (Made blockSize blocksPerThread maxThreads) footprint (fun l => l = [])
        (wordsFor blocksPerThread ≠ 0)) := by
  apply Keeps.bind
  apply (newRegions_keeps maxThreads).mono
  intro r l hl
  cases r with
  | threw => exact hl
  | undefined => exact hl.elim
  | returned storage =>
      obtain ⟨-, rfl⟩ := hl
      have hloop := Keeps.each (List.range maxThreads) fun _ _ =>
        newRegion_keeps blockSize blocksPerThread
      have hframe := hloop.frame (granted .operatorNew storage (sizeofRegion * maxThreads))
      rw [List.append_nil] at hframe
      apply Keeps.bind
      apply hframe.mono
      intro r l hl
      obtain ⟨l', hl', rfl⟩ := hl
      cases r with
      | threw =>
          obtain ⟨-, -, -, -, hfalse, -⟩ := hl'
          exact hfalse.elim
      | undefined => exact hl'
      | returned regions =>
          obtain ⟨hmade, rfl⟩ := hl'
          have hzip : (regions.map Prod.fst).zip (regions.map Prod.snd) = regions :=
            (List.zip_of_prod rfl rfl).symm
          refine ⟨_, List.Perm.refl _, made_of_regions hmade, ?_⟩
          rw [footprint, hzip]

theorem destruct_keeps (o : Object) : (destruct o).Keeps (footprint o) Gone := by
  have hround : ∀ r ∈ o.allocator.regions.zip o.bitmaps,
      (free r.2 >>= fun _ => free r.1.memory).Keeps
        (regionPieces o.allocator.blockSize r) Gone :=
    fun _ _ => gone_keeps free_keeps free_keeps
  have hloop := Keeps.eachOf _ hround
  exact (gone_keeps hloop operatorDelete_keeps).perm List.perm_append_comm

end TlBitmap

/-! ## `ThreadLocalFreelistAllocator` -/

namespace TlFreelist

open PoolMemalloc.Ports.TlFreelistAllocator (Allocator)

/-- `before` is what the memory holds when the blocks are pushed. -/
def construct (before : Heap) (blockSz numBlocks batch : Nat) : Code Allocator := do
  let region ← alignedAlloc (regionBytes blockSz numBlocks)
  match TlFreelistAllocator.construct (fun _ => region) before blockSz numBlocks batch with
  | none => .throw
  | some (a, _) => do
      pushBlocks a.blockSize a.blockCount (regionBytes blockSz numBlocks)
      return a

def destruct (a : Allocator) : Code Unit :=
  if a.region ≠ 0 then free a.region else return ()

def footprint (a : Allocator) : List (Piece Source) :=
  granted .alignedAlloc a.region (alignUp (wrap (a.blockSize * a.blockCount)) cacheLine)

def Made (before : Heap) (blockSz numBlocks batch : Nat) (a : Allocator) : Prop :=
  ∃ next, TlFreelistAllocator.construct (fun _ => a.region) before blockSz numBlocks
    batch = some (a, next)

/-- The sizes have wrapped, and a block is outside the region. -/
def Outside (blockSz numBlocks : Nat) : Prop :=
  ¬ Within (alignUp (atLeastFreeBlock blockSz) cacheLine) numBlocks
    (regionBytes blockSz numBlocks)

/-- Two blocks of 2^63 bytes: no bytes are asked for, and the first block is pushed. -/
example : Outside (2 ^ 63) 2 := by
  unfold Outside
  decide

theorem construct_keeps (before : Heap) (blockSz numBlocks batch : Nat) :
    (construct before blockSz numBlocks batch).Keeps []
      (Makes (Made before blockSz numBlocks batch) footprint (fun l => l = [])
        (Outside blockSz numBlocks)) := by
  apply request_keeps
  intro region
  by_cases hregion : region = 0
  · rw [hregion]
    exact ⟨[], List.Perm.nil, rfl⟩
  · have hmade : TlFreelistAllocator.construct (fun _ => region) before blockSz numBlocks
        batch = some (_, _) := if_neg hregion
    show Keeps (match TlFreelistAllocator.construct (fun _ => region) before blockSz
      numBlocks batch with
      | none => .throw
      | some (a, _) =>
          (pushBlocks a.blockSize a.blockCount (regionBytes blockSz numBlocks)).bind
            fun _ => .done a) _ _
    rw [hmade]
    apply Keeps.bind
    apply pushBlocks_keeps
    · refine ⟨_, List.Perm.refl _, ⟨_, hmade⟩, ?_⟩
      rw [List.append_nil]
      rfl
    · exact id

theorem destruct_keeps (a : Allocator) : (destruct a).Keeps (footprint a) Gone := by
  unfold destruct
  split
  · exact free_keeps
  · next hregion =>
      have hzero : a.region = 0 := not_not.mp hregion
      rw [footprint, hzero]
      exact ⟨[], List.Perm.nil, rfl, rfl⟩

end TlFreelist

/-! ## `NumaAllocator` -/

namespace Numa

open PoolMemalloc.Ports.NumaAllocator (Allocator nodeCount maxNodes)

/-- `pool.region_size`. -/
def regionSize (blockSz blocksPerNode : Nat) : Nat :=
  wrap (alignUp (atLeastFreeBlock blockSz) cacheLine * blocksPerNode)

/-- One round of the constructor's loop. -/
def newRegion (blockSz blocksPerNode : Nat) : Code Nat := do
  let region ← allocOnNode (regionSize blockSz blocksPerNode)
  if region = 0 then return 0
  else do
    pushBlocks (alignUp (atLeastFreeBlock blockSz) cacheLine) blocksPerNode
      (regionSize blockSz blocksPerNode)
    return region

def construct (isNode : Nat → Bool) (before : Heap) (blockSz blocksPerNode batch : Nat) :
    Code Allocator := do
  let nodes := nodeCount isNode
  let numNodes := if nodes > maxNodes then maxNodes else nodes
  let regions ← each (fun _ => newRegion blockSz blocksPerNode) (List.range numNodes)
  return (NumaAllocator.construct (fun _ n => regions.getD n 0) isNode before blockSz
    blocksPerNode batch).1

def destruct (a : Allocator) : Code Unit :=
  eachOf (fun n =>
    if (a.pools n).region ≠ 0 then freeOnNode (a.pools n).region (a.pools n).regionSize
    else return ()) (List.range a.numNodes)

def footprint (a : Allocator) : List (Piece Source) :=
  (List.range a.numNodes).flatMap fun n =>
    granted .onNode (a.pools n).region (a.pools n).regionSize

def Made (isNode : Nat → Bool) (before : Heap) (blockSz blocksPerNode batch : Nat)
    (a : Allocator) : Prop :=
  a = (NumaAllocator.construct (fun _ n => (a.pools n).region) isNode before blockSz
    blocksPerNode batch).1

/-- Going through a list by its indices. -/
private theorem flatMap_range_getD {α β : Type} (l : List α) (d : α) (f : α → List β) :
    ((List.range l.length).flatMap fun n => f (l.getD n d)) = l.flatMap f := by
  have hmap : (List.range l.length).map (fun n => l.getD n d) = l := by
    apply List.ext_getElem
    · simp
    · intro n hn hn'
      simp [hn']
  rw [← List.flatMap_map (fun n => l.getD n d) f, hmap]

/-- As with a `ThreadLocalFreelistAllocator`; the memory of a node is not rounded up. -/
def Outside (blockSz blocksPerNode : Nat) : Prop :=
  ¬ Within (alignUp (atLeastFreeBlock blockSz) cacheLine) blocksPerNode
    (regionSize blockSz blocksPerNode)

theorem newRegion_keeps (blockSz blocksPerNode : Nat) :
    (newRegion blockSz blocksPerNode).Keeps []
      (Makes (fun _ => True) (fun p => granted .onNode p (regionSize blockSz blocksPerNode))
        (fun _ => False) (Outside blockSz blocksPerNode)) := by
  apply request_keeps
  intro region
  show Keeps (ite _ _ _) _ _
  split
  · next hregion =>
      rw [hregion]
      exact ⟨[], List.Perm.nil, trivial, rfl⟩
  · apply Keeps.bind
    apply pushBlocks_keeps
    · exact ⟨_, List.Perm.refl _, trivial, List.append_nil _⟩
    · exact id

theorem construct_keeps (isNode : Nat → Bool) (before : Heap)
    (blockSz blocksPerNode batch : Nat) :
    (construct isNode before blockSz blocksPerNode batch).Keeps []
      (Makes (Made isNode before blockSz blocksPerNode batch) footprint (fun l => l = [])
        (Outside blockSz blocksPerNode)) := by
  apply Keeps.bind
  apply (Keeps.each _ fun _ _ => newRegion_keeps blockSz blocksPerNode).mono
  intro r l hl
  cases r with
  | threw =>
      obtain ⟨-, -, -, -, hfalse, -⟩ := hl
      exact hfalse.elim
  | undefined => exact hl
  | returned regions =>
      obtain ⟨hmade, rfl⟩ := hl
      have hlen := hmade.length_eq
      rw [List.length_range] at hlen
      refine ⟨_, List.Perm.refl _, rfl, ?_⟩
      show _ = (List.range (if nodeCount isNode > maxNodes then maxNodes
        else nodeCount isNode)).flatMap fun n =>
          granted .onNode (regions.getD n 0) (regionSize blockSz blocksPerNode)
      rw [hlen]
      exact (flatMap_range_getD regions 0 _).symm

theorem destruct_keeps (a : Allocator) : (destruct a).Keeps (footprint a) Gone := by
  apply Keeps.eachOf
  intro n _
  split
  · exact freeOnNode_keeps
  · next hregion =>
      have hzero : (a.pools n).region = 0 := not_not.mp hregion
      rw [hzero]
      exact ⟨[], List.Perm.nil, rfl, rfl⟩

end Numa

/-! ## `MultiSizeAllocator` -/

namespace MultiSize

/-- `sizeof(ThreadLocalFreelistAllocator)`: the list, which has a head and a mutex on two
lines, and four more words. -/
def sizeofPool : Nat := 192

/-- An object on the heap, at its address. -/
abbrev Pool := Nat × TlFreelistAllocator.Allocator

/-- `new ThreadLocalFreelistAllocator(..)`: where the constructor throws, its storage is
released. -/
def newPool (before : Heap) (blocksPerClass batch i : Nat) : Code Pool := do
  let object ← operatorNew sizeofPool
  let pool ← (TlFreelist.construct before (classSize i) blocksPerClass batch).onThrow
    (operatorDelete object)
  return (object, pool)

/-- `delete pools[i]`. -/
def deletePool (pool : Pool) : Code Unit := do
  TlFreelist.destruct pool.2
  operatorDelete pool.1

def construct (before : Heap) (blocksPerClass batch : Nat) : Code (List Pool) :=
  each (newPool before blocksPerClass batch) (List.range numClasses)

def destruct (pools : List Pool) : Code Unit := eachOf deletePool pools

def poolPieces (pool : Pool) : List (Piece Source) :=
  granted .operatorNew pool.1 sizeofPool ++ TlFreelist.footprint pool.2

def footprint (pools : List Pool) : List (Piece Source) := pools.flatMap poolPieces

def MadePool (before : Heap) (blocksPerClass batch i : Nat) (pool : Pool) : Prop :=
  TlFreelist.Made before (classSize i) blocksPerClass batch pool.2

theorem newPool_keeps (before : Heap) (blocksPerClass batch i : Nat) :
    (newPool before blocksPerClass batch i).Keeps []
      (Makes (MadePool before blocksPerClass batch i) poolPieces (fun l => l = [])
        (TlFreelist.Outside (classSize i) blocksPerClass)) := by
  have hnew : (operatorNew sizeofPool).Keeps [] (Makes (fun _ => True)
      (fun p => granted .operatorNew p sizeofPool) (fun l => l = []) False) :=
    operatorNew_keeps
  apply Keeps.bind
  apply hnew.mono
  intro r l hl
  cases r with
  | threw => exact hl
  | undefined => exact hl.elim
  | returned object =>
      obtain ⟨-, rfl⟩ := hl
      have hpool := TlFreelist.construct_keeps before (classSize i) blocksPerClass batch
      have hframe := hpool.frame (granted .operatorNew object sizeofPool)
      rw [List.append_nil] at hframe
      apply Keeps.bind
      apply Keeps.onThrow
      apply hframe.mono
      intro r l hl
      obtain ⟨l', hl', rfl⟩ := hl
      cases r with
      | undefined => exact hl'
      | threw =>
          -- the handler releases the object
          have hnone : l' = [] := hl'
          have hdelete : (operatorDelete object).Keeps
              (granted .operatorNew object sizeofPool) Gone := operatorDelete_keeps
          rw [hnone, List.append_nil]
          apply hdelete.mono
          intro r l hgone
          obtain ⟨rfl, rfl⟩ := hgone
          rfl
      | returned a =>
          obtain ⟨hmade, rfl⟩ := hl'
          exact ⟨_, List.Perm.refl _, hmade, rfl⟩

theorem deletePool_keeps (pool : Pool) : (deletePool pool).Keeps (poolPieces pool) Gone :=
  (gone_keeps (TlFreelist.destruct_keeps pool.2) operatorDelete_keeps).perm
    List.perm_append_comm

theorem construct_keeps (before : Heap) (blocksPerClass batch : Nat) :
    (construct before blocksPerClass batch).Keeps []
      (Makes (List.Forall₂ (MadePool before blocksPerClass batch) (List.range numClasses))
        footprint
        (Earlier (MadePool before blocksPerClass batch) poolPieces (fun l => l = [])
          (List.range numClasses))
        (∃ i < numClasses, TlFreelist.Outside (classSize i) blocksPerClass)) :=
  Keeps.each _ fun i hi => (newPool_keeps before blocksPerClass batch i).mono fun _ _ h =>
    h.risk fun hout => ⟨i, List.mem_range.mp hi, hout⟩

theorem destruct_keeps (pools : List Pool) : (destruct pools).Keeps (footprint pools) Gone :=
  Keeps.eachOf pools fun pool _ => deletePool_keeps pool

end MultiSize

/-! ## All of them -/

/-- The arguments of the constructors, with the blocks' former contents. -/
inductive Args
  | bitmap (blockSize blockCount : Nat)
  | tlBitmap (blockSize blocksPerThread maxThreads : Nat)
  | tlFreelist (before : Heap) (blockSz numBlocks batch : Nat)
  | numa (isNode : Nat → Bool) (before : Heap) (blockSz blocksPerNode batch : Nat)
  | multiSize (before : Heap) (blocksPerClass batch : Nat)

inductive Object
  | bitmap (o : Bitmap.Object)
  | tlBitmap (o : TlBitmap.Object)
  | tlFreelist (a : TlFreelistAllocator.Allocator)
  | numa (a : NumaAllocator.Allocator)
  | multiSize (pools : List MultiSize.Pool)

def construct : Args → Code Object
  | .bitmap blockSize blockCount => (Bitmap.construct blockSize blockCount).map .bitmap
  | .tlBitmap blockSize blocksPerThread maxThreads =>
      (TlBitmap.construct blockSize blocksPerThread maxThreads).map .tlBitmap
  | .tlFreelist before blockSz numBlocks batch =>
      (TlFreelist.construct before blockSz numBlocks batch).map .tlFreelist
  | .numa isNode before blockSz blocksPerNode batch =>
      (Numa.construct isNode before blockSz blocksPerNode batch).map .numa
  | .multiSize before blocksPerClass batch =>
      (MultiSize.construct before blocksPerClass batch).map .multiSize

def destruct : Object → Code Unit
  | .bitmap o => Bitmap.destruct o
  | .tlBitmap o => TlBitmap.destruct o
  | .tlFreelist a => TlFreelist.destruct a
  | .numa a => Numa.destruct a
  | .multiSize pools => MultiSize.destruct pools

def footprint : Object → List (Piece Source)
  | .bitmap o => Bitmap.footprint o
  | .tlBitmap o => TlBitmap.footprint o
  | .tlFreelist a => TlFreelist.footprint a
  | .numa a => Numa.footprint a
  | .multiSize pools => MultiSize.footprint pools

/-- An object is what its constructor makes of what it was granted. -/
def IsMade : Args → Object → Prop
  | .bitmap blockSize blockCount, .bitmap o => Bitmap.Made blockSize blockCount o
  | .tlBitmap blockSize blocksPerThread maxThreads, .tlBitmap o =>
      TlBitmap.Made blockSize blocksPerThread maxThreads o
  | .tlFreelist before blockSz numBlocks batch, .tlFreelist a =>
      TlFreelist.Made before blockSz numBlocks batch a
  | .numa isNode before blockSz blocksPerNode batch, .numa a =>
      Numa.Made isNode before blockSz blocksPerNode batch a
  | .multiSize before blocksPerClass batch, .multiSize pools =>
      List.Forall₂ (MultiSize.MadePool before blocksPerClass batch)
        (List.range numClasses) pools
  | _, _ => False

/-- What is left where a constructor throws: nothing, or the pools of the classes before
the one that could not be made. -/
def Leaves : Args → List (Piece Source) → Prop
  | .multiSize before blocksPerClass batch =>
      Earlier (MultiSize.MadePool before blocksPerClass batch) MultiSize.poolPieces
        (fun l => l = []) (List.range numClasses)
  | _ => fun l => l = []

/-- The bitmap of a region of `ThreadLocalBitmapAllocator` is used without a check, and so
are sizes that have wrapped. -/
def Risky : Args → Prop
  | .bitmap _ _ => False
  | .tlBitmap _ blocksPerThread _ => wordsFor blocksPerThread ≠ 0
  | .tlFreelist _ blockSz numBlocks _ => TlFreelist.Outside blockSz numBlocks
  | .numa _ _ blockSz blocksPerNode _ => Numa.Outside blockSz blocksPerNode
  | .multiSize _ blocksPerClass _ =>
      ∃ i < numClasses, TlFreelist.Outside (classSize i) blocksPerClass

theorem construct_keeps (args : Args) :
    (construct args).Keeps [] (Makes (IsMade args) footprint (Leaves args) (Risky args)) := by
  cases args with
  | bitmap blockSize blockCount =>
      exact (Bitmap.construct_keeps blockSize blockCount).map (fun _ => id) fun _ => rfl
  | tlBitmap blockSize blocksPerThread maxThreads =>
      exact (TlBitmap.construct_keeps blockSize blocksPerThread maxThreads).map
        (fun _ => id) fun _ => rfl
  | tlFreelist before blockSz numBlocks batch =>
      exact (TlFreelist.construct_keeps before blockSz numBlocks batch).map
        (fun _ => id) fun _ => rfl
  | numa isNode before blockSz blocksPerNode batch =>
      exact (Numa.construct_keeps isNode before blockSz blocksPerNode batch).map
        (fun _ => id) fun _ => rfl
  | multiSize before blocksPerClass batch =>
      exact (MultiSize.construct_keeps before blocksPerClass batch).map
        (fun _ => id) fun _ => rfl

theorem destruct_keeps (o : Object) : (destruct o).Keeps (footprint o) Gone := by
  cases o with
  | bitmap o => exact Bitmap.destruct_keeps o
  | tlBitmap o => exact TlBitmap.destruct_keeps o
  | tlFreelist a => exact TlFreelist.destruct_keeps a
  | numa a => exact Numa.destruct_keeps a
  | multiSize pools => exact MultiSize.destruct_keeps pools

section Runs

variable {ι : Type} [DecidableEq ι] {s : State Source Args Object ι}

end Runs

end PoolMemalloc.Ports.Lifetimes
