import PoolMemalloc.Ports.TlBitmapInterleaving

/-!
# The calls of one thread on its own region

What a thread sees of `ThreadLocalBitmapAllocator` when nobody else uses its region.
A block is named by its index in the region, so that neither the address of the region
nor which region it is appears in what the thread sees.

`performAll` is the list of calls on a bare region, `alone` the same list made by one
thread on a whole allocator; `alone_eq` says that on a newly constructed allocator they
are the same, wherever the regions are.
-/

namespace PoolMemalloc.Ports.RegionSession

open PoolMemalloc.Verified.SizeT
open PoolMemalloc.Verified.WordBitmap
open PoolMemalloc.Ports.BlockArray
open PoolMemalloc.Ports.BitmapRegion
open PoolMemalloc.Ports.TlBitmapAllocator
open PoolMemalloc.Ports.TlBitmapInterleaving (memoryOf)

/-- A call; `χ` is how the block that `dealloc` gives back is named. -/
inductive Call (χ : Type)
  | alloc
  | dealloc (block : χ)
  deriving Repr, DecidableEq

def Call.map {χ ψ : Type} (f : χ → ψ) : Call χ → Call ψ
  | .alloc => .alloc
  | .dealloc block => .dealloc (f block)

/-- What a pointer is in a region at `base`: null, or a block. -/
def blockOf (blockSize base ptr : Nat) : Option Nat :=
  if ptr = 0 then none else some (ptrToIndex blockSize base ptr)

def ptrOf (blockSize base : Nat) (block : Option Nat) : Nat :=
  block.elim 0 (indexToPtr blockSize base)

/-- One call on a region: what it returns, if it is an `alloc`, and the region
afterwards. -/
def perform (r : Region) : Call (Option Nat) → List (Option Nat) × Region
  | .alloc => ([(allocIndex r).1], (allocIndex r).2)
  | .dealloc none => ([], r)
  | .dealloc (some index) => ([], deallocIndex r index)

/-- A list of calls, the earliest first. -/
def performAll (r : Region) : List (Call (Option Nat)) → List (Option Nat) × Region
  | [] => ([], r)
  | call :: rest =>
      ((perform r call).1 ++ (performAll (perform r call).2 rest).1,
        (performAll (perform r call).2 rest).2)

/-- The results one thread gets from `a` with nobody else calling, as blocks of a region
at `base`. -/
def observe (base : Nat) : Allocator → Nat → List (Call (Option Nat)) → List (Option Nat)
  | _, _, [] => []
  | a, tRegionIndex, .alloc :: rest =>
      match TlBitmapAllocator.alloc a tRegionIndex with
      | none => []
      | some (ptr, selected, a') =>
          blockOf a.blockSize base ptr :: observe base a' selected rest
  | a, tRegionIndex, .dealloc block :: rest =>
      observe base (TlBitmapAllocator.dealloc a (ptrOf a.blockSize base block))
        tRegionIndex rest

/-- The same with the region that the thread's first `alloc` selects. -/
def alone (a : Allocator) (tRegionIndex : Nat) (calls : List (Call (Option Nat))) :
    List (Option Nat) :=
  observe (memoryOf a (selectRegion a tRegionIndex).1) a tRegionIndex calls

/-! ## Pointers and blocks -/

section Blocks

variable {blockSize base blockCount : Nat}

theorem blockOf_indexToPtr (h : Placed blockSize base blockCount) {i : Nat}
    (hi : i < blockCount) : blockOf blockSize base (indexToPtr blockSize base i) = some i := by
  rw [blockOf, if_neg (h.indexToPtr_ne_zero hi), h.ptrToIndex_indexToPtr hi]

theorem blockOf_ptrOf (h : Placed blockSize base blockCount) {block : Option Nat}
    (hrange : ∀ i, block = some i → i < blockCount) :
    blockOf blockSize base (ptrOf blockSize base block) = block := by
  cases block with
  | none => rfl
  | some i => exact blockOf_indexToPtr h (hrange i rfl)

end Blocks

/-! ## Calls on a region -/

/-- One more call at the end. -/
theorem performAll_concat (r : Region) (calls : List (Call (Option Nat)))
    (call : Call (Option Nat)) :
    performAll r (calls ++ [call]) =
      ((performAll r calls).1 ++ (perform (performAll r calls).2 call).1,
        (perform (performAll r calls).2 call).2) := by
  induction calls generalizing r with
  | nil => simp [performAll]
  | cons first rest ih => simp only [List.cons_append, performAll, ih, List.append_assoc]

/-- An `alloc` on a region fails at once or ends in a claim. -/
theorem allocIndex_eq (r : Region) :
    allocIndex r = (none, r) ∨ ∃ wordIndex, allocIndex r = claim r wordIndex := by
  rcases allocLoop_spec r r.hint r.wordCount 0 with ⟨-, heq⟩ | ⟨k, -, -, -, -, heq⟩
  · exact Or.inl heq
  · exact Or.inr ⟨_, heq⟩

/-- Settling a bit leaves the members no call changes. -/
theorem settle_counts (r : Region) (wordIndex freeBit : Nat) :
    (settle r wordIndex freeBit).2.blockCount = r.blockCount ∧
      (settle r wordIndex freeBit).2.wordCount = r.wordCount := by
  unfold settle
  dsimp only
  split <;> exact ⟨rfl, rfl⟩

theorem allocIndex_counts (r : Region) :
    (allocIndex r).2.blockCount = r.blockCount ∧
      (allocIndex r).2.wordCount = r.wordCount := by
  rcases allocIndex_eq r with heq | ⟨wordIndex, heq⟩
  · rw [heq]
    exact ⟨rfl, rfl⟩
  · rw [heq]
    exact settle_counts _ _ _

/-- Calls change the words and the hint of a region and nothing else. -/
theorem performAll_counts (r : Region) (blockCalls : List (Call (Option Nat))) :
    (performAll r blockCalls).2.blockCount = r.blockCount := by
  induction blockCalls generalizing r with
  | nil => rfl
  | cons call rest ih =>
      rw [performAll, ih]
      cases call with
      | alloc => exact (allocIndex_counts r).1
      | dealloc block => cases block <;> rfl

/-- A block handed out is one of the region's. -/
theorem allocIndex_lt {r : Region} {i : Nat} (h : (allocIndex r).1 = some i) :
    i < r.blockCount := by
  rcases allocIndex_eq r with heq | ⟨wordIndex, heq⟩
  · rw [heq] at h
    cases h
  · rw [heq] at h
    simp only [claim, settle] at h
    split at h
    · cases h
    · next hlt =>
        cases h
        omega

/-! ## The address of a region does not matter -/

def relocate (memory : Nat) (r : Region) : Region := { r with memory := memory }

theorem settle_relocate (memory : Nat) (r : Region) (wordIndex freeBit : Nat) :
    settle (relocate memory r) wordIndex freeBit =
      ((settle r wordIndex freeBit).1, relocate memory (settle r wordIndex freeBit).2) := by
  by_cases hpad : wrap (wordIndex * wordBits + freeBit) ≥ r.blockCount
  · simp [settle, relocate, hpad]
  · simp [settle, relocate, hpad]

theorem claim_relocate (memory : Nat) (r : Region) (wordIndex : Nat) :
    claim (relocate memory r) wordIndex =
      ((claim r wordIndex).1, relocate memory (claim r wordIndex).2) :=
  settle_relocate memory
    { r with
      bitmap := r.bitmap.set wordIndex
        (wordAt r.bitmap wordIndex ||| (1#64 <<< findFreeBit (wordAt r.bitmap wordIndex))) }
    wordIndex _

theorem allocLoop_relocate (memory start : Nat) (r : Region) : ∀ left probe : Nat,
    allocLoop start left probe (relocate memory r) =
      ((allocLoop start left probe r).1, relocate memory (allocLoop start left probe r).2) := by
  intro left
  induction left with
  | zero => exact fun _ => rfl
  | succ left ih =>
      intro probe
      simp only [allocLoop]
      by_cases hfull : wordAt r.bitmap (probeIndex r.wordCount start probe) = FULL
      · rw [if_pos (show wordAt (relocate memory r).bitmap
          (probeIndex (relocate memory r).wordCount start probe) = FULL from hfull),
          if_pos hfull]
        exact ih (probe + 1)
      · rw [if_neg (show ¬ wordAt (relocate memory r).bitmap
          (probeIndex (relocate memory r).wordCount start probe) = FULL from hfull),
          if_neg hfull]
        exact claim_relocate memory r _

theorem allocIndex_relocate (memory : Nat) (r : Region) :
    allocIndex (relocate memory r) =
      ((allocIndex r).1, relocate memory (allocIndex r).2) :=
  allocLoop_relocate memory r.hint r r.wordCount 0

/-! ## One thread on a whole allocator -/

/-- The thread with index `tRegionIndex` works on region `k` of `a`, and that region is
`r` but for its address. -/
structure Solo (blockSize : Nat) (base : Nat → Nat) (blockCount n k : Nat) (r : Region)
    (a : Allocator) (tRegionIndex : Nat) : Prop where
  sizeEq : a.blockSize = blockSize
  length : a.regions.length = n
  static : ∀ j q, a.regions[j]? = some q → q.memory = base j ∧ q.blockCount = blockCount
  own : a.regions[k]? = some (relocate (base k) r)
  selects : (selectRegion a tRegionIndex).1 = k

section Solo

variable {blockSize blockCount n k tRegionIndex : Nat} {base : Nat → Nat} {r q : Region}
variable {a a' : Allocator}

/-- The thread's region has changed and no other. -/
theorem Solo.set (h : Solo blockSize base blockCount n k r a tRegionIndex)
    (hcount : q.blockCount = r.blockCount) (hsize : a'.blockSize = blockSize)
    (hregions : a'.regions = a.regions.set k (relocate (base k) q)) {index : Nat}
    (hselects : (selectRegion a' index).1 = k) :
    Solo blockSize base blockCount n k q a' index where
  sizeEq := hsize
  length := by rw [hregions, List.length_set, h.length]
  static j p hp := by
    rw [hregions] at hp
    by_cases hj : j = k
    · subst hj
      obtain ⟨-, hold⟩ := h.static j _ h.own
      rw [List.getElem?_set_self (List.getElem?_eq_some_iff.mp h.own).1] at hp
      cases hp
      exact ⟨rfl, hcount.trans hold⟩
    · rw [List.getElem?_set_ne (Ne.symm hj)] at hp
      exact h.static j p hp
  own := by
    rw [hregions, List.getElem?_set_self (List.getElem?_eq_some_iff.mp h.own).1]
  selects := hselects

/-- `alloc` is the call on the thread's region. -/
theorem Solo.alloc (h : Solo blockSize base blockCount n k r a tRegionIndex)
    (hassigned : k ≠ sizeMax) :
    ∃ a', TlBitmapAllocator.alloc a tRegionIndex =
        some (ptrOf blockSize (base k) (allocIndex r).1, k, a') ∧
      Solo blockSize base blockCount n k (allocIndex r).2 a' k := by
  refine ⟨{ (selectRegion a tRegionIndex).2 with
      regions := a.regions.set k (relocate (base k) (allocIndex r).2) }, ?_, ?_⟩
  · rw [TlBitmapAllocator.alloc, selectRegion_regions, h.selects, h.own]
    simp only [Option.map_some, allocIndex_relocate, h.sizeEq]
    rfl
  · refine h.set (allocIndex_counts r).1 ?_ rfl ?_
    · rw [selectRegion_blockSize, h.sizeEq]
    · rw [selectRegion, if_neg hassigned]

/-- `dealloc` of a block of the thread's region clears its bit there. -/
theorem Solo.dealloc (harena : Arena blockSize base blockCount n)
    (h : Solo blockSize base blockCount n k r a tRegionIndex) {i : Nat}
    (hi : i < blockCount) :
    Solo blockSize base blockCount n k (deallocIndex r i)
      (TlBitmapAllocator.dealloc a (indexToPtr blockSize (base k) i)) tRegionIndex := by
  have hk : k < n := h.length ▸ (List.getElem?_eq_some_iff.mp h.own).1
  obtain ⟨hmemory, hcount⟩ := h.static k _ h.own
  have hsearch := deallocIn_eq blockSize (indexToPtr blockSize (base k) i) a.regions k _
    h.own ((owns_indexToPtr_iff harena hk hk hi hmemory hcount).mpr rfl) (by
      intro j q hj hq
      obtain ⟨hmemory', hcount'⟩ := h.static j q hq
      rw [Bool.eq_false_iff]
      intro howns
      have hjk := (owns_indexToPtr_iff harena hk (Nat.lt_trans hj hk) hi hmemory' hcount').mp howns
      omega)
  rw [hmemory, (harena.placed k hk).ptrToIndex_indexToPtr hi] at hsearch
  refine h.set (q := deallocIndex r i) rfl ?_ ?_ ?_
  · exact h.sizeEq
  · rw [TlBitmapAllocator.dealloc, h.sizeEq, hsearch]
    rfl
  · exact (selectRegion_fst a _ tRegionIndex).trans h.selects

/-- No region contains null. -/
theorem Solo.dealloc_null (harena : Arena blockSize base blockCount n)
    (h : Solo blockSize base blockCount n k r a tRegionIndex) :
    TlBitmapAllocator.dealloc a 0 = a := by
  have howns : ∀ q ∈ a.regions, owns a.blockSize q 0 = false := by
    intro q hq
    obtain ⟨j, hj⟩ := List.mem_iff_getElem?.mp hq
    obtain ⟨hmemory, -⟩ := h.static j q hj
    have hjn : j < n := h.length ▸ (List.getElem?_eq_some_iff.mp hj).1
    have hpos := (harena.placed j hjn).memoryPos
    simp only [owns, hmemory, Bool.and_eq_false_iff, decide_eq_false_iff_not]
    omega
  rw [TlBitmapAllocator.dealloc, deallocIn_of_not_owns howns]

/-- Alone on an allocator a thread sees what it would see of a bare region. -/
theorem Solo.observe_eq (harena : Arena blockSize base blockCount n)
    (hassigned : k ≠ sizeMax) (calls : List (Call (Option Nat)))
    (hrange : ∀ i, Call.dealloc (some i) ∈ calls → i < blockCount)
    (h : Solo blockSize base blockCount n k r a tRegionIndex)
    (hcount : r.blockCount = blockCount) :
    observe (base k) a tRegionIndex calls = (performAll r calls).1 := by
  have hk : k < n := h.length ▸ (List.getElem?_eq_some_iff.mp h.own).1
  induction calls generalizing r a tRegionIndex with
  | nil => rfl
  | cons call rest ih =>
      have hlater : ∀ i, Call.dealloc (some i) ∈ rest → i < blockCount :=
        fun i hi => hrange i (List.mem_cons_of_mem _ hi)
      cases call with
      | alloc =>
          obtain ⟨a', halloc, hnext⟩ := h.alloc hassigned
          have hblock : blockOf a.blockSize (base k)
              (ptrOf blockSize (base k) (allocIndex r).1) = (allocIndex r).1 := by
            rw [h.sizeEq]
            exact blockOf_ptrOf (harena.placed k hk) fun i hi => hcount ▸ allocIndex_lt hi
          simp only [observe, halloc, hblock, performAll, perform, List.singleton_append]
          rw [ih hlater hnext ((allocIndex_counts r).1.trans hcount)]
      | dealloc block =>
          simp only [observe, performAll, h.sizeEq]
          cases block with
          | none =>
              rw [ptrOf, Option.elim_none, h.dealloc_null harena]
              exact ih hlater h hcount
          | some i =>
              have hi := hrange i List.mem_cons_self
              exact ih hlater (h.dealloc harena hi) hcount

end Solo

/-- What a thread sees alone on a newly constructed allocator is what it would see of a
fresh region, whatever its region and wherever that is. -/
theorem alone_eq {blockSize blocksPerThread maxThreads : Nat} {a : Allocator}
    (ha : Constructed blockSize blocksPerThread maxThreads a) {tRegionIndex : Nat}
    (hindex : tRegionIndex = sizeMax ∨ tRegionIndex < maxThreads)
    (calls : List (Call (Option Nat)))
    (hrange : ∀ i, Call.dealloc (some i) ∈ calls → i < blocksPerThread) :
    alone a tRegionIndex calls = (performAll (fresh 0 blocksPerThread) calls).1 := by
  obtain ⟨base, harena, -, heq⟩ := ha.arena
  have hselect : (selectRegion a tRegionIndex).1 < maxThreads ∧
      (selectRegion a tRegionIndex).1 ≠ sizeMax := by
    rw [selectRegion]
    split
    · have hfirst : (assignRegion a).1 = 0 := by rw [assignRegion, heq, Nat.zero_mod]
      rw [hfirst]
      exact ⟨ha.threads, by decide⟩
    · next hne => exact ⟨hindex.resolve_left hne, hne⟩
  have hregion : ∀ j, j < maxThreads →
      a.regions[j]? = some (fresh (base j) blocksPerThread) := by
    intro j hj
    simp [heq, hj]
  have hmemory : memoryOf a (selectRegion a tRegionIndex).1 =
      base (selectRegion a tRegionIndex).1 := by
    rw [memoryOf, hregion _ hselect.1]
    rfl
  have hsolo : Solo (roundUp64 blockSize) base blocksPerThread maxThreads
      (selectRegion a tRegionIndex).1 (fresh 0 blocksPerThread) a tRegionIndex :=
    { sizeEq := by rw [heq]
      length := by simp [heq]
      static := fun j q hq => by
        have hj : j < maxThreads := by
          have hlt := (List.getElem?_eq_some_iff.mp hq).1
          simpa [heq] using hlt
        rw [hregion j hj] at hq
        cases hq
        exact ⟨rfl, rfl⟩
      own := hregion _ hselect.1
      selects := rfl }
  rw [alone, hmemory]
  exact hsolo.observe_eq harena hselect.2 calls hrange rfl

end PoolMemalloc.Ports.RegionSession
