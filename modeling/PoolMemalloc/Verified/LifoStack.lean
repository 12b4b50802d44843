import PoolMemalloc.Verified.Transition

/-!
# The atomic LIFO stack

The specification a concurrent stack is compared with: a list, and operations
that act on it in one step each.  `skip` is a step that takes no effect.  A
`pop` names the item it removes, so that a step system for the stack says not
only which items it holds but also what each `pop` returns.

`Reachable.simulate` turns a step-wise correspondence with `Step` into the
statement that every run of the implementation is a run of the stack.
-/

namespace PoolMemalloc.Verified.LifoStack

open PoolMemalloc.Verified.Transition

universe u

variable {α : Type u}

inductive Op (α : Type u)
  | push (item : α)
  | pop (item : α)
  | popEmpty
  | skip
  deriving Repr, DecidableEq

/-- The effect of one operation on the items, top first. -/
def Step : List α → Op α → List α → Prop
  | items, .push item, items' => items' = item :: items
  | items, .pop item, items' => items = item :: items'
  | items, .popEmpty, items' => items = [] ∧ items' = []
  | items, .skip, items' => items' = items

/-- The stack, empty at first. -/
def stack (α : Type u) : System (List α) (Op α) where
  init items := items = []
  step := Step

end PoolMemalloc.Verified.LifoStack
