import Stencil.Op.State

/-!
# Slot numbers

The walk gives out slots in the order of its ops, and slot 0 is the root's before it
starts. So the slot of an op is one more than the number of slot-giving ops in front
of it.
-/

namespace Stencil

/-- Which slot each op of a walk gives out. -/
structure Slots where
  table : Array (Option Nat)
  /-- How many slots there are, with slot 0 counted in. -/
  size : Nat
  deriving DecidableEq, Repr

namespace Slots

/-- The slots given out by `ops`, if `free` is the first free one. -/
def assign (free : Nat) : List StateOp → List (Option Nat)
  | [] => []
  | op :: ops =>
    if op.assignsSlot then some free :: assign (free + 1) ops else none :: assign free ops

def ofWalk (walk : List StateOp) : Slots :=
  { table := (assign 1 walk).toArray, size := 1 + walk.countP StateOp.assignsSlot }

/-- The slot that the op at `index` gives out, if there is such an op and it gives one. -/
def get? (slots : Slots) (index : Nat) : Option Nat :=
  slots.table[index]?.join

end Slots
end Stencil
