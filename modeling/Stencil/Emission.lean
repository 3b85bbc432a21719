import Stencil.Op.Child
import Stencil.Fault
import Stencil.Site
import Stencil.Slots

/-!
# Emitting the ops of sites

Sites are emitted in the order of their opening tags. The updates of a site come
after a `setNode` for its slot, and its placements after a `setParent`; the root has
no slot and needs neither. Placements go out from the last to the first, because
each is made before the one placed last.

A placement before a node that no slot holds cannot be emitted. Emission then stops
with what it has so far.
-/

namespace Stencil

/-- Ops that were emitted, and what stopped the emission. -/
structure Emission where
  props : List PropOp := []
  children : List ChildOp := []
  fault : Option Fault := none
  deriving DecidableEq, Repr

namespace Emission

/-- Goes on with `b`, unless `a` was stopped. -/
def andThen (a b : Emission) : Emission :=
  match a.fault with
  | some _ => a
  | none => { props := a.props ++ b.props, children := a.children ++ b.children, fault := b.fault }

end Emission

namespace Insert

/-- The op for a placement. -/
def resolve? (slots : Slots) : Insert → Option ChildOp
  | child input => some (.child input)
  | before step => (slots.get? step).map .setNext

/-- The ops for placements in the order given, up to one that has no slot. -/
def resolveAll (slots : Slots) : List Insert → Emission
  | [] => {}
  | i :: is =>
    match i.resolve? slots with
    | some op => ({ children := [op] } : Emission).andThen (resolveAll slots is)
    | none => { fault := some .unresolvedAnchor }

end Insert

namespace Sites

/-- The ops of one site. -/
def emitSite (slots : Slots) (step : Option Nat) (props : List PropOp) (inserts : List Insert) :
    Emission :=
  let slot := step.bind slots.get?
  let updates := if props.isEmpty then [] else slot.toList.map .setNode ++ props
  let parent := if inserts.isEmpty then [] else slot.toList.map .setParent
  ({ props := updates, children := parent } : Emission).andThen
    (Insert.resolveAll slots inserts.reverse)

/-- The ops of a forest. -/
def emit (slots : Slots) : Sites → Emission
  | nil => {}
  | site step props inserts inner next =>
    ((emitSite slots step props inserts).andThen (inner.emit slots)).andThen (next.emit slots)

end Sites
end Stencil
