import Stencil.Op.Child
import Stencil.Op.Flags
import Stencil.Op.Prop
import Stencil.Op.State
import Stencil.Skeleton

/-!
# Compiled templates
-/

namespace Stencil

/-- All that is needed to make and update the nodes of a template. -/
structure Artifact where
  /-- The markup is parsed anew for each use instead of being cloned. -/
  disableCloning : Bool
  flags : Flags
  template : Skeleton
  propOps : List PropOp
  childOps : List ChildOp
  stateOps : List StateOp
  /-- The names that prop ops refer to. -/
  data : List String
  /-- The expressions that prop and child ops refer to. -/
  exprs : List Nat
  deriving DecidableEq, Repr

end Stencil
