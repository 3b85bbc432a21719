import Stencil.Op.Prop

/-!
# Sites of updates

A site is an element with what happens to it after it is made: the updates of its
properties and the values placed among its children. At this stage nodes are still
known by the op of the walk that reaches them. Sites form a forest, written as one
chain like the content of an element: every site holds those inside it and those
after it.

Sites may also come as numbered records that refer to each other. `Sites.ofRecords`
unfolds the record of a given number; a record that is referred to twice stands in
the forest twice.
-/

namespace Stencil

/-- A placement among the children of a site. -/
inductive Insert where
  /-- The value of a dynamic expression goes here. -/
  | child (input : Nat)
  /-- What goes before this point goes before the node that op `step` reaches. -/
  | before (step : Nat)
  deriving DecidableEq, Repr

/-- A forest of sites. -/
inductive Sites where
  | nil
  /-- A site, reached by op `step` unless it is the root. -/
  | site (step : Option Nat) (props : List PropOp) (inserts : List Insert) (inner next : Sites)
  deriving DecidableEq, Repr

/-- A site that refers to those inside it by number. -/
structure SiteRecord where
  step : Option Nat
  props : List PropOp
  inserts : List Insert
  inner : List Nat
  deriving DecidableEq, Repr

namespace Sites

/-- The forest of the records numbered `ids`, down to a depth. -/
def unfold (records : Array SiteRecord) : Nat → List Nat → Sites
  | 0, _ => nil
  | depth + 1, ids =>
    ids.foldr (fun id next =>
      match records[id]? with
      | some r => site r.step r.props r.inserts (unfold records depth r.inner) next
      | none => next) nil

/--
The forest under the record numbered `root`. If no record is inside itself, no chain
of records is longer than their number, and nothing is cut off.
-/
def ofRecords (records : Array SiteRecord) (root : Nat) : Sites :=
  unfold records records.size [root]

end Sites
end Stencil
