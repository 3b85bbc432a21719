import Stencil.Site
import Stencil.Element.Walk

/-!
# The sites of an element

Every element is a site. Its op in the walk is counted off from the steps before it,
and the numbers of its expressions and names from the entries that the tables have
by then: `pos` is the next op of the walk, `n` and `m` the next entries.
-/

namespace Stencil

namespace Before

/-- The point before an item that comes after an expression. -/
def insertPoint (before : Before) (pos : Nat) : List Insert :=
  if before.expr then [.before pos] else []

end Before

namespace Content

/-- The number of steps past an element with this content. -/
def width (oracle : Oracle) (inner : Content) : Nat :=
  widthOfElement (inner.span oracle .nothing)

/-- What is placed among the children of an element with this content. -/
def inserts (oracle : Oracle) : Before → Nat → Nat → Content → List Insert
  | _, _, _, nil => []
  | before, pos, n, text _ next =>
    before.insertPoint pos ++ next.inserts oracle .afterText (pos + before.widthOfText) n
  | before, pos, n, expr _ next => .child n :: next.inserts oracle before.afterExpr pos (n + 1)
  | before, pos, n, element head inner next =>
    before.insertPoint pos
      ++ next.inserts oracle .nothing (pos + inner.width oracle)
        (n + (head.exprs oracle).length + (inner.exprs oracle).length)

/-- The sites in content. -/
def sites (oracle : Oracle) : Before → Nat → Nat → Nat → Content → Sites
  | _, _, _, _, nil => .nil
  | before, pos, n, m, text _ next =>
    next.sites oracle .afterText (pos + before.widthOfText) n m
  | before, pos, n, m, expr _ next => next.sites oracle before.afterExpr pos (n + 1) m
  | _, pos, n, m, element head inner next =>
    let n' := n + (head.exprs oracle).length
    let m' := m + (head.data oracle).length
    .site (some pos) (head.props oracle n m)
      (inner.inserts oracle .nothing (pos + 1) n')
      (inner.sites oracle .nothing (pos + 1) n' m')
      (next.sites oracle .nothing (pos + inner.width oracle)
        (n' + (inner.exprs oracle).length) (m' + (inner.data oracle).length))

end Content

namespace Element

/-- The site of a template's root, with all others inside. -/
def sites (oracle : Oracle) (e : Element) : Sites :=
  let n := (e.head.exprs oracle).length
  .site none (e.head.props oracle 0 0)
    (e.content.inserts oracle .nothing 0 n)
    (e.content.sites oracle .nothing 0 n (e.head.data oracle).length)
    .nil

end Element
end Stencil
