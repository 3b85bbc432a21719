import Stencil.Op.State
import Stencil.Element.Tables

/-!
# The walk that finds the nodes of an element

The walk over an element's content takes one step or more per node of the markup:

    text                              next
    text after an expression          next, saving the text
    text apart from another           remove the anchor, next
    element without saved nodes       next
    element with saved nodes          enter, the walk inside, next

An element is saved itself if an expression stands before it, or if its bindings or
children are updated later. Steps after the last saved node lead nowhere and are
dropped, and a last step that saves its node need not go on from it.

`span` computes the number of steps without building them. The reader asks for it
after every nested element, where building the walk again and again would cost too
much.
-/

namespace Stencil

namespace StateOp

/-- Drops the steps after the last node that is saved, and the step on from it. -/
def trim (ops : List StateOp) : List StateOp :=
  match ops.reverse.dropWhile (!·.assignsSlot) with
  | [] => []
  | op :: before => ((if op.moves then .save else op) :: before).reverse

/-- The steps past a text. -/
def pastText (before : Before) : List StateOp :=
  if before.needsAnchor then [.remove, .next false] else [.next before.expr]

/-- The steps past an element whose own walk is `inside`. -/
def pastElement (inside : List StateOp) (saves : Bool) : List StateOp :=
  if inside.isEmpty then [.next saves]
  else .enter inside.length saves :: inside ++ [.next false]

theorem trim_append (a b : List StateOp) :
    trim (a ++ b) = if trim b = [] then trim a else a ++ trim b := by
  unfold trim
  rw [List.reverse_append, List.dropWhile_append]
  cases h : b.reverse.dropWhile (!·.assignsSlot) with
  | nil => simp
  | cons op before => simp

theorem trim_cons (op : StateOp) (ops : List StateOp) :
    trim (op :: ops) = if trim ops = [] then trim [op] else op :: trim ops :=
  trim_append [op] ops

/-- The last step of a trimmed walk saves its node and stays there. -/
theorem trim_trim (ops : List StateOp) : trim (trim ops) = trim ops := by
  induction ops with
  | nil => rfl
  | cons op ops ih =>
    rw [trim_cons]
    split
    · cases op with
      | next saves => cases saves <;> rfl
      | enter count saves => cases saves <;> rfl
      | remove => rfl
      | save => rfl
    · rename_i h
      rw [trim_cons, ih, if_neg h]

theorem trim_pastElement {inside : List StateOp} (h : trim inside = inside) (saves : Bool) :
    (trim (pastElement inside saves)).length =
      if inside.length = 0 then saves.toNat else inside.length + 1 := by
  unfold pastElement
  cases inside with
  | nil => cases saves <;> rfl
  | cons op ops =>
    have hn : trim [StateOp.next false] = [] := rfl
    rw [if_neg (by simp), List.cons_append, trim_cons, trim_append, if_pos hn, h]
    simp

end StateOp

/-- The number of steps past a text. -/
def Before.widthOfText (before : Before) : Nat :=
  if before.needsAnchor then 2 else 1

/-- Is an element updated after it is made, apart from the elements inside? -/
def isUpdated (oracle : Oracle) (head : Head) (inner : Content) : Bool :=
  !(head.exprs oracle).isEmpty || inner.hasExpr

namespace Content

/-- The walk over content, with all its steps. -/
def steps (oracle : Oracle) : Before → Content → List StateOp
  | _, nil => []
  | before, text _ next => StateOp.pastText before ++ next.steps oracle .afterText
  | before, expr _ next => next.steps oracle before.afterExpr
  | before, element head inner next =>
    StateOp.pastElement (StateOp.trim (inner.steps oracle .nothing))
        (before.expr || isUpdated oracle head inner)
      ++ next.steps oracle .nothing

/-- The walk over the content of an element. -/
def walk (oracle : Oracle) (c : Content) : List StateOp :=
  StateOp.trim (c.steps oracle .nothing)

/-- The number of steps past an element with `inside` steps in it. -/
def widthOfElement (inside : Nat) : Nat :=
  if inside = 0 then 1 else inside + 2

/-- The number of steps that are left of the walk over content. -/
def span (oracle : Oracle) : Before → Content → Nat
  | _, nil => 0
  | before, text _ next =>
    let rest := next.span oracle .afterText
    if rest = 0 then before.expr.toNat else before.widthOfText + rest
  | before, expr _ next => next.span oracle before.afterExpr
  | before, element head inner next =>
    let inside := inner.span oracle .nothing
    let rest := next.span oracle .nothing
    if rest = 0 then
      if inside = 0 then (before.expr || isUpdated oracle head inner).toNat else inside + 1
    else widthOfElement inside + rest

theorem length_pastElement (inside : List StateOp) (saves : Bool) :
    (StateOp.pastElement inside saves).length = widthOfElement inside.length := by
  unfold StateOp.pastElement widthOfElement
  cases inside <;> simp

theorem length_trim_steps (oracle : Oracle) (before : Before) (c : Content) :
    (StateOp.trim (c.steps oracle before)).length = c.span oracle before := by
  induction c generalizing before with
  | nil => rfl
  | text s next ih =>
    have hn := ih .afterText
    rw [steps, StateOp.trim_append, span]
    by_cases h : StateOp.trim (next.steps oracle .afterText) = []
    · rw [h, List.length_nil] at hn
      simp only [h, ← hn, ↓reduceIte]
      unfold StateOp.pastText Before.needsAnchor
      cases before.text <;> cases before.expr <;> rfl
    · have hpos : next.span oracle .afterText ≠ 0 := by
        rw [← hn]; simpa using h
      simp only [h, hpos, ↓reduceIte, List.length_append, hn, StateOp.pastText, Before.widthOfText]
      split <;> rfl
  | expr i next ih => exact ih _
  | element head inner next ihInner ihNext =>
    have hn := ihNext .nothing
    have hi := ihInner .nothing
    rw [steps, StateOp.trim_append, span]
    by_cases h : StateOp.trim (next.steps oracle .nothing) = []
    · rw [h, List.length_nil] at hn
      simp only [h, ← hn, ↓reduceIte, StateOp.trim_pastElement (StateOp.trim_trim _), hi]
    · have hpos : next.span oracle .nothing ≠ 0 := by
        rw [← hn]; simpa using h
      simp only [h, hpos, ↓reduceIte, List.length_append, hn, length_pastElement, hi]

/-- The reader's count is the length of the walk that is built. -/
theorem length_walk (oracle : Oracle) (c : Content) :
    (c.walk oracle).length = c.span oracle .nothing :=
  length_trim_steps oracle .nothing c

end Content

namespace Element

/-- Does the number of steps inside the element fit the op that enters it? -/
def fits (oracle : Oracle) (e : Element) : Bool :=
  e.content.span oracle .nothing ≤ StateOp.maxCount

end Element
end Stencil
