import Stencil.Element.Sites

/-!
# Working tables

A compiler does not build the element first. While it reads, it writes down what the
artifact will need: pieces of markup, names and expressions, the steps of the walk, and
a record for every element that is updated. All of this goes into one set of tables,
which the compiler keeps from one template to the next and empties in between.

A piece of text goes on in the piece before it. A step of the walk may change after it
was written: an element turns out to be updated, or to have steps inside.
-/

namespace Stencil

/-- The tables of a compiler. -/
structure Draft where
  rootTag : String := ""
  /-- Something besides the tag of the root went into the markup. -/
  hasStatics : Bool := false
  /-- How many expressions stand as content. -/
  children : Nat := 0
  markup : Array Part := #[]
  /-- The names that prop ops refer to. -/
  data : Array String := #[]
  walk : Array StateOp := #[]
  /-- The expressions that prop and child ops refer to. -/
  exprs : Array Nat := #[]
  /-- The elements that are updated or hold one that is, each after those inside it. -/
  sites : Array SiteRecord := #[]
  deriving DecidableEq, Repr

namespace Draft

/-- Empties the tables. -/
def reset (d : Draft) : Draft :=
  { d with
    rootTag := "", hasStatics := false, children := 0, markup := #[], data := #[], walk := #[],
    exprs := #[], sites := #[] }

/-! ## Markup and numbers -/

/-- Notes the tag of the root, which has no step. -/
def name (d : Draft) (step : Option Nat) (tag : String) : Draft :=
  if step.isNone then { d with rootTag := tag } else d

/-- Adds a piece of markup. A text goes on in a text before it. -/
def addPart (markup : Array Part) (part : Part) : Array Part :=
  match part, markup.back? with
  | .text s, some (.text before) => markup.pop.push (.text (before ++ s))
  | part, _ => markup.push part

/-- Writes markup. -/
def write (d : Draft) (parts : List Part) : Draft :=
  { d with markup := parts.foldl addPart d.markup }

/-- Writes what is said of an element: its markup, expressions and names. -/
def say (d : Draft) (parts : List Part) (exprs : List Nat) (data : List String) : Draft :=
  { d with
    hasStatics := d.hasStatics || !parts.isEmpty
    markup := parts.foldl addPart d.markup
    exprs := d.exprs ++ exprs
    data := d.data ++ data }

/-- Writes an expression that stands as content. -/
def addChild (d : Draft) (expr : Nat) : Draft :=
  { d with exprs := d.exprs.push expr, children := d.children + 1 }

/-! ## The walk -/

/-- Begins a node of the markup, which is saved if an expression stands before it. -/
def beginNode (d : Draft) (before : Before) : Draft :=
  { d with hasStatics := true, walk := d.walk.push (.next before.expr) }

/-- Writes the text that was begun, after an anchor if it needs one. -/
def addText (d : Draft) (before : Before) (text : String) : Draft :=
  if before.needsAnchor then
    { d.write [.text "<!>", .text (Text.escape .running text)] with
      walk := (d.walk.pop.push .remove).push (.next false) }
  else d.write [.text (Text.escape .running text)]

/-- Drops the steps from `lower` on that come after the last node that is saved, and the step on
from it. -/
def trimFrom (lower : Nat) (walk : Array StateOp) : Array StateOp :=
  if _h : lower < walk.size then
    match walk.back? with
    | none => walk
    | some op =>
      if op.assignsSlot then
        if op.moves then walk.pop.push .save else walk
      else trimFrom lower walk.pop
  else walk
termination_by walk.size

/-- Trims the steps inside an element. -/
def trim (d : Draft) (step : Option Nat) : Draft :=
  { d with walk := trimFrom ((step.map (· + 1)).getD 0) d.walk }

/-- Leaves the element whose step is number `pos`. If there are steps inside, it is entered. -/
def leave (d : Draft) (pos : Nat) : Draft :=
  let inside := d.walk.size - (pos + 1)
  if inside = 0 then d
  else
    { d with walk := (d.walk.modify pos fun op => .enter inside op.assignsSlot).push (.next false) }

/-- Saves the node of the element whose step is given; the root has none. -/
def saveAt (walk : Array StateOp) : Option Nat → Array StateOp
  | some pos => walk.modify pos StateOp.withSave
  | none => walk

/-! ## Sites -/

/-- Completes an element. It is saved if it is updated, and gets a record if it is updated or
holds an element with one. -/
def close (d : Draft) (step : Option Nat) (props : List PropOp) (inserts : List Insert)
    (inner : List Nat) : Option Nat × Draft :=
  if props.isEmpty && inserts.isEmpty then
    if inner.isEmpty then (none, d)
    else (some d.sites.size, { d with sites := d.sites.push { step, props, inserts, inner } })
  else
    (some d.sites.size, { d with
      walk := saveAt d.walk step
      sites := d.sites.push { step, props, inserts, inner } })

end Draft
end Stencil
