import Stencil.Op.Prop

/-!
# Template elements

What a template says, with the blank space and the delimiters gone: elements with a
class part, bindings and content. Expressions are known by their number only; what
they compute is none of the compiler's business.

The content of an element is a sequence of texts, expressions and elements. It is
written as one chain in which each item holds what comes after it, so that a
definition or a proof by recursion covers depth and breadth at once.
-/

namespace Stencil

/-- The class of an element: names that are known, or one expression. -/
inductive ClassPart where
  /-- Any number of names, also none. -/
  | names (list : List String)
  | expr (index : Nat)
  deriving DecidableEq, Repr

/-- Something said about an element on top of its tag and class. -/
inductive Binding where
  /-- An attribute without a value. -/
  | flag (name : String)
  /-- An attribute with a value that is known. -/
  | value (name text : String)
  /-- An attribute, property, style or event whose value is an expression. -/
  | named (kind : NamedProp) (name : String) (expr : Nat)
  /-- An expression that gets the node itself. -/
  | directive (expr : Nat)
  deriving DecidableEq, Repr

/-- An element without its content. -/
structure Head where
  tag : String
  cls : ClassPart
  bindings : List Binding
  deriving DecidableEq, Repr

/-- What stands inside an element. -/
inductive Content where
  | nil
  | text (text : String) (next : Content)
  | expr (index : Nat) (next : Content)
  | element (head : Head) (inner : Content) (next : Content)
  deriving DecidableEq, Repr

/-- An element. -/
structure Element where
  head : Head
  content : Content
  deriving DecidableEq, Repr

/-- Tags of elements that cannot have content. -/
def voidTags : List String :=
  ["audio", "video", "embed", "input", "param", "source", "textarea", "track", "area", "base",
    "link", "meta", "br", "col", "hr", "img", "wbr"]

namespace Head

/-- Is the element one that cannot have content? -/
def isVoid (head : Head) : Bool :=
  voidTags.contains head.tag

end Head

namespace Content

/-- How many expressions stand as content, at any depth. -/
def exprCount : Content → Nat
  | nil => 0
  | text _ next => next.exprCount
  | expr _ next => next.exprCount + 1
  | element _ inner next => inner.exprCount + next.exprCount

/-- Does an expression stand here as content? -/
def hasExpr : Content → Bool
  | nil => false
  | text _ next => next.hasExpr
  | expr _ _ => true
  | element _ _ next => next.hasExpr

/-- Is there anything but expressions? -/
def hasMarkup : Content → Bool
  | nil => false
  | text _ _ => true
  | expr _ next => next.hasMarkup
  | element _ _ _ => true

end Content

/--
What stands in front of an item: whether a text was the last piece of markup, and
whether an expression came after it. An item with an expression in front has to be
found again, because the expression's value goes before it. A text with both in
front has to be kept apart from the text before, or the two would be one node.
-/
structure Before where
  text : Bool := false
  expr : Bool := false
  deriving DecidableEq, Repr

namespace Before

/-- In front of the first item, and after an element. -/
def nothing : Before := {}

def afterText : Before := { text := true }

def afterExpr (before : Before) : Before := { before with expr := true }

/-- Does a text here need an anchor node in front? -/
def needsAnchor (before : Before) : Bool := before.text && before.expr

end Before
end Stencil
