import Stencil.Text.Escape
import Stencil.Skeleton
import Stencil.Element.Basic

/-!
# What an element looks like in the markup

Everything that is known when the template is compiled goes into the markup: tags,
class names, literal attribute values and texts, and also the values of the class
and attribute expressions that the oracle calls invariant. All other expressions
leave no trace in it, except that two texts with nothing but expressions between
them are kept apart by the anchor `<!>`.
-/

namespace Stencil

/-- Says of an expression whether its value never changes. -/
abbrev Oracle := Nat → Bool

namespace ClassPart

def markup (oracle : Oracle) : ClassPart → List Part
  | names [] => []
  | names (n :: ns) => [.text (" class=\"" ++ String.intercalate " " (n :: ns) ++ "\"")]
  | expr i => if oracle i then [.text " class=\"", .expr i, .text "\""] else []

end ClassPart

namespace Binding

/-- Does the value go into the markup? Only an attribute's can. -/
def isHoisted (oracle : Oracle) : Binding → Bool
  | named .attr _ i => oracle i
  | _ => false

def markup (oracle : Oracle) (b : Binding) : List Part :=
  match b with
  | flag name => [.text (" " ++ name)]
  | value name text => [.text (" " ++ name ++ "=\"" ++ Text.escape .attributeValue text ++ "\"")]
  | named _ name i =>
    if b.isHoisted oracle then [.text (" " ++ name ++ "=\""), .expr i, .text "\""] else []
  | directive _ => []

end Binding

namespace Head

/-- The class and the attributes that are known. -/
def attrs (oracle : Oracle) (head : Head) : List Part :=
  head.cls.markup oracle ++ head.bindings.flatMap (·.markup oracle)

/-- The opening tag. -/
def opening (oracle : Oracle) (head : Head) : List Part :=
  .text ("<" ++ head.tag) :: head.attrs oracle ++ [.text ">"]

/-- The closing tag, if the element can have content. -/
def closing (head : Head) : List Part :=
  if head.isVoid then [] else [.text ("</" ++ head.tag ++ ">")]

end Head

namespace Content

def markup (oracle : Oracle) : Before → Content → List Part
  | _, nil => []
  | before, text s next =>
    (if before.needsAnchor then [.text "<!>"] else [])
      ++ .text (Text.escape .running s) :: next.markup oracle .afterText
  | before, expr _ next => next.markup oracle before.afterExpr
  | _, element head inner next =>
    head.opening oracle ++ inner.markup oracle .nothing ++ head.closing
      ++ next.markup oracle .nothing

end Content

namespace Element

def markup (oracle : Oracle) (e : Element) : List Part :=
  e.head.opening oracle ++ e.content.markup oracle .nothing ++ e.head.closing

/-- Is the tag all that goes into the markup? -/
def isBare (oracle : Oracle) (e : Element) : Bool :=
  (e.head.attrs oracle).isEmpty && !e.content.hasMarkup

def skeleton (oracle : Oracle) (e : Element) : Skeleton :=
  if e.isBare oracle then .tag e.head.tag else .parts (Part.merge (e.markup oracle))

end Element
end Stencil
