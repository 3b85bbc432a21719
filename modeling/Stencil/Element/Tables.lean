import Stencil.Element.Markup

/-!
# The tables behind the ops

Ops refer to expressions and names by their place in two tables. Both are filled in
the order of the template: the class and the bindings of an element, then its
content. An expression has an entry exactly if its value did not go into the markup.
-/

namespace Stencil

namespace ClassPart

def exprs (oracle : Oracle) : ClassPart → List Nat
  | names _ => []
  | expr i => if oracle i then [] else [i]

/-- The update of the class, whose expression gets number `n`. -/
def props (oracle : Oracle) (n : Nat) : ClassPart → List PropOp
  | names _ => []
  | expr i => if oracle i then [] else [.common .className n]

end ClassPart

namespace Binding

def exprs (oracle : Oracle) (b : Binding) : List Nat :=
  match b with
  | named _ _ i => if b.isHoisted oracle then [] else [i]
  | directive i => [i]
  | _ => []

def data (oracle : Oracle) (b : Binding) : List String :=
  match b with
  | named _ name _ => if b.isHoisted oracle then [] else [name]
  | _ => []

/-- The update that a binding asks for, with `n` and `m` the next numbers of the tables. -/
def props (oracle : Oracle) (n m : Nat) (b : Binding) : List PropOp :=
  match b with
  | named kind _ _ => if b.isHoisted oracle then [] else [.named kind n m]
  | directive _ => [.directive n]
  | _ => []

/-- The updates of several bindings. -/
def propsAll (oracle : Oracle) : Nat → Nat → List Binding → List PropOp
  | _, _, [] => []
  | n, m, b :: bs =>
    b.props oracle n m
      ++ propsAll oracle (n + (b.exprs oracle).length) (m + (b.data oracle).length) bs

end Binding

namespace Head

def exprs (oracle : Oracle) (head : Head) : List Nat :=
  head.cls.exprs oracle ++ head.bindings.flatMap (·.exprs oracle)

def data (oracle : Oracle) (head : Head) : List String :=
  head.bindings.flatMap (·.data oracle)

/-- The updates of an element, with `n` and `m` the next numbers of the tables. -/
def props (oracle : Oracle) (n m : Nat) (head : Head) : List PropOp :=
  head.cls.props oracle n
    ++ Binding.propsAll oracle (n + (head.cls.exprs oracle).length) m head.bindings

end Head

namespace Content

def exprs (oracle : Oracle) : Content → List Nat
  | nil => []
  | text _ next => next.exprs oracle
  | expr i next => i :: next.exprs oracle
  | element head inner next => head.exprs oracle ++ inner.exprs oracle ++ next.exprs oracle

def data (oracle : Oracle) : Content → List String
  | nil => []
  | text _ next => next.data oracle
  | expr _ next => next.data oracle
  | element head inner next => head.data oracle ++ inner.data oracle ++ next.data oracle

end Content

namespace Element

/-- The expressions that are evaluated again and again. -/
def exprs (oracle : Oracle) (e : Element) : List Nat :=
  e.head.exprs oracle ++ e.content.exprs oracle

/-- The names that ops refer to. -/
def data (oracle : Oracle) (e : Element) : List String :=
  e.head.data oracle ++ e.content.data oracle

end Element
end Stencil
