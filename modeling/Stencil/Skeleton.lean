/-!
# The markup of a template

The markup is text with holes where the values of expressions are put in once and
for all. An element that has nothing but its tag is kept as the tag alone, since it
can be made without parsing any markup.
-/

namespace Stencil

/-- A piece of markup. -/
inductive Part where
  | text (text : String)
  /-- A hole for the value of an expression. -/
  | expr (index : Nat)
  deriving DecidableEq, Repr

/-- The markup of a template. -/
inductive Skeleton where
  | tag (name : String)
  | parts (list : List Part)
  deriving DecidableEq, Repr

namespace Part

/-- The same markup with neighbouring texts joined. -/
def merge : List Part → List Part
  | [] => []
  | expr index :: rest => expr index :: merge rest
  | text head :: rest =>
    match merge rest with
    | text tail :: rest => text (head ++ tail) :: rest
    | rest => text head :: rest

end Part
end Stencil
