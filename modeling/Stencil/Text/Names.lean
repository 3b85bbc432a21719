/-!
# Lists of names in order

Names are ordered by their code points. A list that is built by inserting names one
by one holds each of them once, and does not depend on the order they came in.
-/

namespace Stencil.Text

/-- Puts a name into its place among names in increasing order, unless it is there. -/
def insertName (name : String) : List String → List String
  | [] => [name]
  | n :: ns =>
    if name < n then name :: n :: ns
    else if name = n then n :: ns
    else n :: insertName name ns

/-- The names of a list in increasing order, each once. -/
def inOrder (names : List String) : List String :=
  names.foldr insertName []

end Stencil.Text
