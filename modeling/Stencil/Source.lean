import Stencil.Compiler
import Stencil.Json.Basic

/-!
# Templates as they are handed in

A source is the fragments of a template together with all that compiling it depends
on: whether it is SVG, and which of its expressions are invariant.
-/

namespace Stencil

/-- A template to be compiled. -/
structure Source where
  fragments : List String
  svg : Bool := false
  /-- Whether each expression is invariant. Those beyond the list are not. -/
  invariant : List Bool := []
  deriving DecidableEq, Repr

/-- The oracle that answers from a list. -/
def Oracle.ofList (answers : List Bool) : Oracle :=
  fun i => answers.getD i false

namespace Source

/-- Compiles a source with a compiler that may have been used before. -/
def compileWith (s : Source) (c : Compiler) : Outcome × Compiler :=
  c.compile (.ofList s.invariant) s.svg s.fragments

/-- Compiles a source with a new compiler. -/
def compile (s : Source) : Outcome :=
  (s.compileWith {}).1

/-- The source that a value stands for. -/
def ofJson? (j : Json) : Option Source := do
  let fields ← j.record? ["statics", "svg", "invariantExprs"]
  let fragments ← (← fields.lookup "statics").list? Json.string?
  let svg ← Json.optional? fields "svg" false Json.bool?
  let invariant ← Json.optional? fields "invariantExprs" [] (Json.list? Json.bool?)
  return { fragments, svg, invariant }

end Source
end Stencil
