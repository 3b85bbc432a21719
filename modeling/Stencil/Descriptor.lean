import Stencil.Artifact.Basic
import Stencil.Json.Basic
import Stencil.Text.Names

/-!
# The code for a compiled template

A template is used from JavaScript: a constant holds the template, made by `_T` from
a factory for its nodes and the op streams, and each use is a call of `_t` with the
values of its expressions. The factory depends on whether the skeleton is a bare
tag, whether it is SVG, and whether its nodes may be cloned.
-/

namespace Stencil

/-- Where a template is used. -/
structure CallSite where
  /-- The name of the constant. -/
  id : String
  /-- The source text of the expressions. -/
  exprs : List String
  /-- The module that the helpers come from. -/
  runtimeModule : String := "ivi"
  deriving DecidableEq, Repr

/-- The code for a template. -/
structure Descriptor where
  /-- The declaration of the constant. -/
  declaration : String
  /-- The expression that uses it. -/
  instantiation : String
  /-- The helpers that both refer to. -/
  imports : List String
  deriving DecidableEq, Repr

namespace CallSite

/-- The source text of an expression, `undefined` where none was given. -/
def expr (site : CallSite) (i : Nat) : String :=
  site.exprs.getD i "undefined"

/-- The call site that a value stands for. -/
def ofJson? (j : Json) : Option CallSite := do
  let fields ← j.record? ["id", "exprs", "runtimeModule"]
  let id ← (← fields.lookup "id").string?
  let exprs ← (← fields.lookup "exprs").list? Json.string?
  let runtimeModule ← Json.optional? fields "runtimeModule" "ivi" Json.string?
  return { id, exprs, runtimeModule }

end CallSite

namespace Descriptor

/-- The helper that makes the nodes of a template. -/
def factory (a : Artifact) : String :=
  match a.template, a.flags.svg, a.disableCloning with
  | .tag _, false, _ => "_hE"
  | .tag _, true, _ => "_sE"
  | .parts _, false, false => "_h"
  | .parts _, false, true => "_hN"
  | .parts _, true, false => "_s"
  | .parts _, true, true => "_sN"

/-- A piece of markup as an operand of a concatenation. -/
def operand (site : CallSite) : Part → String
  | .text s => Json.quote s
  | .expr i => "(" ++ site.expr i ++ ")"

/-- The markup as an expression. It starts with a string, so that `+` concatenates. -/
def markup (site : CallSite) : List Part → String
  | [] => Json.quote ""
  | .expr i :: rest =>
    String.intercalate " + " (Json.quote "" :: (Part.expr i :: rest).map (operand site))
  | parts => String.intercalate " + " (parts.map (operand site))

/-- An array of values that are written already. -/
def array (items : List String) : String :=
  "[" ++ String.intercalate ", " items ++ "]"

/-- An array of words. -/
def words (ws : List UInt32) : String :=
  array (ws.map fun w => toString w.toNat)

/-- The argument of the factory. -/
def factoryArgument (site : CallSite) : Skeleton → String
  | .tag name => Json.quote name
  | .parts list => markup site list

/-- The code for an artifact at a call site. -/
def render (a : Artifact) (site : CallSite) : Descriptor :=
  let arguments := [
    factory a ++ "(" ++ factoryArgument site a.template ++ ")",
    toString a.flags.encode.toNat,
    words (a.propOps.map PropOp.encode),
    words (a.childOps.map ChildOp.encode),
    words (a.stateOps.map StateOp.encode),
    array (a.data.map Json.quote)]
  let values := if a.exprs.isEmpty then [] else [array (a.exprs.map site.expr)]
  { declaration := "const " ++ site.id ++ " = /*@__PURE__ @__IVI_TPL__*/ _T("
      ++ String.intercalate ", " arguments ++ ");"
    instantiation := "_t(" ++ String.intercalate ", " (site.id :: values) ++ ")"
    imports := ["_T", factory a, "_t"] }

/-- The names that descriptors refer to, each once, in the order of their code points. -/
def helpers (ds : List Descriptor) : List String :=
  Text.inOrder (ds.flatMap (·.imports))

/-- The import of all helpers, nothing if there are none. -/
def renderImports (ds : List Descriptor) (runtimeModule : String) : String :=
  match helpers ds with
  | [] => ""
  | names =>
    "import \x7b " ++ String.intercalate ", " names ++ " \x7d from " ++ Json.quote runtimeModule
      ++ ";"

end Descriptor
end Stencil
