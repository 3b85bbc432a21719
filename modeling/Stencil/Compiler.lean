import Stencil.Compile
import Stencil.Draft.Parser

/-!
# Compilers

A compiler owns the tables that it reads templates into. They are emptied before a template
is read, so that nothing of an earlier one gets into its artifact, and again afterwards,
whether it was compiled or refused.
-/

namespace Stencil

namespace Draft

/-- The ops of the record numbered `root`, with those of the records inside it. -/
def emit (d : Draft) (slots : Slots) (root : Option Nat) : Emission :=
  match root with
  | some id => (Sites.ofRecords d.sites id).emit slots
  | none => {}

/-- The artifact that the tables hold, whether or not its counts fit. `root` is the number of
the root's record, if it has one. -/
def artifact (d : Draft) (svg disableCloning : Bool) (root : Option Nat) : Except Fault Artifact :=
  let walk := d.walk.toList
  let slots := Slots.ofWalk walk
  let ops := d.emit slots root
  match ops.fault with
  | some fault => .error fault
  | none =>
    .ok {
      disableCloning
      flags := { svg, slots := slots.size, children := d.children }
      template := if d.hasStatics then .parts d.markup.toList else .tag d.rootTag
      propOps := ops.props
      childOps := ops.children
      stateOps := walk
      data := d.data.toList
      exprs := d.exprs.toList
    }

end Draft

/-- Something that compiles one template after another. -/
structure Compiler where
  draft : Draft := {}
  deriving DecidableEq, Repr

namespace Compiler

def reset (c : Compiler) : Compiler :=
  { c with draft := c.draft.reset }

/-- Compiles the fragments of a template into the tables as they are. -/
def run (c : Compiler) (oracle : Oracle) (svg : Bool) (fragments : List String) :
    Outcome × Compiler :=
  if fragments.isEmpty then ({ result := .error Fault.emptyTemplate.unplaced }, c)
  else
    match (Reader.ofFragments fragments).options with
    | .error failure =>
      ({ result := .error (failure.diagnostic fragments)
         asked := failure.reader.asked.reverse }, c)
    | .ok (disableCloning, s) =>
      let read := s.elementInto oracle none c.draft
      let after := { c with draft := read.draft }
      match read.result with
      | .error failure =>
        ({ result := .error (failure.diagnostic fragments), asked := failure.reader.asked.reverse },
          after)
      | .ok (root, reader) =>
        let asked := reader.asked.reverse
        match read.draft.artifact svg disableCloning root with
        | .error fault => ({ result := .error fault.unplaced, asked }, after)
        | .ok artifact =>
          if artifact.fits then
            ({ result := .ok artifact, asked,
               notices := [.compiled read.draft.rootTag artifact.flags.slots artifact.flags.children
                 artifact.exprs.length] }, after)
          else
            ({ result := .error (Failure.diagnostic ⟨.templateSize, reader⟩ fragments), asked },
              after)

/-- Compiles the fragments of a template. -/
def compile (c : Compiler) (oracle : Oracle) (svg : Bool) (fragments : List String) :
    Outcome × Compiler :=
  let done := c.reset.run oracle svg fragments
  (done.1, done.2.reset)

end Compiler
end Stencil
