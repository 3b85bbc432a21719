import Stencil.Notice
import Stencil.Reader.Place
import Stencil.Artifact.Basic
import Stencil.Element.Parser
import Stencil.Element.Sites
import Stencil.Emission

/-!
# Compiling a template

Reading comes first and does not depend on the oracle, except that a nested element
may turn out too large. The rest is computed from the element that was read: its
markup, its walk, its tables, and the ops of its sites with the slots filled in.

The counts in the artifact have fixed room. Whether they fit is checked at the end,
and if they do not, the fault is placed where reading stopped.
-/

namespace Stencil

namespace Fault

/-- The diagnostic for a fault that has no place. -/
def unplaced (fault : Fault) : Diagnostic :=
  .place fault.code fault.message 0 0

end Fault

namespace Artifact

/-- The largest count of slots and of dynamic children. -/
def maxCount : Nat := 1023

/-- The largest size of the tables. -/
def maxTable : Nat := 4096

/-- Do the counts fit the fields that hold them? -/
def fits (a : Artifact) : Bool :=
  a.flags.slots ≤ maxCount && a.flags.children ≤ maxCount && a.data.length ≤ maxTable
    && a.exprs.length ≤ maxTable

end Artifact

namespace Template

/-- The artifact of a template, whether or not its counts fit. -/
def artifact (oracle : Oracle) (svg : Bool) (t : Template) : Except Fault Artifact :=
  let walk := t.root.content.walk oracle
  let slots := Slots.ofWalk walk
  let ops := (t.root.sites oracle).emit slots
  match ops.fault with
  | some fault => .error fault
  | none =>
    .ok {
      disableCloning := t.disableCloning
      flags := { svg, slots := slots.size, children := t.root.content.exprCount }
      template := t.root.skeleton oracle
      propOps := ops.props
      childOps := ops.children
      stateOps := walk
      data := t.root.data oracle
      exprs := t.root.exprs oracle
    }

end Template

/-- What comes of compiling a template. -/
structure Outcome where
  result : Except Diagnostic Artifact
  /-- The expressions that the oracle was asked about, in order. -/
  asked : List Nat := []
  notices : List Notice := []

/-- Compiles the fragments of a template. -/
def compile (oracle : Oracle) (svg : Bool) (fragments : List String) : Outcome :=
  if fragments.isEmpty then { result := .error Fault.emptyTemplate.unplaced }
  else
    match Template.read (Element.fits oracle) (Reader.ofFragments fragments) with
    | .error failure =>
      { result := .error (failure.diagnostic fragments), asked := failure.reader.asked.reverse }
    | .ok (template, reader) =>
      let asked := reader.asked.reverse
      match template.artifact oracle svg with
      | .error fault => { result := .error fault.unplaced, asked }
      | .ok artifact =>
        if artifact.fits then
          { result := .ok artifact, asked,
            notices := [.compiled template.root.head.tag artifact.flags.slots
              artifact.flags.children artifact.exprs.length] }
        else
          { result := .error (Failure.diagnostic ⟨.templateSize, reader⟩ fragments), asked }

end Stencil
