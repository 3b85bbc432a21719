import Stencil.Diagnostic
import Stencil.Reader

/-!
# Where a reader stands

A reader knows what is left of its fragment. Held against the whole fragment, that
gives the byte it stands at, and a diagnostic is placed at that byte.
-/

namespace Stencil

namespace Reader

/-- The byte of its fragment that a reader stands at. -/
def byte (r : Reader) (fragments : List String) : Nat :=
  Text.bytes (fragmentText fragments r.index) - Text.bytes r.rest

/-- A diagnostic at the place of a reader. -/
def place (r : Reader) (code message : String) (fragments : List String) : Diagnostic :=
  .placeAtByte code message r.index (fragmentText fragments r.index) (r.byte fragments)

end Reader

namespace Failure

/-- The diagnostic for a fault at the place where reading stood. -/
def diagnostic (failure : Failure) (fragments : List String) : Diagnostic :=
  failure.reader.place failure.fault.code failure.fault.message fragments

end Failure
end Stencil
