import Stencil.Diagnostic
import Stencil.Json.Basic

/-!
# Diagnostics as JSON
-/

namespace Stencil.Diagnostic

def toJson (d : Diagnostic) : Json :=
  .ofFields [
    ("code", .ofString d.code),
    ("message", .ofString d.message),
    ("staticsOffset", .ofWord d.fragment),
    ("textOffset", .ofWord d.offset)]

/-- The diagnostic that a value stands for. All members are required. -/
def ofJson? (j : Json) : Option Diagnostic := do
  let fields ← j.record? ["code", "message", "staticsOffset", "textOffset"]
  let code ← (← fields.lookup "code").string?
  let message ← (← fields.lookup "message").string?
  let fragment ← (← fields.lookup "staticsOffset").word?
  let offset ← (← fields.lookup "textOffset").word?
  return { code, message, fragment, offset }

end Stencil.Diagnostic
