/-!
# What is logged along the way
-/

namespace Stencil

/-- A line of the log. -/
inductive Notice where
  /-- A template was compiled. -/
  | compiled (tag : String) (slots children exprs : Nat)
  /-- A batch is done, with some of its templates found in the cache. -/
  | batchDone (templates hits : Nat)
  /-- A cache entry could not be read as one. -/
  | corruptEntry (hash : String)
  | cannotWriteEntry
  | cannotCreateFolder
  deriving DecidableEq, Repr

namespace Notice

/-- The level and the text of a line. -/
def render : Notice → String
  | compiled tag slots children exprs =>
    "DEBUG: compiled <" ++ tag ++ "> template: " ++ toString slots ++ " slots, "
      ++ toString children ++ " dynamic children, " ++ toString exprs ++ " exprs"
  | batchDone templates hits =>
    "DEBUG: compiled " ++ toString templates ++ " templates (" ++ toString hits ++ " cache hits)"
  | corruptEntry hash => "WARN: template cache entry " ++ hash ++ " is corrupt"
  | cannotWriteEntry => "WARN: cannot write template cache entry"
  | cannotCreateFolder => "WARN: cannot create template cache dir"

end Notice
end Stencil
