import Stencil.Text.Size
import Stencil.Fault

/-!
# Diagnostics

A diagnostic is a code, a message and a place: the number of a fragment and an
offset in it, counted in UTF-16 code units. Both numbers are 32-bit words, so a
larger number is cut to its low 32 bits.

A place is turned back into a line and a column by walking the fragment's
characters for as long as they end at or before the offset. An offset inside a
surrogate pair therefore stops before that character.
-/

namespace Stencil

/-- The text of a fragment, empty if there is none of that number. -/
def fragmentText (fragments : List String) (index : Nat) : List Char :=
  ((fragments[index]?).getD "").toList

/-- A refusal with its place in the template. -/
structure Diagnostic where
  code : String
  message : String
  /-- Which fragment. -/
  fragment : UInt32
  /-- Where in the fragment, in UTF-16 code units. -/
  offset : UInt32
  deriving DecidableEq, Repr

/-- A line and a column, both counted from one. Columns count characters. -/
structure Location where
  line : Nat := 1
  column : Nat := 1
  deriving DecidableEq, Repr

namespace Location

/-- The place after one more character. -/
def advance (l : Location) (c : Char) : Location :=
  if c = '\n' then { line := l.line + 1, column := 1 } else { l with column := l.column + 1 }

/-- The place after the characters of a text that end within `n` code units. -/
def walk (l : Location) : Nat → List Char → Location
  | _, [] => l
  | n, c :: cs =>
    if Text.charUnits c ≤ n then (l.advance c).walk (n - Text.charUnits c) cs else l

end Location

namespace Diagnostic

/-- A diagnostic at a given offset. -/
def place (code message : String) (fragment offset : Nat) : Diagnostic :=
  { code, message, fragment := fragment.toUInt32, offset := offset.toUInt32 }

/--
A diagnostic at a byte of `text`. A byte that no character starts at, or that lies
past the end, counts as the end of the text.
-/
def placeAtByte (code message : String) (fragment : Nat) (text : List Char) (byte : Nat) :
    Diagnostic :=
  place code message fragment (Text.units ((Text.takeBytes? byte text).getD text))

/-- The text of the fragment that a diagnostic is about. -/
def text (d : Diagnostic) (fragments : List String) : List Char :=
  fragmentText fragments d.fragment.toNat

/-- Line and column of a diagnostic in its fragment. -/
def location (d : Diagnostic) (fragments : List String) : Location :=
  ({} : Location).walk d.offset.toNat (d.text fragments)

/-- The message, the fragment and a caret as far to the right as the column says. -/
def frame (d : Diagnostic) (fragments : List String) : String :=
  let spaces := String.ofList (List.replicate ((d.location fragments).column - 1) ' ')
  d.message ++ "\n\n" ++ String.ofList (d.text fragments) ++ "\n" ++ spaces ++ "^\n"

/-- A diagnostic on one line. -/
def render (d : Diagnostic) : String :=
  "[" ++ d.code ++ "] " ++ d.message ++ " (fragment " ++ toString d.fragment.toNat ++ ", offset "
    ++ toString d.offset.toNat ++ ")"

end Diagnostic
end Stencil
