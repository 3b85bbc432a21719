import Stencil.Text.Hex

/-!
# How strings are spelled in JSON

A string is written between quotes. A quote, a backslash and the control characters
below U+0020 are written as escapes, everything else stands for itself.

Reading comes in two steps. `spelling` finds the closing quote and checks that every
escape is one that JSON has. `unescape` says which text a spelling stands for; a
`\u` escape names a UTF-16 code unit, so half of a surrogate pair on its own stands
for no text, although its spelling is fine.
-/

namespace Stencil.Json

open Text (hexDigit hexDigit?)

/-- Blank space between the tokens of a JSON text. -/
def isBlank (c : Char) : Bool :=
  c == ' ' || c == '\n' || c == '\t' || c == '\r'

/-- The value of four hexadecimal digits. -/
def hex4? (a b c d : Char) : Option Nat :=
  match hexDigit? a, hexDigit? b, hexDigit? c, hexDigit? d with
  | some a, some b, some c, some d => some (4096 * a + 256 * b + 16 * c + d)
  | _, _, _, _ => none

/-- The character that a one-letter escape stands for. -/
def escaped? : Char → Option Char
  | '"' => some '"'
  | '\\' => some '\\'
  | '/' => some '/'
  | 'b' => some '\x08'
  | 'f' => some '\x0c'
  | 'n' => some '\n'
  | 'r' => some '\r'
  | 't' => some '\t'
  | _ => none

/--
The spelling of a string whose opening quote has been read, and what follows its
closing quote. `done` holds the spelling so far, last character first.
-/
def spelling (done : List Char) : List Char → Option (List Char × List Char)
  | [] => none
  | '"' :: rest => some (done.reverse, rest)
  | '\\' :: 'u' :: a :: b :: c :: d :: rest =>
    if (hex4? a b c d).isSome then spelling (d :: c :: b :: a :: 'u' :: '\\' :: done) rest
    else none
  | '\\' :: c :: rest =>
    if (escaped? c).isSome then spelling (c :: '\\' :: done) rest else none
  | c :: rest => if c.toNat < 0x20 ∨ c = '\\' then none else spelling (c :: done) rest

/-- Reading a string uses text up. -/
theorem length_of_spelling {done s t rest : List Char} (h : spelling done s = some (t, rest)) :
    rest.length < s.length := by
  fun_induction spelling done s <;> simp_all <;> omega

/--
The text that a spelling stands for. `done` holds the text so far, last character
first.
-/
def unescape (done : List Char) : List Char → Option (List Char)
  | [] => some done.reverse
  | '\\' :: 'u' :: a :: b :: c :: d :: rest =>
    match hex4? a b c d with
    | none => none
    | some unit =>
      if unit < 0xD800 ∨ 0xDFFF < unit then unescape (Char.ofNat unit :: done) rest
      else
        match rest with
        | '\\' :: 'u' :: e :: f :: g :: h :: rest =>
          match hex4? e f g h with
          | none => none
          | some low =>
            if unit < 0xDC00 ∧ 0xDC00 ≤ low ∧ low ≤ 0xDFFF then
              unescape (Char.ofNat (0x10000 + 0x400 * (unit - 0xD800) + (low - 0xDC00)) :: done) rest
            else none
        | _ => none
  | '\\' :: c :: rest =>
    match escaped? c with
    | some x => unescape (x :: done) rest
    | none => none
  | c :: rest => unescape (c :: done) rest
termination_by structural s => s

/-- How a character is written in a string. -/
def escapeChar (c : Char) : List Char :=
  if c = '"' then ['\\', '"']
  else if c = '\\' then ['\\', '\\']
  else if c = '\x08' then ['\\', 'b']
  else if c = '\t' then ['\\', 't']
  else if c = '\n' then ['\\', 'n']
  else if c = '\x0c' then ['\\', 'f']
  else if c = '\r' then ['\\', 'r']
  else if c.toNat < 0x20 then ['\\', 'u', '0', '0', hexDigit (c.toNat / 16), hexDigit (c.toNat % 16)]
  else [c]

/-- The spelling of a text. -/
def escape (text : List Char) : List Char :=
  text.flatMap escapeChar

/-- A text as a JSON string, quotes included. -/
def quote (text : String) : String :=
  String.ofList ('"' :: escape text.toList ++ ['"'])

end Stencil.Json
