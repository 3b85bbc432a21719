import Stencil.Json.Literal

/-!
# JSON values

A value is kept as it was written: numbers and strings keep their spelling, an
object keeps its members in order. What a spelling stands for is decided by whoever
reads the value, because readers differ. A count takes digits only, so `1.0` and
`1e0` are not counts; a string that no one reads may be spelled with half of a
surrogate pair.

The readers below are strict. Each accepts one kind of value and nothing that could
be converted to it, and `null` is never taken for a missing value.
-/

namespace Stencil

/-- A JSON value. -/
inductive Json where
  | null
  | bool (value : Bool)
  | num (spelling : List Char)
  | str (spelling : List Char)
  | arr (items : List Json)
  | obj (members : List (List Char × Json))

namespace Json

/-! ## Reading -/

def bool? : Json → Option Bool
  | bool b => some b
  | _ => none

def string? : Json → Option String
  | str s => (unescape [] s).map String.ofList
  | _ => none

/-- A number below `bound` that is written with digits alone. -/
def below? (bound : Nat) : Json → Option Nat
  | num ds =>
    if ds.all Char.isDigit then
      let n := Nat.ofDigitChars 10 ds 0
      if n < bound then some n else none
    else none
  | _ => none

/-- A 32-bit word. -/
def word? (j : Json) : Option UInt32 :=
  (j.below? UInt32.size).map Nat.toUInt32

/-- An index, which is a number of at most 64 bits. -/
def index? (j : Json) : Option Nat :=
  j.below? UInt64.size

def list? {α : Type} (item? : Json → Option α) : Json → Option (List α)
  | arr items => items.mapM item?
  | _ => none

/--
The members of an object by name, the last one first, so that a lookup finds the
last of several members of one name.
-/
def fields? : Json → Option (List (String × Json))
  | obj members =>
    members.reverse.mapM fun (name, value) =>
      (unescape [] name).map fun name => (String.ofList name, value)
  | _ => none

/--
The members of a record by name. A record is written as an object or as an array, which has
the members in the order of `names` and may leave out the last ones.
-/
def record? (names : List String) : Json → Option (List (String × Json))
  | arr items => if items.length ≤ names.length then some (names.zip items) else none
  | j => j.fields?

/-- Is no member of these names there twice? Other members may be. -/
def unrepeated (names : List String) (fields : List (String × Json)) : Bool :=
  names.all fun name => fields.countP (·.1 == name) ≤ 1

/-- A member that may be left out, but not spelled wrongly. -/
def optional? {α : Type} (fields : List (String × Json)) (name : String) (default : α)
    (read? : Json → Option α) : Option α :=
  match fields.lookup name with
  | none => some default
  | some j => read? j

/-! ## Building -/

def ofNat (n : Nat) : Json :=
  num (Nat.toDigits 10 n)

def ofWord (w : UInt32) : Json :=
  ofNat w.toNat

def ofString (s : String) : Json :=
  str (escape s.toList)

def ofList {α : Type} (item : α → Json) (xs : List α) : Json :=
  arr (xs.map item)

def ofFields (fields : List (String × Json)) : Json :=
  obj (fields.map fun (name, value) => (escape name.toList, value))

/-! ## Writing -/

mutual

/-- A value without any blank space, as a text in front of `rest`. -/
def writeOnto : Json → List Char → List Char
  | null, rest => 'n' :: 'u' :: 'l' :: 'l' :: rest
  | bool true, rest => 't' :: 'r' :: 'u' :: 'e' :: rest
  | bool false, rest => 'f' :: 'a' :: 'l' :: 's' :: 'e' :: rest
  | num s, rest => s ++ rest
  | str s, rest => '"' :: s ++ '"' :: rest
  | arr items, rest => '[' :: writeItems items (']' :: rest)
  | obj members, rest => '{' :: writeMembers members ('}' :: rest)

/-- Items with commas between them. -/
def writeItems : List Json → List Char → List Char
  | [], rest => rest
  | [j], rest => j.writeOnto rest
  | j :: js, rest => j.writeOnto (',' :: writeItems js rest)

/-- Members with commas between them. -/
def writeMembers : List (List Char × Json) → List Char → List Char
  | [], rest => rest
  | [(name, j)], rest => '"' :: name ++ '"' :: ':' :: j.writeOnto rest
  | (name, j) :: more, rest =>
    '"' :: name ++ '"' :: ':' :: j.writeOnto (',' :: writeMembers more rest)

end

/-- The compact text of a value. -/
def render (j : Json) : String :=
  String.ofList (j.writeOnto [])

end Json
end Stencil
