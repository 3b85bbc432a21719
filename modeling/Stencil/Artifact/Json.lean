import Stencil.Artifact.Basic
import Stencil.Json.Basic

/-!
# Artifacts as JSON

Ops and flags are stored as their words. Reading decodes every word, so an artifact
that was read and is written again may show other words: bits that no op uses are
gone.

All members are required, and members of other names are skipped. The members of an
object are read in the order of their names and the first one that cannot be read
decides why the artifact is refused; a missing member is noticed only after that. An
array has the members in the order they are written in, and is read in this order; a
missing one is noticed at its place, and items beyond the last at the end.
-/

namespace Stencil

/-- The three streams of ops. -/
inductive OpStream where
  | state
  | prop
  | child
  deriving DecidableEq, Repr

/-- Why a value is no artifact. -/
inductive Unreadable where
  /-- A member is missing or of the wrong kind. -/
  | shape
  /-- A word stands for no op. -/
  | word (stream : OpStream) (word : UInt32)
  deriving DecidableEq, Repr

namespace OpStream

def name : OpStream → String
  | state => "state"
  | prop => "prop"
  | child => "child"

end OpStream

namespace Unreadable

/-- What is said of a word that stands for no op. -/
def message? : Unreadable → Option String
  | shape => none
  | word stream w =>
    some ("Invalid artifact: invalid " ++ stream.name ++ " opcode word: " ++ toString w.toNat)

end Unreadable

namespace Part

def toJson : Part → Json
  | text s => .ofString s
  | expr i => .ofNat i

def ofJson? : Json → Option Part
  | .str s => (Json.string? (.str s)).map text
  | j => j.index?.map expr

end Part

namespace Skeleton

def toJson : Skeleton → Json
  | tag name => .ofString name
  | parts list => .ofList Part.toJson list

def ofJson? : Json → Option Skeleton
  | .str s => (Json.string? (.str s)).map tag
  | j => (j.list? Part.ofJson?).map parts

end Skeleton

namespace Artifact

def toJson (a : Artifact) : Json :=
  .ofFields [
    ("disableCloning", .bool a.disableCloning),
    ("flags", .ofWord a.flags.encode),
    ("template", a.template.toJson),
    ("propOpCodes", .ofList (fun op => .ofWord op.encode) a.propOps),
    ("childOpCodes", .ofList (fun op => .ofWord op.encode) a.childOps),
    ("stateOpCodes", .ofList (fun op => .ofWord op.encode) a.stateOps),
    ("data", .ofList .ofString a.data),
    ("dynamicExprs", .ofList .ofNat a.exprs)]

/-- An op from its word. -/
def readOp {α : Type} (stream : OpStream) (decode : UInt32 → Option α) (j : Json) :
    Except Unreadable α :=
  match j.word? with
  | none => .error .shape
  | some w =>
    match decode w with
    | none => .error (.word stream w)
    | some op => .ok op

/-- A stream of ops from its words. -/
def readOps {α : Type} (stream : OpStream) (decode : UInt32 → Option α) :
    Json → Except Unreadable (List α)
  | .arr items => items.mapM (readOp stream decode)
  | _ => .error .shape

/-- Refuses a value for its shape where `read?` finds nothing. -/
def readShape {α : Type} (read? : Json → Option α) (j : Json) : Except Unreadable α :=
  match read? j with
  | none => .error .shape
  | some x => .ok x

/-- A member, if the object has it. -/
def readMember {α : Type} (fields : List (String × Json)) (name : String)
    (read : Json → Except Unreadable α) : Except Unreadable (Option α) :=
  match fields.lookup name with
  | none => .ok none
  | some j => (read j).map some

/-- The item at a place. -/
def readItem {α : Type} (items : List Json) (place : Nat) (read : Json → Except Unreadable α) :
    Except Unreadable α :=
  match items[place]? with
  | none => .error .shape
  | some j => read j

def readCloning : Json → Except Unreadable Bool :=
  readShape Json.bool?

def readFlags : Json → Except Unreadable Flags :=
  readShape fun j => j.word?.map Flags.decode

def readTemplate : Json → Except Unreadable Skeleton :=
  readShape Skeleton.ofJson?

def readPropOps : Json → Except Unreadable (List PropOp) :=
  readOps .prop PropOp.decode

def readChildOps : Json → Except Unreadable (List ChildOp) :=
  readOps .child ChildOp.decode

def readStateOps : Json → Except Unreadable (List StateOp) :=
  readOps .state StateOp.decode

def readData : Json → Except Unreadable (List String) :=
  readShape (Json.list? Json.string?)

def readExprs : Json → Except Unreadable (List Nat) :=
  readShape (Json.list? Json.index?)

/-- The names of the members, in the order they are written in. -/
def memberNames : List String :=
  ["disableCloning", "flags", "template", "propOpCodes", "childOpCodes", "stateOpCodes", "data",
    "dynamicExprs"]

/-- The artifact of an object. -/
def readMembers (fields : List (String × Json)) : Except Unreadable Artifact := do
  let childOps ← readMember fields "childOpCodes" readChildOps
  let data ← readMember fields "data" readData
  let disableCloning ← readMember fields "disableCloning" readCloning
  let exprs ← readMember fields "dynamicExprs" readExprs
  let flags ← readMember fields "flags" readFlags
  let propOps ← readMember fields "propOpCodes" readPropOps
  let stateOps ← readMember fields "stateOpCodes" readStateOps
  let template ← readMember fields "template" readTemplate
  match childOps, data, disableCloning, exprs, flags, propOps, stateOps, template with
  | some childOps, some data, some disableCloning, some exprs, some flags, some propOps,
      some stateOps, some template =>
    .ok { childOps, data, disableCloning, exprs, flags, propOps, stateOps, template }
  | _, _, _, _, _, _, _, _ => .error .shape

/-- The artifact of an array. -/
def readItems (items : List Json) : Except Unreadable Artifact := do
  let disableCloning ← readItem items 0 readCloning
  let flags ← readItem items 1 readFlags
  let template ← readItem items 2 readTemplate
  let propOps ← readItem items 3 readPropOps
  let childOps ← readItem items 4 readChildOps
  let stateOps ← readItem items 5 readStateOps
  let data ← readItem items 6 readData
  let exprs ← readItem items 7 readExprs
  if items.length ≤ memberNames.length then
    .ok { disableCloning, flags, template, propOps, childOps, stateOps, data, exprs }
  else .error .shape

/-- The artifact that a value stands for. -/
def read : Json → Except Unreadable Artifact
  | .arr items => readItems items
  | j =>
    match j.fields? with
    | none => .error .shape
    | some fields => readMembers fields

end Artifact
end Stencil
