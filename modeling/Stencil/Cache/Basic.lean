import Stencil.Artifact.Json
import Stencil.Cache.Key
import Stencil.Cache.Store
import Stencil.Json.Parser
import Stencil.Notice

/-!
# Keeping artifacts

The artifact of a source is kept in a file named for the source's key. The file also
holds the key, so that an entry that was moved or written by someone else is not
taken for the answer.

Nothing that is wrong with a folder or an entry stops anyone: an entry that cannot be
used counts as missing. A file that is text but no entry is deleted. A file that is
no text, and one with another key in it, stay where they are.
-/

namespace Stencil

/-- What the file of a source holds. -/
structure CacheEntry where
  hash : String
  artifact : Artifact
  deriving DecidableEq, Repr

namespace CacheEntry

def toJson (e : CacheEntry) : Json :=
  .ofFields [("hash", .ofString e.hash), ("artifact", e.artifact.toJson)]

/-- The text of an entry. -/
def render (e : CacheEntry) : String :=
  e.toJson.render

/-- The members of an entry or of the artifact in it. None may be there twice. -/
def members? (names : List String) (j : Json) : Option (List (String × Json)) :=
  (j.record? names).filter (Json.unrepeated names)

/-- The entry that a text holds. -/
def parse? (text : String) : Option CacheEntry := do
  let fields ← members? ["hash", "artifact"] (← Json.parse? text)
  let hash ← (← fields.lookup "hash").string?
  let artifact ← fields.lookup "artifact"
  let _ ← members? Artifact.memberNames artifact
  return { hash, artifact := ← (Artifact.read artifact).toOption }

end CacheEntry

/-- A result of working with a store: what came of it, the store after it, and the log. -/
structure Stored (α : Type) where
  value : α
  store : Store
  notices : List Notice := []

namespace Cache

/-- The file of a key. -/
def fileName (hash : String) : String :=
  hash ++ ".json"

/-- Makes sure that there is a folder, as far as that is possible. -/
def ready (store : Store) : Stored Unit :=
  match store.create? with
  | some store => { value := (), store }
  | none => { value := (), store, notices := [.cannotCreateFolder] }

/-- What is found under a key. -/
inductive Finding where
  | missing
  /-- A text that is no entry. -/
  | corrupt
  | found (artifact : Artifact)

/-- Reads the entry of a key. -/
def find (store : Store) (hash : String) : Finding :=
  match store.text? (fileName hash) with
  | none => .missing
  | some text =>
    match CacheEntry.parse? text with
    | none => .corrupt
    | some entry => if entry.hash = hash then .found entry.artifact else .missing

/-- The artifact that is kept for a key. -/
def lookup (store : Store) (hash : String) : Stored (Option Artifact) :=
  match find store hash with
  | .missing => { value := none, store }
  | .corrupt =>
    { value := none, store := store.deleteFile (fileName hash), notices := [.corruptEntry hash] }
  | .found artifact => { value := some artifact, store }

/-- The bytes of the entry of a key. -/
def entryBytes (hash : String) (artifact : Artifact) : List UInt8 :=
  (CacheEntry.render { hash, artifact }).toUTF8.data.toList

/-- Makes an empty file for a key, in place of an older one. -/
def begin? (store : Store) (hash : String) : Option Store :=
  store.write? (fileName hash) ByteArray.empty

/-- Keeps an artifact for a key. -/
def insert (store : Store) (hash : String) (artifact : Artifact) : Stored Unit :=
  match begin? store hash with
  | some store =>
    { value := (), store := store.patch (fileName hash) 0 (entryBytes hash artifact) }
  | none => { value := (), store, notices := [.cannotWriteEntry] }

/-- The artifact that is kept for a source. -/
def get (store : Store) (source : Source) : Stored (Option Artifact) :=
  lookup store source.hash

/-- Keeps an artifact for a source. -/
def set (store : Store) (source : Source) (artifact : Artifact) : Stored Unit :=
  insert store source.hash artifact

end Cache
end Stencil
