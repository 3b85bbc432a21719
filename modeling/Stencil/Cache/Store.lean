import Stencil.Text.Names

/-!
# The folder of a cache

What a cache can see of the disk: one folder inside a base folder, with files and
folders in it. The folder may be missing, and a plain file may stand in its place or
in the place of its base; then nothing can be read or written.
-/

namespace Stencil

/-- What stands under a name. -/
inductive Item where
  | file (bytes : ByteArray)
  | folder

/-- The folder of a cache. -/
inductive Store where
  /-- A plain file stands in the place of the base folder. -/
  | unreachable
  /-- The base is there and the folder is not. -/
  | absent
  /-- A plain file stands in the place of the folder. -/
  | blocked
  | folder (items : List (String × Item))

namespace Store

/-- What stands under a name in the folder. -/
def get? (store : Store) (name : String) : Option Item :=
  match store with
  | folder items => items.lookup name
  | _ => none

/-- The text of a file, if there is one and its bytes are UTF-8. -/
def text? (store : Store) (name : String) : Option String :=
  match store.get? name with
  | some (.file bytes) => String.fromUTF8? bytes
  | _ => none

/-- The items without those of a name. -/
def without (name : String) (items : List (String × Item)) : List (String × Item) :=
  items.filter (·.1 != name)

/-- Writes a file, which replaces an older file but not a folder. -/
def write? (store : Store) (name : String) (bytes : ByteArray) : Option Store :=
  match store with
  | folder items =>
    match items.lookup name with
    | some .folder => none
    | _ => some (folder ((name, .file bytes) :: without name items))
  | _ => none

/-- The bytes of a file after new ones were written into it from an offset on. A gap before
them is filled with zeros. -/
def overwrite (old : List UInt8) (offset : Nat) (new : List UInt8) : List UInt8 :=
  old.take offset ++ List.replicate (offset - old.length) 0 ++ new ++ old.drop (offset + new.length)

/-- Writes into a file from an offset on, if the file is there. -/
def patch (store : Store) (name : String) (offset : Nat) (bytes : List UInt8) : Store :=
  match store with
  | folder items =>
    match items.lookup name with
    | some (.file old) =>
      folder ((name, .file ⟨(overwrite old.data.toList offset bytes).toArray⟩) ::
        without name items)
    | _ => store
  | _ => store

/-- Makes a folder in the folder, under a name where nothing stands yet. -/
def makeFolder? (store : Store) (name : String) : Option Store :=
  match store with
  | folder items =>
    match items.lookup name with
    | some _ => none
    | none => some (folder ((name, .folder) :: items))
  | _ => none

/-- Deletes a file. -/
def deleteFile (store : Store) (name : String) : Store :=
  match store with
  | folder items =>
    match items.lookup name with
    | some (.file _) => folder (without name items)
    | _ => store
  | _ => store

/-- Makes the folder itself, if nothing is in its place. There is no way if its base is a file. -/
def create? : Store → Option Store
  | unreachable => none
  | absent => some (folder [])
  | store => some store

/-- Deletes the folder, or the file in its place. -/
def remove : Store → Store
  | unreachable => unreachable
  | _ => absent

/-- Puts a file in place of the folder. -/
def block : Store → Store
  | unreachable => unreachable
  | _ => blocked

/-- Puts a file in place of the base folder. -/
def blockBase (_ : Store) : Store :=
  unreachable

/-- The names in the folder, in increasing order. -/
def names : Store → List String
  | folder items => Text.inOrder (items.map (·.1))
  | _ => []

end Store
end Stencil
