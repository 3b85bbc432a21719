import Stencil.Cache.Basic

/-!
# Workers

A batch is divided among workers. Each has its own compiler and its own templates, which
it works through in order, and all of them share the folder of the cache. A worker takes
one step at a time, and between two of its steps the others may take any number of theirs.

For one template the steps are: read its entry; delete what was there if it was no entry;
compile; make an empty file; write the entry into it, in one piece or several. A file is
read as it is at one moment, which may be before all of an entry is written.

The disk may refuse any step on it. A file may also be deleted while it is written. The
rest of its entry then goes nowhere, although another file may have the same name by then.
-/

namespace Stencil

/-- Whether a template was found in the store, and what came of it. -/
structure Answer where
  hit : Bool
  result : Except Diagnostic Artifact

/-- What a worker does next for its first template. -/
inductive Phase where
  /-- Read the entry. -/
  | look
  /-- Delete a file that is no entry. -/
  | drop
  | compile
  /-- Make the file for the entry. -/
  | create (artifact : Artifact)
  /-- Write what is missing after the first `written` bytes of the entry. -/
  | fill (artifact : Artifact) (written : Nat)

/-- What becomes of a step on the disk. -/
inductive Chance where
  /-- It is done, and a write in full. -/
  | full
  /-- A write takes no more than `count + 1` bytes. -/
  | part (count : Nat)
  /-- The same, but the file that is written was deleted. -/
  | stray (count : Nat)
  /-- It is refused. -/
  | refused
  deriving DecidableEq, Repr

/-- Someone who works through templates. -/
structure Worker where
  compiler : Compiler := {}
  todo : List Source
  /-- The answers for the templates that are done. -/
  answers : List Answer := []
  phase : Phase := .look

namespace Worker

/-- Goes on with the same template. -/
def proceed (w : Worker) (phase : Phase) : Worker :=
  { w with phase }

/-- Goes on to the next template. -/
def finish (w : Worker) (answer : Answer) : Worker :=
  { w with todo := w.todo.tail, answers := w.answers ++ [answer], phase := .look }

/-- Reads the entry of a source. -/
def look (w : Worker) (chance : Chance) (store : Store) (source : Source) : Stored Worker :=
  if chance = .refused then { value := w.proceed .compile, store }
  else
    match Cache.find store source.hash with
    | .missing => { value := w.proceed .compile, store }
    | .corrupt => { value := w.proceed .drop, store, notices := [.corruptEntry source.hash] }
    | .found artifact => { value := w.finish { hit := true, result := .ok artifact }, store }

/-- Deletes the file of a source. -/
def drop (w : Worker) (chance : Chance) (store : Store) (source : Source) : Stored Worker :=
  if chance = .refused then { value := w.proceed .compile, store }
  else { value := w.proceed .compile, store := store.deleteFile (Cache.fileName source.hash) }

/-- Compiles a source. -/
def compile (w : Worker) (store : Store) (source : Source) : Stored Worker :=
  let done := source.compileWith w.compiler
  let w := { w with compiler := done.2 }
  match done.1.result with
  | .error d =>
    { value := w.finish { hit := false, result := .error d }, store, notices := done.1.notices }
  | .ok artifact =>
    { value := w.proceed (.create artifact), store, notices := done.1.notices }

/-- Makes the file of a source. -/
def create (w : Worker) (chance : Chance) (store : Store) (source : Source)
    (artifact : Artifact) : Stored Worker :=
  match if chance = .refused then none else Cache.begin? store source.hash with
  | some begun => { value := w.proceed (.fill artifact 0), store := begun }
  | none =>
    { value := w.finish { hit := false, result := .ok artifact }, store,
      notices := [.cannotWriteEntry] }

/-- The entry of a source is written up to a point. -/
def reach (w : Worker) (source : Source) (artifact : Artifact) (written : Nat) : Worker :=
  if (Cache.entryBytes source.hash artifact).length ≤ written then
    w.finish { hit := false, result := .ok artifact }
  else w.proceed (.fill artifact written)

/-- Writes a piece of the entry of a source, or all that is missing. -/
def fill (w : Worker) (chance : Chance) (store : Store) (source : Source) (artifact : Artifact)
    (written : Nat) : Stored Worker :=
  let missing := (Cache.entryBytes source.hash artifact).drop written
  let file := Cache.fileName source.hash
  match chance with
  | .full =>
    { value := w.reach source artifact (written + missing.length),
      store := store.patch file written missing }
  | .part count =>
    { value := w.reach source artifact (written + (count + 1)),
      store := store.patch file written (missing.take (count + 1)) }
  | .stray count => { value := w.reach source artifact (written + (count + 1)), store }
  | .refused =>
    { value := w.finish { hit := false, result := .ok artifact }, store,
      notices := [.cannotWriteEntry] }

/-- One step. A worker without templates does nothing. -/
def act (w : Worker) (chance : Chance) (store : Store) : Stored Worker :=
  match w.todo with
  | [] => { value := w, store }
  | source :: _ =>
    match w.phase with
    | .look => w.look chance store source
    | .drop => w.drop chance store source
    | .compile => w.compile store source
    | .create artifact => w.create chance store source artifact
    | .fill artifact written => w.fill chance store source artifact written

/-- The most steps that a template takes if every write is in full. -/
def stepsPerSource : Nat := 5

end Worker

/-- Workers with the folder that they share, and what was logged. -/
structure Crew where
  workers : List Worker
  store : Store
  notices : List Notice := []

namespace Crew

/-- New workers, one for each group of templates. -/
def start (store : Store) (groups : List (List Source)) : Crew :=
  { workers := groups.map fun todo => { todo }, store }

/-- One worker takes a step. -/
def act (crew : Crew) (turn : Nat × Chance) : Crew :=
  match crew.workers[turn.1]? with
  | none => crew
  | some w =>
    let done := w.act turn.2 crew.store
    { workers := crew.workers.set turn.1 done.value, store := done.store,
      notices := crew.notices ++ done.notices }

/-- The workers take steps in turns. -/
def run (crew : Crew) (turns : List (Nat × Chance)) : Crew :=
  turns.foldl act crew

/-- The answers so far, in the order of the templates. -/
def answers (crew : Crew) : List Answer :=
  crew.workers.flatMap (·.answers)

/-- Is nothing left to do? -/
def isDone (crew : Crew) : Bool :=
  crew.workers.all (·.todo.isEmpty)

/-- A single worker that no one disturbs. -/
def alone (store : Store) (sources : List Source) : Crew :=
  (start store [sources]).run
    (List.replicate (Worker.stepsPerSource * sources.length) (0, .full))

end Crew
end Stencil
