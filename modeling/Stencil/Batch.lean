import Stencil.Workers

/-!
# Compiling many templates

Templates are compiled in the order given, by one compiler. With a store, a template whose
artifact is kept there is not compiled, and one that compiles is kept.
-/

namespace Stencil

/-- What holds for all templates of a batch. -/
structure BatchOptions where
  /-- Every template is SVG, whatever it says itself. -/
  svg : Bool := false
  /-- Where artifacts are kept. -/
  cacheDir : Option String := none
  deriving DecidableEq, Repr

/-- What is wrong with a request for a batch. -/
inductive BatchFault where
  | inputs
  | options
  deriving DecidableEq, Repr

namespace BatchOptions

/-- A text, or nothing if the value is `null`. -/
def readFolder? : Json → Option (Option String)
  | .null => some none
  | j => j.string?.map some

/-- The options that a value stands for. -/
def ofJson? (j : Json) : Option BatchOptions := do
  let fields ← j.record? ["svg", "cacheDir"]
  let svg ← Json.optional? fields "svg" false Json.bool?
  let cacheDir ← Json.optional? fields "cacheDir" none readFolder?
  return { svg, cacheDir }

end BatchOptions

namespace Batch

/-- The templates of a request. They are read before the options. -/
def request (inputs : Json) (options : Option Json) :
    Except BatchFault (List Source × BatchOptions) :=
  match inputs.list? Source.ofJson? with
  | none => .error .inputs
  | some sources =>
    match (options.map BatchOptions.ofJson?).getD (some {}) with
    | none => .error .options
    | some options =>
      .ok (sources.map fun s => { s with svg := s.svg || options.svg }, options)

/-- Compiles every template, one after another, and hands the compiler back. -/
def compileWith (c : Compiler) : List Source → List Outcome × Compiler
  | [] => ([], c)
  | source :: sources =>
    let first := source.compileWith c
    let rest := compileWith first.2 sources
    (first.1 :: rest.1, rest.2)

/-- Compiles every template with one new compiler. -/
def compile (sources : List Source) : List Outcome :=
  (compileWith {} sources).1

/-- Compiles a batch with a store. -/
def compileCached (store : Store) (sources : List Source) :
    Stored (List (Except Diagnostic Artifact)) :=
  let crew := Crew.alone store sources
  { value := crew.answers.map (·.result), store := crew.store,
    notices := crew.notices
      ++ [.batchDone crew.answers.length (crew.answers.countP (·.hit))] }

/-- Compiles a batch, with the store of the folder that the options name, if they name one. -/
def run (store : Store) (sources : List Source) (options : BatchOptions) :
    Stored (List (Except Diagnostic Artifact)) :=
  match options.cacheDir with
  | none =>
    let outcomes := compile sources
    { value := outcomes.map (·.result), store, notices := outcomes.flatMap (·.notices) }
  | some _ =>
    let opened := Cache.ready store
    let done := compileCached opened.store sources
    { done with notices := opened.notices ++ done.notices }

end Batch
end Stencil
