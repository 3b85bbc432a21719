import Stencil.Batch
import Stencil.Proofs.Interleaving

/-!
# The cache cannot be noticed

A sound store holds nothing for a source but what compiling the source gives. That is all that
is asked of it: files may be missing, no text, no entries or entries with another key, folders
may stand in their place, and there may be no folder at all.

From a sound store a batch answers what compiling afresh would answer, however its templates
are divided among workers, in whatever turns these take their steps and whatever the disk does
in between. The store is sound at every moment, also if nobody ever finishes. The same goes for
any number of requests one after another, whatever is done to the entries between them, as long
as nobody makes up an entry.
-/

namespace Stencil

/-! ## Batches -/

namespace Batch

/-- One compiler for many templates is as good as one for each. -/
theorem compile_eq (sources : List Source) : compile sources = sources.map (·.compile) := by
  have hall : ∀ c, (compileWith c sources).1 = sources.map (·.compile) := by
    intro c
    induction sources generalizing c with
    | nil => rfl
    | cons source sources ih =>
      rw [compileWith, source.compileWith_eq, List.map_cons, ← ih {}]
  exact hall {}

section

variable {used : Source → Prop} (hused : Source.Distinguished used)

include hused

/-- **A crew answers what compiling afresh answers**, and leaves a sound store at any time. -/
theorem crew_sound {store : Store} (h : Cache.Sound used store) {groups : List (List Source)}
    (hsources : ∀ s ∈ groups.flatten, used s) (turns : List (Nat × Chance)) :
    Cache.Sound used ((Crew.start store groups).run turns).store
      ∧ (((Crew.start store groups).run turns).isDone = true →
        ((Crew.start store groups).run turns).answers.map (·.result) =
          groups.flatten.map (·.compile.result)) := by
  have hgroups : ∀ group ∈ groups, ∀ s ∈ group, used s := fun group hgroup s hs =>
    hsources s (List.mem_flatten_of_mem hgroup hs)
  have htrack := (Crew.onTrack_start h groups).run hused hgroups turns
  exact ⟨htrack.sound, htrack.answers_eq⟩

end

/-! ## Sessions -/

/-- The answer to a request if nothing is kept. -/
def fresh (inputs : Json) (options : Option Json) :
    Except BatchFault (List (Except Diagnostic Artifact)) :=
  (request inputs options).map fun found => found.1.map (·.compile.result)

/-- A request and its answer. -/
structure Exchange where
  inputs : Json
  options : Option Json
  answer : Except BatchFault (List (Except Diagnostic Artifact))

/-- All templates of the request are in use. -/
def Exchange.InUse (used : Source → Prop) (x : Exchange) : Prop :=
  ∀ sources options, request x.inputs x.options = .ok (sources, options) →
    ∀ s ∈ sources, used s

/--
A request may be answered like this, and leave the store like this. Its templates are divided
among workers in any way. With a folder, these take their steps in any turns until all is done.
-/
inductive Served (store : Store) : Exchange → Store → Prop
  | refused {inputs : Json} {options : Option Json} {fault : BatchFault}
    (h : request inputs options = .error fault) : Served store ⟨inputs, options, .error fault⟩ store
  | uncached {inputs : Json} {options : Option Json} {groups : List (List Source)}
    {found : BatchOptions} (h : request inputs options = .ok (groups.flatten, found))
    (hfolder : found.cacheDir = none) :
    Served store
      ⟨inputs, options, .ok (groups.flatMap fun group => (compile group).map (·.result))⟩ store
  | cached {inputs : Json} {options : Option Json} {groups : List (List Source)}
    {found : BatchOptions} {crew : Crew} {turns : List (Nat × Chance)}
    (h : request inputs options = .ok (groups.flatten, found)) (hfolder : found.cacheDir.isSome)
    (hcrew : crew = (Crew.start (Cache.ready store).store groups).run turns)
    (hdone : crew.isDone = true) :
    Served store ⟨inputs, options, .ok (crew.answers.map (·.result))⟩ crew.store

/--
Requests one after another, all with the same folder, that start with one store and end with
another. In between anything may happen to the folder as long as nobody makes up an entry:
files are deleted, overwritten or cut short, folders put in their place, the folder itself
taken away.
-/
inductive Session (used : Source → Prop) : Store → List Exchange → Store → Prop
  | done (store : Store) : Session used store [] store
  | request {store served after : Store} {exchange : Exchange} {exchanges : List Exchange}
    (hserved : Served store exchange served) (h : Session used served exchanges after) :
    Session used store (exchange :: exchanges) after
  | spoil {store spoiled after : Store} {exchanges : List Exchange}
    (hspoiled : ∀ source, used source → ∀ artifact, Cache.Holds spoiled source artifact →
      Cache.Holds store source artifact)
    (h : Session used spoiled exchanges after) : Session used store exchanges after

section

variable {used : Source → Prop} (hused : Source.Distinguished used)

include hused

theorem Served.sound {store served : Store} {x : Exchange} (hserved : Served store x served)
    (hinputs : x.InUse used) (h : Cache.Sound used store) :
    x.answer = fresh x.inputs x.options ∧ Cache.Sound used served := by
  unfold fresh
  cases hserved with
  | refused hrequest =>
    rw [hrequest]
    exact ⟨rfl, h⟩
  | uncached hrequest hfolder =>
    rw [hrequest]
    refine ⟨congrArg Except.ok ?_, h⟩
    simp [compile_eq, List.map_flatten, List.flatMap_def, Function.comp_def]
  | cached hrequest hfolder hcrew hdone =>
    have hready : Cache.Sound used (Cache.ready store).store :=
      h.mono fun _ _ _ => Cache.holds_of_ready
    subst hcrew
    obtain ⟨hstore, hanswers⟩ := crew_sound hused hready (hinputs _ _ hrequest) _
    rw [hrequest]
    exact ⟨congrArg Except.ok (hanswers hdone), hstore⟩

theorem Session.sound {store after : Store} {exchanges : List Exchange}
    (hsession : Session used store exchanges after) (hinputs : ∀ x ∈ exchanges, x.InUse used)
    (h : Cache.Sound used store) :
    (∀ x ∈ exchanges, x.answer = fresh x.inputs x.options) ∧ Cache.Sound used after := by
  induction hsession with
  | done store => exact ⟨fun x hx => absurd hx List.not_mem_nil, h⟩
  | request hserved _ ih =>
    obtain ⟨hfirst, hinputs⟩ := List.forall_mem_cons.mp hinputs
    obtain ⟨hanswer, hstore⟩ := hserved.sound hused hfirst h
    obtain ⟨hanswers, hafter⟩ := ih hinputs hstore
    exact ⟨List.forall_mem_cons.mpr ⟨hanswer, hanswers⟩, hafter⟩
  | spoil hspoiled _ ih => exact ih hinputs (h.mono hspoiled)

end

end Batch
end Stencil
