import Mathlib.Algebra.GroupWithZero.Nat
import Stencil.Proofs.CacheEntries
import Stencil.Workers

/-!
# Workers do not get in each other's way

Whatever the turns are in which workers take their steps, and whatever the disk does, every
worker gives the answers of fresh compiles. It may find an entry or compile the template
itself, but what it finds is what it would get. Its compiler makes no difference either.

The invariant is about one worker and the store at a time: the answers so far are right, and
so is the artifact that it is about to keep; the file that it writes is gone or torn from the
entry that it writes. A step of any worker is a change of the store, and changes keep this
true of all the others.

Every step brings a worker nearer to its end. So there is a bound on the number of turns in
which some worker still has something to do.
-/

namespace Stencil

/-! ## One worker -/

/-- The artifact at hand is that of the source, and its file is in progress if it is written. -/
def Phase.OnTrack (store : Store) (source : Source) : Phase → Prop
  | create artifact => source.compile.result = .ok artifact
  | fill artifact _ =>
    source.compile.result = .ok artifact ∧ Cache.InProgress store source artifact
  | _ => True

namespace Worker

/-- The worker has done a part of its group, and its answers are those of fresh compiles. -/
structure OnTrack (store : Store) (group : List Source) (w : Worker) : Prop where
  answers : ∃ done, group = done ++ w.todo
    ∧ w.answers.map (·.result) = done.map (·.compile.result)
  phase : ∀ source ∈ w.todo.head?, w.phase.OnTrack store source

theorem onTrack_start (store : Store) (group : List Source) :
    OnTrack store group { todo := group } :=
  ⟨⟨[], rfl, rfl⟩, fun _ _ => trivial⟩

theorem OnTrack.answers_eq {store : Store} {group : List Source} {w : Worker}
    (h : w.OnTrack store group) (hdone : w.todo = []) :
    w.answers.map (·.result) = group.map (·.compile.result) := by
  obtain ⟨done, hgroup, hanswers⟩ := h.answers
  rw [hanswers, hgroup, hdone, List.append_nil]

section

variable {store store' : Store} {group rest : List Source} {source : Source} {w : Worker}

theorem OnTrack.finish (h : w.OnTrack store group) (htodo : w.todo = source :: rest)
    {answer : Answer} (hanswer : answer.result = source.compile.result) (store' : Store) :
    (w.finish answer).OnTrack store' group := by
  obtain ⟨done, hgroup, hanswers⟩ := h.answers
  refine ⟨⟨done ++ [source], ?_, ?_⟩, fun _ _ => trivial⟩
  · rw [hgroup, Worker.finish, htodo, List.tail_cons, List.append_assoc, List.singleton_append]
  · rw [Worker.finish, List.map_append, List.map_append, hanswers, List.map_singleton,
      List.map_singleton, hanswer]

theorem OnTrack.proceed (h : w.OnTrack store group) (htodo : w.todo = source :: rest)
    (phase : Phase) (hphase : phase.OnTrack store' source) :
    (w.proceed phase).OnTrack store' group := by
  refine ⟨h.answers, fun other hother => ?_⟩
  rw [Worker.proceed, htodo] at hother
  obtain rfl := Option.some.inj hother
  exact hphase

/-- The compiler makes no difference. -/
theorem OnTrack.withCompiler (h : w.OnTrack store group) (compiler : Compiler) :
    OnTrack store group { w with compiler } :=
  ⟨h.answers, h.phase⟩

/-- What others do keeps a worker on track. -/
theorem OnTrack.change {used : Source → Prop} (h : w.OnTrack store group)
    (hgroup : ∀ s ∈ group, used s) (hchange : Cache.Change used store store') :
    w.OnTrack store' group := by
  obtain ⟨done, hdone, _⟩ := h.answers
  refine ⟨h.answers, fun source hsource => ?_⟩
  have hused : used source :=
    hgroup source (hdone ▸ List.mem_append_right done (List.mem_of_mem_head? hsource))
  have hphase := h.phase source hsource
  cases hw : w.phase with
  | fill artifact written =>
    rw [hw] at hphase
    exact ⟨hphase.1, hphase.2.change hused hphase.1 hchange⟩
  | create artifact =>
    rw [hw] at hphase
    exact hphase
  | look => trivial
  | drop => trivial
  | compile => trivial

end

section

variable {used : Source → Prop} (hused : Source.Distinguished used) {store : Store}
  {group rest : List Source} {source : Source} {w : Worker}

/-- What a step of a worker comes to. -/
def Keeps (used : Source → Prop) (store : Store) (group : List Source) (done : Stored Worker) :
    Prop :=
  Cache.Change used store done.store ∧ done.value.OnTrack done.store group

theorem Keeps.mk {store' : Store} {w' : Worker} (hchange : Cache.Change used store store')
    (h : w'.OnTrack store' group) (notices : List Notice) :
    Keeps used store group ⟨w', store', notices⟩ :=
  ⟨hchange, h⟩

theorem Keeps.unchanged {w' : Worker} (h : w'.OnTrack store group) (notices : List Notice) :
    Keeps used store group ⟨w', store, notices⟩ :=
  .mk (.refl used store) h notices

theorem look_keeps (hsource : used source) (hsound : Cache.Sound used store)
    (h : w.OnTrack store group) (htodo : w.todo = source :: rest) (chance : Chance) :
    Keeps used store group (w.look chance store source) := by
  have hcompile : (w.proceed .compile).OnTrack store group := h.proceed htodo .compile trivial
  unfold look
  split
  · exact .unchanged hcompile _
  · split
    · exact .unchanged hcompile _
    · exact .unchanged (h.proceed htodo .drop trivial) _
    · rename_i artifact hfind
      have hheld := Cache.find_eq_found.mp hfind
      exact .unchanged (h.finish htodo (hsound source hsource artifact hheld).symm store) _

theorem drop_keeps (h : w.OnTrack store group) (htodo : w.todo = source :: rest)
    (chance : Chance) : Keeps used store group (w.drop chance store source) := by
  unfold drop
  split
  · exact .unchanged (h.proceed htodo .compile trivial) _
  · exact .mk (Cache.change_deleteFile used store _) (h.proceed htodo .compile trivial) _

theorem compile_keeps (h : w.OnTrack store group) (htodo : w.todo = source :: rest) :
    Keeps used store group (w.compile store source) := by
  unfold compile
  rw [source.compileWith_eq]
  dsimp only
  split
  · rename_i d hresult
    exact .unchanged ((h.withCompiler {}).finish htodo hresult.symm store) _
  · rename_i artifact hresult
    exact .unchanged ((h.withCompiler {}).proceed htodo (.create artifact) hresult) _

theorem reach_onTrack {store' : Store} {artifact : Artifact} (h : w.OnTrack store group)
    (htodo : w.todo = source :: rest) (hartifact : source.compile.result = .ok artifact)
    (hprogress : Cache.InProgress store' source artifact) (written : Nat) :
    (w.reach source artifact written).OnTrack store' group := by
  unfold reach
  split
  · exact h.finish htodo hartifact.symm store'
  · exact h.proceed htodo (.fill artifact written) ⟨hartifact, hprogress⟩

include hused

theorem create_keeps {artifact : Artifact} (hsource : used source) (h : w.OnTrack store group)
    (htodo : w.todo = source :: rest) (hartifact : source.compile.result = .ok artifact)
    (chance : Chance) : Keeps used store group (w.create chance store source artifact) := by
  unfold create
  split
  · rename_i begun hbegun
    split at hbegun
    · cases hbegun
    · obtain ⟨hchange, hprogress⟩ := Cache.change_begin? hused hsource hartifact hbegun
      exact .mk hchange (h.proceed htodo (.fill artifact 0) ⟨hartifact, hprogress⟩) _
  · exact .unchanged (h.finish htodo hartifact.symm store) _

theorem fill_keeps {artifact : Artifact} {written : Nat} (hsource : used source)
    (h : w.OnTrack store group) (htodo : w.todo = source :: rest)
    (hartifact : source.compile.result = .ok artifact)
    (hprogress : Cache.InProgress store source artifact) (chance : Chance) :
    Keeps used store group (w.fill chance store source artifact written) := by
  have hwhole := Cache.Torn.whole (Cache.entryBytes source.hash artifact) written
  -- whatever is written, the file is still in progress
  have hpatch : ∀ new, Cache.Torn (Cache.entryBytes source.hash artifact) written new →
      ∀ reached, Keeps used store group
        { value := w.reach source artifact reached
          store := store.patch (Cache.fileName source.hash) written new } := by
    intro new hnew reached
    have hchange := Cache.change_patch hused hsource hartifact hprogress hnew
    have hafter := hprogress.change hsource hartifact hchange
    exact .mk hchange (reach_onTrack h htodo hartifact hafter reached) []
  unfold fill
  cases chance with
  | full => exact hpatch _ hwhole _
  | part count => exact hpatch _ (hwhole.take (count + 1)) _
  | stray count =>
    exact .unchanged (reach_onTrack h htodo hartifact hprogress _) []
  | refused => exact .unchanged (h.finish htodo hartifact.symm store) _

/-- **A step of a worker is a change, and keeps the worker on track.** -/
theorem act_keeps (hgroup : ∀ s ∈ group, used s) (hsound : Cache.Sound used store)
    (h : w.OnTrack store group) (chance : Chance) :
    Keeps used store group (w.act chance store) := by
  unfold act
  split
  · exact .unchanged h _
  · rename_i source rest htodo
    have hsource : used source := by
      obtain ⟨done, hdone, _⟩ := h.answers
      exact hgroup source (hdone ▸ htodo ▸ List.mem_append_right done (List.mem_cons_self ..))
    have hphase := h.phase source (htodo ▸ rfl)
    split
    · exact look_keeps hsource hsound h htodo chance
    · exact drop_keeps h htodo chance
    · exact compile_keeps h htodo
    · rename_i artifact hw
      rw [hw] at hphase
      exact create_keeps hused hsource h htodo hphase chance
    · rename_i artifact written hw
      rw [hw] at hphase
      exact fill_keeps hused hsource h htodo hphase.1 hphase.2 chance

end

end Worker

/-! ## Progress of one worker -/

namespace Worker

/-- What is left to do, if each template costs so much from a phase on. -/
def left (cost : Source → Phase → Nat) (w : Worker) : Nat :=
  match w.todo with
  | [] => 0
  | source :: rest => cost source w.phase + (rest.map (cost · .look)).sum

end Worker

/-! ## All workers -/

namespace Crew

/-- The store is sound, and every worker is on track with its group. -/
structure OnTrack (used : Source → Prop) (groups : List (List Source)) (crew : Crew) : Prop where
  sound : Cache.Sound used crew.store
  length : crew.workers.length = groups.length
  each : ∀ (i : Nat) (w : Worker) (group : List Source), crew.workers[i]? = some w →
    groups[i]? = some group → w.OnTrack crew.store group

theorem onTrack_start {used : Source → Prop} {store : Store} (h : Cache.Sound used store)
    (groups : List (List Source)) : (start store groups).OnTrack used groups where
  sound := h
  length := List.length_map ..
  each i w group hw hgroup := by
    rw [start, List.getElem?_map, hgroup] at hw
    obtain rfl := Option.some.inj hw
    exact Worker.onTrack_start store group

section

variable {used : Source → Prop} (hused : Source.Distinguished used) {groups : List (List Source)}
  (hgroups : ∀ group ∈ groups, ∀ s ∈ group, used s) {crew : Crew}

include hused hgroups

/-- **A turn of any worker keeps all of them on track.** -/
theorem OnTrack.act (h : crew.OnTrack used groups) (turn : Nat × Chance) :
    (crew.act turn).OnTrack used groups := by
  unfold Crew.act
  split
  · exact h
  · rename_i w hw
    have hlt : turn.1 < groups.length := h.length ▸ (List.getElem?_eq_some_iff.mp hw).1
    have hgroup := List.getElem?_eq_getElem hlt
    have hmem := hgroups _ (List.getElem_mem hlt)
    obtain ⟨hchange, htrack⟩ :=
      Worker.act_keeps hused hmem h.sound (h.each turn.1 w _ hw hgroup) turn.2
    refine ⟨h.sound.change hused hchange, ?_, fun i w' group hw' hgroup' => ?_⟩
    · rw [List.length_set, h.length]
    · dsimp only at hw' ⊢
      rw [List.getElem?_set] at hw'
      split at hw'
      · -- the worker whose turn it is
        rename_i hi
        subst hi
        obtain rfl := Option.some.inj (hgroup.symm.trans hgroup')
        split at hw'
        · obtain rfl := Option.some.inj hw'
          exact htrack
        · cases hw'
      · -- all others see a change
        have hmem' := hgroups group (List.mem_of_getElem? hgroup')
        exact (h.each i w' group hw' hgroup').change hmem' hchange

theorem OnTrack.run (h : crew.OnTrack used groups) (turns : List (Nat × Chance)) :
    (crew.run turns).OnTrack used groups := by
  induction turns generalizing crew with
  | nil => exact h
  | cons turn turns ih => exact ih (h.act hused hgroups turn)

end

/-- When all is done, the answers are those of fresh compiles in the order of the templates. -/
theorem OnTrack.answers_eq {used : Source → Prop} {groups : List (List Source)} {crew : Crew}
    (h : crew.OnTrack used groups) (hdone : crew.isDone = true) :
    crew.answers.map (·.result) = groups.flatten.map (·.compile.result) := by
  have hall : ∀ w ∈ crew.workers, w.todo = [] := fun w hw =>
    List.isEmpty_iff.mp (List.all_eq_true.mp hdone w hw)
  have heach : crew.workers.map (fun w => w.answers.map (·.result)) =
      groups.map (fun group => group.map (·.compile.result)) := by
    refine List.ext_getElem (by simp [h.length]) fun i hi hi' => ?_
    rw [List.length_map] at hi hi'
    rw [List.getElem_map, List.getElem_map]
    exact (h.each i _ _ (List.getElem?_eq_getElem hi) (List.getElem?_eq_getElem hi')).answers_eq
      (hall _ (List.getElem_mem hi))
  rw [answers, List.map_flatMap, List.flatMap_def, heach, ← List.map_flatten]

/-! ## All workers get done -/

/-- What all workers together have left to do. -/
def left (cost : Source → Phase → Nat) (crew : Crew) : Nat :=
  (crew.workers.map (·.left cost)).sum

end Crew
end Stencil
