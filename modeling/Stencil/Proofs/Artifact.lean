import Stencil.Proofs.Streams

/-!
# What a compiled template holds

Emission cannot get stuck, so every template that is read has an artifact
(`Template.artifact_eq`), and each of its parts is a function of the root. A compile that
succeeds has read a template and gives these parts (`compile_eq_ok`), and one that fails reports
a fault of reading or of size (`compile_eq_error`). This is all that later modules need to know
about `compile`.
-/

namespace Stencil

namespace Element

def rootSite (oracle : Oracle) (e : Element) : Site where
  step := none
  props := e.head.props oracle 0 0
  inserts := e.content.inserts oracle .nothing 0 (e.head.exprs oracle).length

/-- The groups of updates that a template asks for. The root is always there, any other
element only if it has updates. -/
def updateGroups (oracle : Oracle) (e : Element) : List (Group Update) :=
  ⟨[], e.head.updates oracle⟩ ::
    ((e.content.located .nothing [] 0).map (·.updates oracle)).filter (!·.acts.isEmpty)

/-- The groups of placements that a template asks for. -/
def placementGroups (e : Element) : List (Group Placement) :=
  ⟨[], (e.content.placements .nothing [] 0).reverse⟩ ::
    ((e.content.located .nothing [] 0).map Located.placements).filter (!·.acts.isEmpty)

variable (oracle : Oracle) (e : Element)

theorem flatten_sites :
    (e.sites oracle).flatten = e.rootSite oracle :: e.innerSites oracle := by
  rw [sites, Sites.flatten, Sites.flatten, List.append_nil]
  rfl

theorem exists_meets : ∀ s ∈ e.innerSites oracle,
    ∃ l, s.Meets oracle (e.slots oracle) (e.tables oracle) l :=
  forall_mem_of_forall₂ (R := flip (Site.Meets oracle (e.slots oracle) (e.tables oracle)))
    (forall₂_meets oracle e).flip fun _ l hmeets => ⟨l, hmeets⟩

/-- Every node that something is placed before is kept in a slot. -/
theorem resolved_sites : ∀ s ∈ (e.sites oracle).flatten, s.Resolved (e.slots oracle) := by
  rw [flatten_sites, List.forall_mem_cons]
  constructor
  · exact Insert.resolved_of_places (places_inserts oracle e)
  · intro s hs
    obtain ⟨l, hmeets⟩ := exists_meets oracle e s hs
    exact Insert.resolved_of_places hmeets.placements

def propOps : List PropOp :=
  (e.sites oracle).flatten.flatMap (·.propOps (e.slots oracle))

def childOps : List ChildOp :=
  (e.sites oracle).flatten.flatMap (·.childOps (e.slots oracle))

theorem propOps_eq : e.propOps oracle =
    e.head.props oracle 0 0 ++ (e.innerSites oracle).flatMap (·.propOps (e.slots oracle)) := by
  rw [propOps, flatten_sites, List.flatMap_cons]
  refine congrArg (· ++ _) ?_
  unfold Site.propOps rootSite Site.slot?
  split
  · next h => exact (List.isEmpty_iff.mp h).symm
  · rfl

/-- The root is the current node at the start, so it needs no marker. -/
theorem ofStream_propOps :
    Group.ofStream (PropOp.meaning (e.tables oracle)) [] (e.propOps oracle) =
      some (e.updateGroups oracle) := by
  have hsegments : List.Forall₂ (Group.IsSegment (PropOp.meaning (e.tables oracle)))
      ((e.content.located .nothing [] 0).map (·.updates oracle))
      ((e.innerSites oracle).map (·.propOps (e.slots oracle))) := by
    rw [List.forall₂_map_left_iff, List.forall₂_map_right_iff]
    exact (forall₂_meets oracle e).imp fun l s h => h.isSegment_propOps
  rw [propOps_eq, List.flatMap_def]
  exact Group.ofStream_acts (acts_head_props oracle e) (Group.ofStream_segments hsegments [])

theorem childOps_eq : e.childOps oracle =
    (e.content.inserts oracle .nothing 0 (e.head.exprs oracle).length).reverse.filterMap
        (·.resolve? (e.slots oracle))
      ++ (e.innerSites oracle).flatMap (·.childOps (e.slots oracle)) := by
  rw [childOps, flatten_sites, List.flatMap_cons]
  refine congrArg (· ++ _) ?_
  rw [Site.childOps_eq]
  unfold rootSite Site.slot?
  split
  · next h =>
    have hnil := List.isEmpty_iff.mp h
    dsimp only at hnil
    rw [hnil]
    rfl
  · rfl

theorem ofStream_childOps :
    Group.ofStream (ChildOp.meaning (e.tables oracle)) [] (e.childOps oracle) =
      some e.placementGroups := by
  have hsegments : List.Forall₂ (Group.IsSegment (ChildOp.meaning (e.tables oracle)))
      ((e.content.located .nothing [] 0).map Located.placements)
      ((e.innerSites oracle).map (·.childOps (e.slots oracle))) := by
    rw [List.forall₂_map_left_iff, List.forall₂_map_right_iff]
    exact (forall₂_meets oracle e).imp fun l s h => h.isSegment_childOps
  have hroot := Insert.acts_of_places (List.forall₂_reverse_iff.mpr (places_inserts oracle e))
  rw [childOps_eq, List.flatMap_def]
  exact Group.ofStream_acts hroot (Group.ofStream_segments hsegments [])

end Element

namespace Template

/-- All parts of the artifact, as functions of the template. -/
def compiled (oracle : Oracle) (svg : Bool) (t : Template) : Artifact where
  disableCloning := t.disableCloning
  flags := { svg, slots := (t.root.slots oracle).size, children := t.root.content.exprCount }
  template := t.root.skeleton oracle
  propOps := t.root.propOps oracle
  childOps := t.root.childOps oracle
  stateOps := t.root.content.walk oracle
  data := t.root.data oracle
  exprs := t.root.exprs oracle

/-- **Every template has an artifact**: emission finds a slot for all it needs. -/
theorem artifact_eq (oracle : Oracle) (svg : Bool) (t : Template) :
    t.artifact oracle svg = .ok (t.compiled oracle svg) := by
  have hemit := Sites.emit_of_resolved (Element.resolved_sites oracle t.root)
  -- the emitter has the slots of the walk, which is what `Element.slots` stands for
  unfold artifact
  dsimp only
  rw [Element.slots] at hemit
  rw [hemit]
  rfl

end Template

/-- Something that was computed from a result says that there is one. -/
theorem exists_of_toOption_map {ε α β : Type} {x : Except ε α} {f : α → β} {b : β}
    (h : x.toOption.map f = some b) : ∃ a, x = .ok a ∧ f a = b := by
  cases x with
  | error _ => cases h
  | ok a => exact ⟨a, rfl, Option.some.inj h⟩

/-- The diagnostic of a template that is refused. -/
def Outcome.diagnostic? (outcome : Outcome) : Option Diagnostic :=
  match outcome.result with
  | .error d => some d
  | .ok _ => none

theorem Outcome.result_of_diagnostic? {outcome : Outcome} {d : Diagnostic}
    (h : outcome.diagnostic? = some d) : outcome.result = .error d := by
  unfold diagnostic? at h
  split at h
  · next hresult => rw [hresult, Option.some.inj h]
  · cases h

/-- What a compile that succeeds went through. -/
theorem compile_eq_ok {oracle : Oracle} {svg : Bool} {fragments : List String} {a : Artifact}
    (h : (compile oracle svg fragments).result = .ok a) :
    fragments ≠ [] ∧ ∃ t r,
      Template.read (Element.fits oracle) (Reader.ofFragments fragments) = .ok (t, r)
        ∧ a = t.compiled oracle svg
        ∧ (compile oracle svg fragments).asked = r.asked.reverse := by
  unfold compile at h ⊢
  by_cases hempty : fragments.isEmpty = true
  · rw [if_pos hempty] at h
    cases h
  · rw [if_neg hempty] at h ⊢
    refine ⟨by simpa using hempty, ?_⟩
    cases hread : Template.read (Element.fits oracle) (Reader.ofFragments fragments) with
    | error failure =>
      rw [hread] at h
      cases h
    | ok found =>
      obtain ⟨t, r⟩ := found
      rw [hread] at h
      dsimp only at h ⊢
      rw [Template.artifact_eq] at h ⊢
      dsimp only at h ⊢
      -- what is left is the check of the counts, which gives the artifact or nothing
      by_cases hfits : (t.compiled oracle svg).fits = true
      · rw [if_pos hfits] at h ⊢
        exact ⟨t, r, rfl, (Except.ok.inj h).symm, rfl⟩
      · rw [if_neg hfits] at h
        cases h

/-- What a compile that fails went through: a fault of reading, or counts that do not fit. -/
theorem compile_eq_error {oracle : Oracle} {svg : Bool} {fragments : List String} {d : Diagnostic}
    (hne : fragments ≠ []) (h : (compile oracle svg fragments).result = .error d) :
    ∃ failure, d = failure.diagnostic fragments
      ∧ (Template.read (Element.fits oracle) (Reader.ofFragments fragments) = .error failure
        ∨ ∃ t r, Template.read (Element.fits oracle) (Reader.ofFragments fragments) = .ok (t, r)
          ∧ failure = ⟨.templateSize, r⟩) := by
  have hempty : ¬fragments.isEmpty = true := by simpa using hne
  unfold compile at h
  rw [if_neg hempty] at h
  cases hread : Template.read (Element.fits oracle) (Reader.ofFragments fragments) with
  | error failure =>
    rw [hread] at h
    cases h
    exact ⟨failure, rfl, .inl rfl⟩
  | ok found =>
    obtain ⟨t, r⟩ := found
    rw [hread] at h
    dsimp only at h
    rw [Template.artifact_eq] at h
    dsimp only at h
    split at h
    · cases h
    · cases h
      exact ⟨⟨.templateSize, r⟩, rfl, .inr ⟨t, r, rfl, rfl⟩⟩

/-- The outcome for a template that cannot be read. -/
theorem compile_eq_of_failure {oracle : Oracle} (svg : Bool) {fragments : List String}
    {failure : Failure} (hne : fragments ≠ [])
    (h : Template.read (Element.fits oracle) (Reader.ofFragments fragments) = .error failure) :
    compile oracle svg fragments =
      { result := .error (failure.diagnostic fragments),
        asked := failure.reader.asked.reverse } := by
  have hempty : ¬fragments.isEmpty = true := by simpa using hne
  unfold compile
  rw [if_neg hempty, h]

/-- The outcome for a template that was read. -/
theorem compile_eq_of_read {oracle : Oracle} (svg : Bool) {fragments : List String} {t : Template}
    {s : Reader} (hne : fragments ≠ [])
    (h : Template.read (Element.fits oracle) (Reader.ofFragments fragments) = .ok (t, s)) :
    compile oracle svg fragments =
      if (t.compiled oracle svg).fits then
        { result := .ok (t.compiled oracle svg), asked := s.asked.reverse,
          notices := [.compiled t.root.head.tag (t.compiled oracle svg).flags.slots
            (t.compiled oracle svg).flags.children (t.compiled oracle svg).exprs.length] }
      else
        { result := .error (Failure.diagnostic ⟨.templateSize, s⟩ fragments),
          asked := s.asked.reverse } := by
  have hempty : ¬fragments.isEmpty = true := by simpa using hne
  unfold compile
  rw [if_neg hempty, h]
  dsimp only
  rw [Template.artifact_eq]

/-- A fault of reading is reported where reading stopped. -/
theorem compile_of_read_error {oracle : Oracle} (svg : Bool) {fragments : List String}
    {failure : Failure} (hne : fragments ≠ [])
    (h : Template.read (Element.fits oracle) (Reader.ofFragments fragments) = .error failure) :
    (compile oracle svg fragments).result = .error (failure.diagnostic fragments) := by
  rw [compile_eq_of_failure svg hne h]

/-- An element that is too large is reported as such. -/
theorem compile_of_read_size {oracle : Oracle} {svg : Bool} {fragments : List String} {s : Reader}
    (hne : fragments ≠ [])
    (h : Template.read (Element.fits oracle) (Reader.ofFragments fragments) =
      .error ⟨.templateSize, s⟩) :
    ∃ d, (compile oracle svg fragments).result = .error d ∧ d.code = "E-SIZE" :=
  ⟨_, compile_of_read_error svg hne h, rfl⟩

/-- A template that was read has its artifact, or it is too large. -/
theorem compile_of_read {oracle : Oracle} (svg : Bool) {fragments : List String} {t : Template}
    {s : Reader} (hne : fragments ≠ [])
    (h : Template.read (Element.fits oracle) (Reader.ofFragments fragments) = .ok (t, s)) :
    if (t.compiled oracle svg).fits then
      (compile oracle svg fragments).result = .ok (t.compiled oracle svg)
    else ∃ d, (compile oracle svg fragments).result = .error d ∧ d.code = "E-SIZE" := by
  rw [compile_eq_of_read svg hne h]
  split
  · rfl
  · exact ⟨_, rfl, rfl⟩

/-- An artifact is given only if its counts fit. -/
theorem fits_of_compile {oracle : Oracle} {svg : Bool} {fragments : List String} {a : Artifact}
    (h : (compile oracle svg fragments).result = .ok a) : a.fits = true := by
  obtain ⟨hne, t, r, hread, rfl, _⟩ := compile_eq_ok h
  have hcompile := compile_of_read svg hne hread
  by_contra hfits
  rw [if_neg hfits] at hcompile
  obtain ⟨d, herror, _⟩ := hcompile
  cases h.symm.trans herror

end Stencil
