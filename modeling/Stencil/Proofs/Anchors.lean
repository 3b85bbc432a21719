import Stencil.Proofs.References

/-!
# Every op is about a node that a slot holds

Sites know nodes by the op of the walk that reaches them, and emission turns the op into its
slot. Where the op gives out no slot, a placement cannot be emitted, and an update goes out
without a marker, so that it would be taken for one of the node before it. Neither can happen
to a template: whatever is placed before a node, or updated, is reached by an op that gives out
a slot in the finished walk (`Element.anchored`).

So emission never stops. The faults that are left are those of reading, and the first part of
this module goes through the grammar to show that the fault of emission is not among them.
-/

namespace Stencil

/-! ## The faults of reading -/

/-- Can the fault show while a template is read? -/
def Fault.isOfReading : Fault → Bool
  | emptyTemplate => false
  | unresolvedAnchor => false
  | _ => true

theorem Fault.code_ne_of_isOfReading {fault : Fault} (h : fault.isOfReading = true) :
    fault.code ≠ unresolvedAnchor.code := by
  cases fault with
  | emptyTemplate => cases h
  | unresolvedAnchor => cases h
  | _ => simp [code]

namespace Reader

/-- If the step fails, it is for a fault of reading. -/
def Blames {α : Type} : Except Failure α → Prop
  | .ok _ => True
  | .error failure => failure.fault.isOfReading = true

theorem Blames.fault {α : Type} {x : Except Failure α} {failure : Failure} (h : Blames x)
    (hx : x = .error failure) : failure.fault.isOfReading = true := by
  rw [hx] at h
  exact h

theorem literal_blames (r : Reader) : Blames r.literal := by
  unfold literal
  split
  · trivial
  · rfl
  · trivial
  · trivial

theorem classNames_blames (r : Reader) : Blames r.classNames := by
  fun_induction classNames r with
  | case1 => rfl
  | case2 _ _ _ _ _ _ _ _ hf ih => exact ih.fault hf
  | case3 => trivial
  | case4 => trivial

theorem classPart_blames (r : Reader) : Blames r.classPart := by
  unfold classPart
  split
  · trivial
  · split
    · rename_i hf
      exact (classNames_blames r).fault hf
    · trivial

theorem attrBinding_blames (r : Reader) : Blames r.attrBinding := by
  unfold attrBinding
  split
  · rfl
  · split
    · trivial
    · rename_i t _
      split
      · rename_i hf
        exact (literal_blames t).fault hf
      · split
        · trivial
        · split
          · rfl
          · trivial

theorem namedBinding_blames {kind : NamedProp} {name? : Reader → Option (String × Reader)}
    {fault : Fault} (h : fault.isOfReading = true) (r : Reader) :
    Blames (r.namedBinding kind name? fault) := by
  unfold namedBinding
  split
  · exact h
  · split
    · rfl
    · split
      · rfl
      · trivial

theorem directiveBinding_blames (r : Reader) : Blames r.directiveBinding := by
  unfold directiveBinding
  split
  · rfl
  · trivial

theorem binding?_blames {r : Reader} {result : Except Failure (Binding × Reader)}
    (h : r.binding? = some result) : Blames result := by
  unfold binding? at h
  split at h
  case h_7 => cases h
  all_goals
    rename_i cs _
    rw [← Option.some.inj h]
  · exact attrBinding_blames _
  · exact namedBinding_blames rfl _
  · exact namedBinding_blames rfl _
  · exact namedBinding_blames rfl _
  · exact namedBinding_blames rfl _
  · exact directiveBinding_blames _

theorem bindings_blames (base : Nat) (r : Reader) : Blames (r.bindings base) := by
  fun_induction bindings base r with
  | case1 => trivial
  | case2 => trivial
  | case3 _ _ _ hb => exact binding?_blames hb
  | case4 _ _ _ _ _ _ _ hf ih => exact ih.fault hf
  | case5 => trivial

theorem head_blames (r : Reader) : Blames r.head := by
  unfold Reader.head
  split
  · rfl
  · split
    · rename_i hf
      exact (classPart_blames _).fault hf
    · split
      · rename_i hf
        exact (bindings_blames _ _).fault hf
      · trivial

theorem element_content_blames (fits : Element → Bool) :
    (∀ r : Reader, Blames (r.element fits))
      ∧ ∀ base (r : Reader), Blames (r.content fits base) := by
  refine element_content_induction ?_ ?_
  · intro r ih
    rw [element_eq]
    split
    · rename_i hf
      exact (head_blames r).fault hf
    · rename_i head s hs
      split
      · trivial
      · split
        · rename_i hf
          exact (ih _ s (remaining_of_head hs)).fault hf
        · trivial
  · intro base r ihElement ihContent
    rw [content_eq]
    split
    · trivial
    · split
      · split
        · trivial
        · rename_i i s hs
          have hlt : s.skipBlank.remaining < r.remaining :=
            Nat.lt_of_le_of_lt (remaining_skipBlank_le s) (remaining_of_takeExpr? hs)
          split
          · rename_i hf
            exact (ihContent _ hlt).fault hf
          · trivial
      · split
        · rename_i hf
          exact (literal_blames r).fault hf
        · rename_i text s hs
          split
          · rename_i hne
            have hlt : s.skipBlank.remaining < r.remaining :=
              Nat.lt_of_le_of_lt (remaining_skipBlank_le s) (remaining_lt_of_literal hs hne)
            split
            · rename_i hf
              exact (ihContent _ hlt).fault hf
            · trivial
          · split
            · rename_i hf
              exact (ihElement s (remaining_of_literal hs)).fault hf
            · rename_i child t ht
              have hlt : t.skipBlank.remaining < r.remaining :=
                Nat.lt_of_le_of_lt (remaining_skipBlank_le t)
                  (Nat.lt_of_lt_of_le (remaining_of_element ht) (remaining_of_literal hs))
              split
              · split
                · rename_i hf
                  exact (ihContent _ hlt).fault hf
                · trivial
              · rfl

theorem options_blames (r : Reader) : Blames r.options := by
  unfold options
  split
  · trivial
  · trivial
  · split
    · trivial
    · rfl
  · rfl
  · trivial

end Reader

/-- **Reading fails only for the faults of reading.** -/
theorem Template.read_blames (fits : Element → Bool) (r : Reader) :
    Reader.Blames (Template.read fits r) := by
  unfold Template.read
  split
  · rename_i hf
    exact r.options_blames.fault hf
  · split
    · rename_i hf
      exact ((Reader.element_content_blames fits).1 _).fault hf
    · trivial

/-- Whatever refuses a template, it is not that a placement has no slot. -/
theorem code_ne_of_compile {oracle : Oracle} {svg : Bool} {fragments : List String}
    {d : Diagnostic} (h : (compile oracle svg fragments).result = .error d) :
    d.code ≠ Fault.unresolvedAnchor.code := by
  have hread := Template.read_blames (Element.fits oracle) (Reader.ofFragments fragments)
  unfold compile at h
  split at h
  · cases h
    simp [Fault.unplaced, Diagnostic.place, Fault.code]
  · split at h
    · rename_i failure hf
      cases h
      exact Fault.code_ne_of_isOfReading (hread.fault hf)
    · rw [Template.artifact_eq] at h
      dsimp only at h
      split at h
      · cases h
      · cases h
        have hsize : Fault.templateSize.isOfReading = true := rfl
        exact Fault.code_ne_of_isOfReading hsize

/-! ## Sites and the finished walk -/

/-- The op at `step` is there, and gives out a slot. -/
def StateOp.AssignsAt (walk : List StateOp) (step : Nat) : Prop :=
  ∃ op, walk[step]? = some op ∧ op.assignsSlot = true

theorem Slots.assignsAt_of_get? {walk : List StateOp} {step slot : Nat}
    (h : (ofWalk walk).get? step = some slot) : StateOp.AssignsAt walk step := by
  obtain ⟨k, _, hk⟩ := get?_eq_some.mp h
  have hmem : step ∈ steps walk := List.mem_of_getElem? hk
  rw [steps, List.mem_findIdxs_iff_exists_getElem_pos] at hmem
  obtain ⟨hlt, hassigns⟩ := hmem
  exact ⟨walk[step], List.getElem?_eq_getElem hlt, hassigns⟩

/--
What a site has to do with the walk. Placements go before nodes that are kept in slots, and if
there is anything to emit then the site's own node is kept in one, whose marker comes first.
-/
structure Site.Anchored (walk : List StateOp) (s : Site) : Prop where
  inserts : ∀ step, .before step ∈ s.inserts → StateOp.AssignsAt walk step
  node : s.isUpdated = true → ∃ step slot, s.step = some step
    ∧ StateOp.AssignsAt walk step ∧ (Slots.ofWalk walk).get? step = some slot
    ∧ (s.props ≠ [] → s.propOps (Slots.ofWalk walk) = .setNode slot :: s.props)
    ∧ (s.inserts ≠ [] → s.childOps (Slots.ofWalk walk) =
        .setParent slot :: s.inserts.reverse.filterMap (·.resolve? (Slots.ofWalk walk)))

theorem Site.assignsAt_of_resolved {walk : List StateOp} {s : Site}
    (h : s.Resolved (Slots.ofWalk walk)) :
    ∀ step, .before step ∈ s.inserts → StateOp.AssignsAt walk step := by
  intro step hstep
  have hsome := h _ hstep
  rw [Insert.resolve?, Option.isSome_map] at hsome
  obtain ⟨slot, hslot⟩ := Option.isSome_iff_exists.mp hsome
  exact Slots.assignsAt_of_get? hslot

theorem isEmpty_eq_of_forall₂ {α β : Type} {R : α → β → Prop} {xs : List α} {ys : List β}
    (h : List.Forall₂ R xs ys) : xs.isEmpty = ys.isEmpty := by
  cases h <;> rfl

namespace Site

variable {oracle : Oracle} {walk : List StateOp} {tables : Tables} {l : Located} {s : Site}

/-- Something is emitted for a site exactly if its element is updated. -/
theorem Meets.isUpdated_eq (h : s.Meets oracle (Slots.ofWalk walk) tables l) :
    s.isUpdated = Stencil.isUpdated oracle l.head l.inner := by
  have hprops : s.props.isEmpty = (l.head.exprs oracle).isEmpty := by
    rw [isEmpty_eq_of_forall₂ h.updates, ← Head.map_expr_updates, List.isEmpty_map]
  have hinserts : s.inserts.isEmpty = !l.inner.hasExpr := by
    rw [isEmpty_eq_of_forall₂ h.placements, Content.isEmpty_placements .nothing rfl]
  rw [isUpdated, Stencil.isUpdated, hprops, hinserts, Bool.not_not]

theorem Meets.anchored (h : s.Meets oracle (Slots.ofWalk walk) tables l) : s.Anchored walk where
  inserts := assignsAt_of_resolved (Insert.resolved_of_places h.placements)
  node := by
    intro hupdated
    rw [h.isUpdated_eq] at hupdated
    obtain ⟨slot, hslot, _⟩ := h.node hupdated
    obtain ⟨step, hstep, hget⟩ := Option.bind_eq_some_iff.mp hslot
    refine ⟨step, slot, hstep, Slots.assignsAt_of_get? hget, hget, ?_, ?_⟩
    · intro hprops
      rw [propOps, if_neg (by simpa using hprops), hslot]
      rfl
    · intro hinserts
      rw [childOps_eq, if_neg (by simpa using hinserts), hslot]
      rfl

end Site

/--
The sites of a template with its walk: the root needs no slot, every other site is anchored,
and emission is the ops of the sites one after the other.
-/
structure Element.Anchored (oracle : Oracle) (e : Element) : Prop where
  sites : (e.sites oracle).flatten = e.rootSite oracle :: e.innerSites oracle
  root : ∀ step, .before step ∈ (e.rootSite oracle).inserts →
    StateOp.AssignsAt (e.content.walk oracle) step
  inner : ∀ s ∈ e.innerSites oracle, s.Anchored (e.content.walk oracle)
  emission : (e.sites oracle).emit (Slots.ofWalk (e.content.walk oracle)) =
    { props := (e.rootSite oracle).props
        ++ (e.innerSites oracle).flatMap (·.propOps (Slots.ofWalk (e.content.walk oracle)))
      children := (e.rootSite oracle).childOps (Slots.ofWalk (e.content.walk oracle))
        ++ (e.innerSites oracle).flatMap (·.childOps (Slots.ofWalk (e.content.walk oracle)))
      fault := none }

/-- **Every op of a template is about a node that a slot holds.** -/
theorem Element.anchored (oracle : Oracle) (e : Element) : e.Anchored oracle where
  sites := flatten_sites oracle e
  root := by
    refine Site.assignsAt_of_resolved (resolved_sites oracle e _ ?_)
    rw [flatten_sites]
    exact List.mem_cons_self ..
  inner := by
    intro s hs
    obtain ⟨l, hmeets⟩ := exists_meets oracle e s hs
    exact hmeets.anchored
  emission := by
    have hemit := Sites.emit_of_resolved (resolved_sites oracle e)
    have hprops := propOps_eq oracle e
    rw [propOps] at hprops
    rw [hprops, flatten_sites, List.flatMap_cons] at hemit
    exact hemit

/--
**The fault of emission never comes up**, whatever is compiled. If a template is read, then in
the walk that is handed to emission every op that a placement or an updated node refers to gives
out a slot, and the ops of every node but the root come right after its own marker.
-/
theorem compile_anchored (oracle : Oracle) (svg : Bool) (fragments : List String) :
    (∀ d, (compile oracle svg fragments).result = .error d → d.code ≠ "E-INTERNAL")
      ∧ ∀ t r, Template.read (Element.fits oracle) (Reader.ofFragments fragments) = .ok (t, r) →
        t.root.Anchored oracle :=
  ⟨fun _ h => code_ne_of_compile h, fun t _ _ => t.root.anchored oracle⟩

/-- A text that is kept apart from another and placed before, and a node two levels down with an
update and a placement. -/
theorem compile_anchored_nested :
    ∃ t r, Template.read (Element.fits fun _ => false)
        (Reader.ofFragments ["p 'a' ", " 'b'\n  b\n    i @c=", " ", ""]) = .ok (t, r)
      ∧ (t.root.rootSite fun _ => false).inserts = [.child 0, .before 1]
      ∧ t.root.innerSites (fun _ => false) =
        [⟨some 3, [], []⟩, ⟨some 4, [.named .event 1 0], [.child 2]⟩]
      ∧ t.root.Anchored fun _ => false := by
  generalize hf : ["p 'a' ", " 'b'\n  b\n    i @c=", " ", ""] = fragments
  have hsites : (Template.read (Element.fits fun _ => false)
      (Reader.ofFragments fragments)).toOption.map (fun found =>
        ((found.1.root.rootSite fun _ => false).inserts, found.1.root.innerSites fun _ => false)) =
      some ([.child 0, .before 1], [⟨some 3, [], []⟩, ⟨some 4, [.named .event 1 0], [.child 2]⟩]) := by
    rw [← hf]
    decide +kernel
  obtain ⟨⟨t, r⟩, hread, hsites⟩ := exists_of_toOption_map hsites
  obtain ⟨hroot, hinner⟩ := Prod.mk.inj hsites
  exact ⟨t, r, hread, hroot, hinner, (compile_anchored (fun _ => false) false fragments).2 t r hread⟩

end Stencil
