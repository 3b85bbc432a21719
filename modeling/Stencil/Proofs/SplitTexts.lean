import Stencil.Proofs.Merging
import Stencil.Proofs.References

/-!
# Content with its texts in more pieces

Two literals in a row make one text in the markup, so content can be spelled with its texts
in more or fewer pieces and look the same. `Respells` relates two such spellings. They have
the same skeleton, the same tables, and the same updates of the same slots: the marks of the
one are those of the other, only reached by other ops.

The walk is what differs, because it takes a step for every piece. With one text in two
pieces it is the same if nothing after that text is saved in the same element, and otherwise
has one step more (`Detour`), which every `enter` around it counts.
-/

namespace Stencil

theorem Text.escape_append (setting : Setting) (x y : String) :
    escape setting (x ++ y) = escape setting x ++ escape setting y := by
  simp [escape]

/-- Placements that resolve to the same ops do so from the last to the first. -/
theorem Insert.resolve_reverse {slots slots' : Slots} {is is' : List Insert}
    (h : is'.map (·.resolve? slots') = is.map (·.resolve? slots)) :
    is'.reverse.filterMap (·.resolve? slots') = is.reverse.filterMap (·.resolve? slots) := by
  have hreverse := congrArg (fun ops => ops.reverse.filterMap id) h
  simpa only [← List.map_reverse, List.filterMap_map, Function.id_comp] using hreverse

/-- A site with the same updates, and its placements before the same slots, gives the same ops
if its own node has the same slot. -/
theorem Site.ops_eq {slots slots' : Slots} {s s' : Site} (hprops : s'.props = s.props)
    (hinserts : s'.inserts.map (·.resolve? slots') = s.inserts.map (·.resolve? slots))
    (hslot : s.isUpdated = true → s'.slot? slots' = s.slot? slots) :
    s'.propOps slots' = s.propOps slots ∧ s'.childOps slots' = s.childOps slots := by
  unfold isUpdated at hslot
  constructor
  · unfold propOps
    rw [hprops]
    split
    · rfl
    · next hne => rw [hslot (by simp [hne])]
  · have hempty : s'.inserts.isEmpty = s.inserts.isEmpty := by
      rw [← List.isEmpty_map (f := (·.resolve? slots')), hinserts, List.isEmpty_map]
    rw [childOps_eq, childOps_eq, hempty, Insert.resolve_reverse hinserts]
    split
    · rfl
    · next hne => rw [hslot (by simp [hne])]

namespace Content

/-- The second content is the first with some of its texts in pieces. -/
inductive Respells : Content → Content → Prop where
  | nil : Respells .nil .nil
  | text (s : String) {next next' : Content} (hnext : Respells next next') :
      Respells (.text s next) (.text s next')
  | split (x y : String) {next next' : Content} (hnext : Respells next next') :
      Respells (.text (x ++ y) next) (.text x (.text y next'))
  | expr (i : Nat) {next next' : Content} (hnext : Respells next next') :
      Respells (.expr i next) (.expr i next')
  | element (head : Head) {inner inner' next next' : Content} (hinner : Respells inner inner')
      (hnext : Respells next next') :
      Respells (.element head inner next) (.element head inner' next')

theorem Respells.refl (c : Content) : Respells c c := by
  induction c with
  | nil => exact .nil
  | text s next ih => exact .text s ih
  | expr i next ih => exact .expr i ih
  | element head inner next ihInner ihNext => exact .element head ihInner ihNext

section Respells

variable {oracle : Oracle} {c c' : Content} (h : Respells c c')
include h

/-! ## Tables and markup -/

theorem exprs_of_respells : c'.exprs oracle = c.exprs oracle := by
  induction h with
  | nil => rfl
  | text s _ ih => exact ih
  | split x y _ ih => exact ih
  | expr i _ ih => exact congrArg (i :: ·) ih
  | element head _ _ ihInner ihNext => rw [exprs, exprs, ihInner, ihNext]

theorem data_of_respells : c'.data oracle = c.data oracle := by
  induction h with
  | nil => rfl
  | text s _ ih => exact ih
  | split x y _ ih => exact ih
  | expr i _ ih => exact ih
  | element head _ _ ihInner ihNext => rw [data, data, ihInner, ihNext]

theorem exprCount_of_respells : c'.exprCount = c.exprCount := by
  induction h with
  | nil => rfl
  | text s _ ih => exact ih
  | split x y _ ih => exact ih
  | expr i _ ih => exact congrArg (· + 1) ih
  | element head _ _ ihInner ihNext => rw [exprCount, exprCount, ihInner, ihNext]

theorem hasExpr_of_respells : c'.hasExpr = c.hasExpr := by
  induction h with
  | nil => rfl
  | text s _ ih => exact ih
  | split x y _ ih => exact ih
  | expr i _ _ => rfl
  | element head _ _ _ ihNext => exact ihNext

theorem hasMarkup_of_respells : c'.hasMarkup = c.hasMarkup := by
  induction h with
  | expr i _ ih => exact ih
  | _ => rfl

theorem isUpdated_of_respells (head : Head) :
    isUpdated oracle head c' = isUpdated oracle head c := by
  rw [isUpdated, isUpdated, hasExpr_of_respells h]

/-- The pieces of a text are joined again in the markup. -/
theorem merges_of_respells (before : Before) :
    Part.Merges (c.markup oracle before) (c'.markup oracle before) := by
  induction h generalizing before with
  | nil => exact .refl _
  | text s _ ih =>
    rw [markup, markup]
    exact (Part.Merges.refl _).append ((Part.Merges.refl [.text _]).append (ih _))
  | split x y _ ih =>
    rw [markup, markup, markup, Text.escape_append]
    refine (Part.Merges.refl _).append ?_
    intro rest
    exact (Part.merge_cons_congr _ (ih .afterText rest)).trans (Part.merge_text_text _ _ _).symm
  | expr i _ ih => exact ih _
  | element head _ _ ihInner ihNext =>
    rw [markup, markup]
    exact (((Part.Merges.refl _).append (ihInner _)).append (.refl _)).append (ihNext _)

/-! ## Marks and sites -/

omit h in
/-- Right after a text, a second text is not marked. -/
theorem marks_text_afterText (pos : Nat) (p : Place) (i : Nat) (y : String) (next : Content) :
    (Content.text y next).marks oracle .afterText pos p i =
      next.marks oracle .afterText (pos + 1) p (i + 1) := rfl

omit h in
/-- Whether an item is marked does not depend on the step. -/
theorem length_mark (marked : Bool) (mark mark' : Mark) :
    (if marked then [mark'] else []).length = (if marked then [mark] else []).length := by
  cases marked <;> rfl

theorem length_marks_of_respells (before : Before) (pos pos' : Nat) (p p' : Place) (i i' : Nat) :
    (c'.marks oracle before pos' p' i').length = (c.marks oracle before pos p i).length := by
  induction h generalizing before pos pos' p p' i i' with
  | nil => rfl
  | text s _ ih => rw [marks, marks, List.length_append, List.length_append, ih, length_mark]
  | split x y _ ih =>
    rw [marks, marks_text_afterText, marks, List.length_append, List.length_append, ih, length_mark]
  | expr j _ ih => exact ih _ _ _ _ _ _ _
  | element head hinner _ ihInner ihNext =>
    rw [marks, marks, isUpdated_of_respells hinner, List.length_append, List.length_append,
      List.length_append, List.length_append, ihInner, ihNext, length_mark]

end Respells

/-- Two marks with the same slot. -/
def Paired (slots slots' : Slots) (mark mark' : Mark) : Prop :=
  slots'.get? mark'.step = slots.get? mark.step

/-- Lists that are paired are paired part by part. -/
theorem forall₂_of_append {α : Type} {R : α → α → Prop} {a a' b b' : List α}
    (h : List.Forall₂ R (a ++ b) (a' ++ b')) (hlength : a'.length = a.length) :
    List.Forall₂ R a a' ∧ List.Forall₂ R b b' := by
  induction a generalizing a' with
  | nil =>
    obtain rfl := List.length_eq_zero_iff.mp hlength
    exact ⟨.nil, h⟩
  | cons x a ih =>
    cases a' with
    | nil => cases hlength
    | cons x' a' =>
      cases h with
      | cons hx h =>
        obtain ⟨hleft, hright⟩ := ih h (Nat.succ.inj hlength)
        exact ⟨.cons hx hleft, hright⟩

section Sites

variable {oracle : Oracle} {slots slots' : Slots} {c c' : Content}

theorem inserts_text_afterText (pos n : Nat) (y : String) (next : Content) :
    (Content.text y next).inserts oracle .afterText pos n =
      next.inserts oracle .afterText (pos + 1) n := rfl

theorem resolve_insertPoint {before : Before} {pos pos' : Nat}
    (h : before.expr = true → slots'.get? pos' = slots.get? pos) :
    (before.insertPoint pos').map (·.resolve? slots') =
      (before.insertPoint pos).map (·.resolve? slots) := by
  unfold Before.insertPoint
  by_cases hexpr : before.expr = true
  · rw [if_pos hexpr, if_pos hexpr, List.map_singleton, List.map_singleton, Insert.resolve?,
      Insert.resolve?, h hexpr]
  · rw [if_neg hexpr, if_neg hexpr]
    rfl

/-- What is paired at the point of an item, if the item is marked. -/
theorem slot_of_paired {marked : Bool} {pos pos' : Nat} {place place' : Place}
    (h : List.Forall₂ (Paired slots slots') (if marked then [⟨pos, place⟩] else [])
      (if marked then [⟨pos', place'⟩] else [])) (hmarked : marked = true) :
    slots'.get? pos' = slots.get? pos := by
  rw [if_pos hmarked, if_pos hmarked] at h
  cases h with
  | cons hpaired _ => exact hpaired

/-- The same is placed before the same slots. -/
theorem inserts_of_respells (h : Respells c c') {before : Before} {pos pos' n : Nat} {p p' : Place}
    {i i' : Nat} (hmarks : List.Forall₂ (Paired slots slots') (c.marks oracle before pos p i)
      (c'.marks oracle before pos' p' i')) :
    (c'.inserts oracle before pos' n).map (·.resolve? slots') =
      (c.inserts oracle before pos n).map (·.resolve? slots) := by
  induction h generalizing before pos pos' n p p' i i' with
  | nil => rfl
  | text s _ ih =>
    rw [marks, marks] at hmarks
    obtain ⟨hhere, hrest⟩ := forall₂_of_append hmarks (length_mark ..)
    rw [inserts, inserts, List.map_append, List.map_append, ih hrest,
      resolve_insertPoint (slot_of_paired hhere)]
  | split x y _ ih =>
    rw [marks, marks, marks_text_afterText] at hmarks
    obtain ⟨hhere, hrest⟩ := forall₂_of_append hmarks (length_mark ..)
    rw [inserts, inserts_text_afterText, inserts, List.map_append, List.map_append, ih hrest,
      resolve_insertPoint (slot_of_paired hhere)]
  | expr j _ ih =>
    rw [inserts, inserts, List.map_cons, List.map_cons]
    exact congrArg (_ :: ·) (ih hmarks)
  | element head hinner _ _ ihNext =>
    rw [marks, marks, isUpdated_of_respells hinner] at hmarks
    obtain ⟨hhere, hrest⟩ := forall₂_of_append hmarks (length_mark ..)
    obtain ⟨_, hrest⟩ := forall₂_of_append hrest (length_marks_of_respells hinner ..)
    rw [inserts, inserts, List.map_append, List.map_append, exprs_of_respells hinner,
      ihNext hrest, resolve_insertPoint fun hexpr => slot_of_paired hhere (by rw [hexpr]; rfl)]

/-- The same sites are emitted with the same ops. -/
theorem sites_of_respells (h : Respells c c') {before : Before} {pos pos' n m : Nat} {p p' : Place}
    {i i' : Nat} (hmarks : List.Forall₂ (Paired slots slots') (c.marks oracle before pos p i)
      (c'.marks oracle before pos' p' i')) :
    List.Forall₂ (fun s s' => s'.propOps slots' = s.propOps slots
        ∧ s'.childOps slots' = s.childOps slots)
      (c.sites oracle before pos n m).flatten (c'.sites oracle before pos' n m).flatten := by
  induction h generalizing before pos pos' n m p p' i i' with
  | nil => exact .nil
  | text s _ ih =>
    rw [marks, marks] at hmarks
    exact ih (forall₂_of_append hmarks (length_mark ..)).2
  | split x y _ ih =>
    rw [marks, marks, marks_text_afterText] at hmarks
    exact ih (forall₂_of_append hmarks (length_mark ..)).2
  | expr j _ ih => exact ih hmarks
  | @element head inner inner' next next' hinner _ ihInner ihNext =>
    rw [marks, marks, isUpdated_of_respells hinner] at hmarks
    obtain ⟨hhere, hrest⟩ := forall₂_of_append hmarks (length_mark ..)
    obtain ⟨hin, hnext⟩ := forall₂_of_append hrest (length_marks_of_respells hinner ..)
    rw [sites, sites, Sites.flatten, Sites.flatten, exprs_of_respells hinner,
      data_of_respells hinner]
    refine .cons ?_ (List.rel_append (ihInner hin) (ihNext hnext))
    -- only an element that is updated has ops, and such an element is marked
    have hslot : isUpdated oracle head inner = true → slots'.get? pos' = slots.get? pos :=
      fun hupdated => slot_of_paired hhere (by rw [hupdated, Bool.or_true])
    refine Site.ops_eq rfl (inserts_of_respells hinner hin) fun hupdated => ?_
    rw [isUpdated_site] at hupdated
    exact hslot hupdated

end Sites
end Content

/-! ## The artifact -/

namespace Element

variable {c c' : Content} (h : c.Respells c') (oracle : Oracle) (head : Head)
include h

/-- The marks of two spellings have the same slots, by their order. -/
theorem paired_marks :
    List.Forall₂ (Content.Paired (slots oracle ⟨head, c⟩) (slots oracle ⟨head, c'⟩))
      (c.marks oracle .nothing 0 [] 0) (c'.marks oracle .nothing 0 [] 0) := by
  have hslot : ∀ (d : Content) (k : Nat) (hk : k < (d.marks oracle .nothing 0 [] 0).length),
      (slots oracle ⟨head, d⟩).get? ((d.marks oracle .nothing 0 [] 0).get ⟨k, hk⟩).step =
        some (k + 1) := by
    intro d k hk
    refine Slots.get?_of_steps ?_
    rw [Content.findIdxs_walk, List.getElem?_map, List.getElem?_eq_getElem hk]
    rfl
  refine List.forall₂_iff_get.mpr ⟨(Content.length_marks_of_respells h ..).symm, ?_⟩
  intro k hk hk'
  exact (hslot c' k hk').trans (hslot c k hk).symm

theorem sites_of_respells :
    List.Forall₂ (fun s s' => s'.propOps (slots oracle ⟨head, c'⟩) = s.propOps (slots oracle ⟨head, c⟩)
        ∧ s'.childOps (slots oracle ⟨head, c'⟩) = s.childOps (slots oracle ⟨head, c⟩))
      (innerSites oracle ⟨head, c⟩) (innerSites oracle ⟨head, c'⟩) :=
  Content.sites_of_respells h (paired_marks h oracle head)

theorem propOps_of_respells : propOps oracle ⟨head, c'⟩ = propOps oracle ⟨head, c⟩ := by
  rw [propOps_eq, propOps_eq]
  exact congrArg (_ ++ ·) (flatMap_of_forall₂ (sites_of_respells h oracle head) And.left)

theorem childOps_of_respells : childOps oracle ⟨head, c'⟩ = childOps oracle ⟨head, c⟩ := by
  have hinserts := Insert.resolve_reverse
    (Content.inserts_of_respells (n := (head.exprs oracle).length) h (paired_marks h oracle head))
  rw [childOps_eq, childOps_eq, hinserts]
  exact congrArg (_ ++ ·) (flatMap_of_forall₂ (sites_of_respells h oracle head) And.right)

theorem size_slots_of_respells :
    (slots oracle ⟨head, c'⟩).size = (slots oracle ⟨head, c⟩).size := by
  rw [size_slots, size_slots]
  exact congrArg (1 + ·) (Content.length_marks_of_respells h ..)

theorem skeleton_of_respells : skeleton oracle ⟨head, c'⟩ = skeleton oracle ⟨head, c⟩ := by
  have hmarkup : Part.Merges (markup oracle ⟨head, c⟩) (markup oracle ⟨head, c'⟩) :=
    ((Part.Merges.refl _).append (Content.merges_of_respells h .nothing)).append (.refl _)
  rw [skeleton, skeleton, isBare, isBare, Content.hasMarkup_of_respells h, hmarkup.merge_eq]

end Element

/-- **Spelling texts in more pieces changes nothing but the walk.** -/
theorem Template.compiled_of_respells {c c' : Content} (h : c.Respells c') (oracle : Oracle)
    (svg flag : Bool) (head : Head) :
    Template.compiled oracle svg ⟨flag, head, c'⟩ =
      { Template.compiled oracle svg ⟨flag, head, c⟩ with stateOps := c'.walk oracle } := by
  have hdata : Element.data oracle ⟨head, c'⟩ = Element.data oracle ⟨head, c⟩ :=
    congrArg (_ ++ ·) (Content.data_of_respells h)
  have hexprs : Element.exprs oracle ⟨head, c'⟩ = Element.exprs oracle ⟨head, c⟩ :=
    congrArg (_ ++ ·) (Content.exprs_of_respells h)
  unfold compiled
  dsimp only
  rw [hdata, hexprs, Element.propOps_of_respells h, Element.childOps_of_respells h,
    Element.size_slots_of_respells h, Element.skeleton_of_respells h,
    Content.exprCount_of_respells h]

/-! ## One text in two pieces -/

/-- One text of the first content, with `more` after it in its element, is in two pieces. -/
inductive Content.SplitsAt (more : Content) : Content → Content → Prop where
  | here (x y : String) : SplitsAt more (.text (x ++ y) more) (.text x (.text y more))
  | pastText (s : String) {next next' : Content} (h : SplitsAt more next next') :
      SplitsAt more (.text s next) (.text s next')
  | pastExpr (i : Nat) {next next' : Content} (h : SplitsAt more next next') :
      SplitsAt more (.expr i next) (.expr i next')
  | pastElement (head : Head) (inner : Content) {next next' : Content}
      (h : SplitsAt more next next') :
      SplitsAt more (.element head inner next) (.element head inner next')
  | inside (head : Head) (next : Content) {inner inner' : Content}
      (h : SplitsAt more inner inner') :
      SplitsAt more (.element head inner next) (.element head inner' next)

theorem Content.SplitsAt.respells {more c c' : Content} (h : SplitsAt more c c') :
    Respells c c' := by
  induction h with
  | here x y => exact .split x y (.refl more)
  | pastText s _ ih => exact .text s ih
  | pastExpr i _ ih => exact .expr i ih
  | pastElement head inner _ ih => exact .element head (.refl inner) ih
  | inside head next _ ih => exact .element head ih (.refl next)

namespace StateOp

/-- The second list takes one step more, which each `enter` around it counts. -/
inductive Detour : List StateOp → List StateOp → Prop where
  | here (ops : List StateOp) : Detour ops (.next false :: ops)
  | later (op : StateOp) {ops ops' : List StateOp} (h : Detour ops ops') :
      Detour (op :: ops) (op :: ops')
  | inside (saves : Bool) (rest : List StateOp) {ops ops' : List StateOp} (h : Detour ops ops') :
      Detour (.enter ops.length saves :: (ops ++ rest)) (.enter ops'.length saves :: (ops' ++ rest))

theorem Detour.length_eq {ops ops' : List StateOp} (h : Detour ops ops') :
    ops'.length = ops.length + 1 := by
  induction h with
  | here ops => rfl
  | later op _ ih => rw [List.length_cons, List.length_cons, ih]
  | inside saves rest _ ih =>
    rw [List.length_cons, List.length_cons, List.length_append, List.length_append, ih]
    omega

theorem Detour.ne {ops ops' : List StateOp} (h : Detour ops ops') : ops' ≠ ops := by
  rintro rfl
  exact absurd h.length_eq (Nat.ne_of_lt (Nat.lt_succ_self _))

theorem Detour.ne_nil {ops ops' : List StateOp} (h : Detour ops ops') : ops' ≠ [] := by
  rintro rfl
  cases h.length_eq

theorem Detour.append_left (front : List StateOp) {ops ops' : List StateOp} (h : Detour ops ops') :
    Detour (front ++ ops) (front ++ ops') := by
  induction front with
  | nil => exact h
  | cons op front ih => exact .later op ih

end StateOp

namespace Content

variable {oracle : Oracle} {more c c' : Content}

theorem trim_steps_eq_nil_iff (oracle : Oracle) (before : Before) (c : Content) :
    StateOp.trim (c.steps oracle before) = [] ↔ c.span oracle before = 0 := by
  rw [← length_trim_steps, List.length_eq_zero_iff]

/-- An element with a step inside is entered, and left again if there is a step after it. -/
theorem trim_steps_element {inner : Content} (before : Before) (head : Head) (next : Content)
    (h : StateOp.trim (inner.steps oracle .nothing) ≠ []) :
    StateOp.trim ((element head inner next).steps oracle before) =
      .enter (StateOp.trim (inner.steps oracle .nothing)).length
          (before.expr || isUpdated oracle head inner)
        :: (StateOp.trim (inner.steps oracle .nothing)
          ++ if StateOp.trim (next.steps oracle .nothing) = [] then []
            else .next false :: StateOp.trim (next.steps oracle .nothing)) := by
  rw [steps, StateOp.trim_append]
  split
  · rw [StateOp.trim_pastElement_of_ne_nil h (StateOp.trim_trim _), List.append_nil]
  · rw [StateOp.pastElement, if_neg (by simpa using h)]
    simp

/-- If nothing is saved after the text, no step is taken past it or any piece of it. -/
theorem SplitsAt.trim_steps_eq (h : SplitsAt more c c') (hmore : more.span oracle .afterText = 0)
    (before : Before) :
    StateOp.trim (c'.steps oracle before) = StateOp.trim (c.steps oracle before) := by
  induction h generalizing before with
  | here x y =>
    have hnone := (trim_steps_eq_nil_iff oracle .afterText more).mpr hmore
    have hpiece : StateOp.trim ((text y more).steps oracle .afterText) = [] := by
      rw [steps, StateOp.trim_append, if_pos hnone]
      rfl
    rw [steps, StateOp.trim_append, if_pos hpiece, steps, StateOp.trim_append, if_pos hnone]
  | pastText s _ ih => rw [steps, steps, StateOp.trim_append, StateOp.trim_append, ih]
  | pastExpr i _ ih => exact ih _
  | pastElement head inner _ ih =>
    rw [steps, steps, StateOp.trim_append, StateOp.trim_append, ih]
  | inside head next h ih => rw [steps, steps, ih, isUpdated_of_respells h.respells]

/-- If a node after the text is saved, one step more is taken to it. -/
theorem SplitsAt.detour (h : SplitsAt more c c') (hmore : more.span oracle .afterText ≠ 0)
    (before : Before) :
    StateOp.trim (c.steps oracle before) ≠ [] ∧
      StateOp.Detour (StateOp.trim (c.steps oracle before))
        (StateOp.trim (c'.steps oracle before)) := by
  induction h generalizing before with
  | here x y =>
    have hsome : StateOp.trim (more.steps oracle .afterText) ≠ [] :=
      fun hnil => hmore ((trim_steps_eq_nil_iff oracle .afterText more).mp hnil)
    have hpiece : StateOp.trim ((text y more).steps oracle .afterText) =
        .next false :: StateOp.trim (more.steps oracle .afterText) := by
      rw [steps, StateOp.trim_append, if_neg hsome]
      rfl
    rw [steps, StateOp.trim_append, if_neg hsome, steps, StateOp.trim_append, hpiece,
      if_neg (List.cons_ne_nil _ _)]
    exact ⟨List.append_ne_nil_of_right_ne_nil _ hsome, (StateOp.Detour.here _).append_left _⟩
  | pastText s _ ih =>
    obtain ⟨hsome, hdetour⟩ := ih .afterText
    rw [steps, steps, StateOp.trim_append, StateOp.trim_append, if_neg hsome,
      if_neg hdetour.ne_nil]
    exact ⟨List.append_ne_nil_of_right_ne_nil _ hsome, hdetour.append_left _⟩
  | pastExpr i _ ih => exact ih _
  | pastElement head inner _ ih =>
    obtain ⟨hsome, hdetour⟩ := ih .nothing
    rw [steps, steps, StateOp.trim_append, StateOp.trim_append, if_neg hsome,
      if_neg hdetour.ne_nil]
    exact ⟨List.append_ne_nil_of_right_ne_nil _ hsome, hdetour.append_left _⟩
  | @inside head next inner inner' h ih =>
    obtain ⟨hsome, hdetour⟩ := ih .nothing
    rw [trim_steps_element before head next hsome,
      trim_steps_element before head next hdetour.ne_nil, isUpdated_of_respells h.respells]
    exact ⟨List.cons_ne_nil _ _, .inside _ _ hdetour⟩

/-- If nothing is saved after the text, elements around it fit as before. -/
theorem SplitsAt.allFit (h : SplitsAt more c c') (hmore : more.span oracle .afterText = 0)
    (hfit : c.AllFit (Element.fits oracle)) : c'.AllFit (Element.fits oracle) := by
  induction h with
  | here x y => exact hfit
  | pastText s _ ih => exact ih hfit
  | pastExpr i _ ih => exact ih hfit
  | pastElement head inner _ ih => exact ⟨hfit.1, hfit.2.1, ih hfit.2.2⟩
  | @inside head next inner inner' h ih =>
    obtain ⟨hhere, hinner, hnext⟩ := hfit
    refine ⟨?_, ih hinner, hnext⟩
    have hspan : inner'.span oracle .nothing = inner.span oracle .nothing := by
      rw [← length_trim_steps, ← length_trim_steps, h.trim_steps_eq hmore]
    rw [Element.fits] at hhere ⊢
    rwa [hspan]

/-- One step more is too many only for an element with as many as can be counted. -/
theorem SplitsAt.mem_of_not_allFit (h : SplitsAt more c c')
    (hmore : more.span oracle .afterText ≠ 0) (hfit : c.AllFit (Element.fits oracle))
    (hunfit : ¬ c'.AllFit (Element.fits oracle)) (before : Before) :
    ∃ saves, .enter StateOp.maxCount saves ∈ StateOp.trim (c.steps oracle before) := by
  induction h generalizing before with
  | here x y => exact absurd hfit hunfit
  | pastText s h ih =>
    obtain ⟨saves, hmem⟩ := ih hfit hunfit .afterText
    refine ⟨saves, ?_⟩
    rw [steps, StateOp.trim_append, if_neg (List.ne_nil_of_mem hmem)]
    exact List.mem_append_right _ hmem
  | pastExpr i _ ih => exact ih hfit hunfit _
  | pastElement head inner h ih =>
    obtain ⟨hhere, hinner, hnext⟩ := hfit
    have hunfit := fun hnext' => hunfit ⟨hhere, hinner, hnext'⟩
    obtain ⟨saves, hmem⟩ := ih hnext hunfit .nothing
    refine ⟨saves, ?_⟩
    rw [steps, StateOp.trim_append, if_neg (List.ne_nil_of_mem hmem)]
    exact List.mem_append_right _ hmem
  | @inside head next inner inner' h ih =>
    obtain ⟨hhere, hinner, hnext⟩ := hfit
    obtain ⟨hsome, hdetour⟩ := h.detour hmore .nothing
    rw [trim_steps_element before head next hsome]
    by_cases hinner' : inner'.AllFit (Element.fits oracle)
    · have hhere' : ¬ Element.fits oracle ⟨head, inner'⟩ = true :=
        fun hhere' => hunfit ⟨hhere', hinner', hnext⟩
      have hlength := hdetour.length_eq
      have hcount : (StateOp.trim (inner.steps oracle .nothing)).length = StateOp.maxCount := by
        rw [length_trim_steps, length_trim_steps] at hlength
        simp only [Element.fits, decide_eq_true_eq] at hhere hhere'
        rw [length_trim_steps]
        omega
      exact ⟨_, by rw [hcount]; exact List.mem_cons_self⟩
    · obtain ⟨saves, hmem⟩ := ih hinner hinner' .nothing
      exact ⟨saves, List.mem_cons_of_mem _ (List.mem_append_left _ hmem)⟩

end Content
end Stencil
