import Stencil.Proofs.Artifact
import Stencil.Proofs.InStep
import Stencil.Proofs.Literals
import Stencil.Proofs.Merging

/-!
# Writing a value in for an expression

An attribute whose expression is invariant is like one with a literal value, apart from the
hole that its value goes into. To write the literal in place of the expression is to fill
the hole, and to number the expressions after it one lower.

`Matches` with `Binding.Fills` relates an element to the one with the value written in. All
parts of the two artifacts are the same functions of them, up to the hole and the numbers:
each function of an element gets one lemma.
-/

namespace Stencil

/-! ## Numbers without one -/

/-- How expression `j` is numbered when expression `gone` is no longer counted. -/
def renumber (gone j : Nat) : Nat :=
  if gone < j then j - 1 else j

/-- The oracle for expressions that are numbered without expression `gone`. -/
def Oracle.without (oracle : Oracle) (gone : Nat) : Oracle :=
  fun j => oracle (if j < gone then j else j + 1)

/-- The same expression, counted with and without expression `gone`. -/
def Renumbers (gone j j' : Nat) : Prop :=
  j ≠ gone ∧ j' = renumber gone j

theorem renumbers_of_lt {gone j : Nat} (h : j < gone) : Renumbers gone j j := by
  refine ⟨by omega, ?_⟩
  rw [renumber, if_neg (by omega)]

theorem Oracle.without_of_renumbers {oracle : Oracle} {gone j j' : Nat}
    (h : Renumbers gone j j') : oracle.without gone j' = oracle j := by
  obtain ⟨hne, rfl⟩ := h
  have hback : (if renumber gone j < gone then renumber gone j else renumber gone j + 1) = j := by
    unfold renumber
    split <;> split <;> omega
  rw [without, hback]

/-! ## Holes with values in them -/

/-- The value of expression `i` is written in, with the replacements for attribute values made. -/
def Part.fill (i : Nat) (value : String) : Part → Part
  | text s => text s
  | expr j =>
    if j = i then text (String.ofList (Text.replaced .attributeValue value.toList))
    else expr (renumber i j)

def Skeleton.fill (i : Nat) (value : String) : Skeleton → Skeleton
  | tag name => tag name
  | parts list => parts (Part.merge (list.map (Part.fill i value)))

/-- The artifact with the value of expression `i` in its markup, and `i` not counted. -/
def Artifact.fill (i : Nat) (value : String) (a : Artifact) : Artifact :=
  { a with template := a.template.fill i value, exprs := a.exprs.map (renumber i) }

theorem Artifact.fits_fill (i : Nat) (value : String) (a : Artifact) :
    (a.fill i value).fits = a.fits := by
  have hlength : (a.exprs.map (renumber i)).length = a.exprs.length := List.length_map _
  unfold fits fill
  dsimp only
  rw [hlength]

theorem Part.fill_expr {i j j' : Nat} (value : String) (h : Renumbers i j j') :
    Part.fill i value (.expr j) = .expr j' := by
  rw [fill, if_neg h.1, h.2]

section Filling

variable {oracle : Oracle} {i : Nat} {value : String}

variable (oracle i value) in
/-- Expression `i` is invariant and the value of an attribute, and a literal stands there
instead; or the binding has another expression or none. -/
inductive Binding.Fills : Binding → Binding → Prop where
  | filled (name : String) (h : oracle i = true) :
      Fills (.named .attr name i) (.value name value)
  | other {b b' : Binding} (h : b.Renumbered (Renumbers i) b') : Fills b b'

/-! ## Class part and bindings -/

namespace ClassPart

variable {cls cls' : ClassPart} (h : cls.Matches (Renumbers i) cls')
include h

theorem exprs_of_matches :
    cls'.exprs (oracle.without i) = (cls.exprs oracle).map (renumber i) := by
  cases h with
  | names list => rfl
  | expr hj =>
    rw [exprs, exprs, Oracle.without_of_renumbers hj, hj.2]
    split <;> rfl

theorem props_of_matches (n : Nat) : cls'.props (oracle.without i) n = cls.props oracle n := by
  cases h with
  | names list => rfl
  | expr hj => rw [props, props, Oracle.without_of_renumbers hj]

theorem markup_of_matches (value : String) :
    cls'.markup (oracle.without i) = (cls.markup oracle).map (Part.fill i value) := by
  cases h with
  | names list => cases list <;> rfl
  | expr hj =>
    rw [markup, markup, Oracle.without_of_renumbers hj]
    split
    · rw [List.map_cons, List.map_cons, Part.fill_expr value hj]
      rfl
    · rfl

end ClassPart

namespace Binding

/-- Whether a value goes into the markup does not depend on how its expression is numbered. -/
theorem isHoisted_of_renumbers {j j' : Nat} (h : Renumbers i j j') (kind : NamedProp)
    (name : String) :
    (named kind name j').isHoisted (oracle.without i) = (named kind name j).isHoisted oracle := by
  cases kind with
  | attr => exact Oracle.without_of_renumbers h
  | _ => rfl

variable {b b' : Binding} (h : b.Fills oracle i value b')
include h

theorem exprs_of_fills : b'.exprs (oracle.without i) = (b.exprs oracle).map (renumber i) := by
  cases h with
  | filled name h =>
    have hnone : (named .attr name i).exprs oracle = [] := if_pos h
    rw [hnone]
    rfl
  | other h =>
    cases h with
    | named kind name hj =>
      rw [exprs, exprs, isHoisted_of_renumbers hj, hj.2]
      split <;> rfl
    | directive hj => rw [exprs, exprs, hj.2]; rfl
    | _ => rfl

theorem data_of_fills : b'.data (oracle.without i) = b.data oracle := by
  cases h with
  | filled name h =>
    have hnone : (named .attr name i).data oracle = [] := if_pos h
    rw [hnone]
    rfl
  | other h =>
    cases h with
    | named kind name hj => rw [data, data, isHoisted_of_renumbers hj]
    | _ => rfl

theorem props_of_fills (n m : Nat) :
    b'.props (oracle.without i) n m = b.props oracle n m := by
  cases h with
  | filled name h =>
    have hnone : (named .attr name i).props oracle n m = [] := if_pos h
    rw [hnone]
    rfl
  | other h =>
    cases h with
    | named kind name hj => rw [props, props, isHoisted_of_renumbers hj]
    | _ => rfl

/-- The quotes around the hole are the quotes around the literal. -/
theorem merges_of_fills : Part.Merges ((b.markup oracle).map (Part.fill i value))
    (b'.markup (oracle.without i)) := by
  cases h with
  | filled name h =>
    rw [markup, markup, isHoisted, if_pos h, Text.escape_eq_ofList_replaced]
    intro rest
    simp only [List.map_cons, List.map_nil, Part.fill, if_true, List.cons_append, List.nil_append]
    rw [Part.merge_text_text, Part.merge_text_text]
  | other h =>
    cases h with
    | named kind name hj =>
      rw [markup, markup, isHoisted_of_renumbers hj]
      split
      · rw [List.map_cons, List.map_cons, Part.fill_expr value hj]
        exact .refl _
      · exact .refl _
    | _ => exact .refl _

end Binding

/-! ## Heads -/

theorem Binding.propsAll_of_fills {bs bs' : List Binding}
    (h : List.Forall₂ (Binding.Fills oracle i value) bs bs') (n m : Nat) :
    propsAll (oracle.without i) n m bs' = propsAll oracle n m bs := by
  induction h generalizing n m with
  | nil => rfl
  | cons hb _ ih =>
    rw [propsAll, propsAll, props_of_fills hb, exprs_of_fills hb, data_of_fills hb, ih,
      List.length_map]

namespace Head

variable {head head' : Head} (h : head.Matches (Binding.Fills oracle i value) (Renumbers i) head')
include h

theorem exprs_of_matches :
    head'.exprs (oracle.without i) = (head.exprs oracle).map (renumber i) := by
  rw [exprs, exprs, ClassPart.exprs_of_matches h.cls, List.map_append, List.map_flatMap]
  exact congrArg (_ ++ ·) (flatMap_of_forall₂ h.bindings Binding.exprs_of_fills)

theorem length_exprs_of_matches :
    (head'.exprs (oracle.without i)).length = (head.exprs oracle).length := by
  rw [exprs_of_matches h, List.length_map]

theorem data_of_matches : head'.data (oracle.without i) = head.data oracle :=
  flatMap_of_forall₂ h.bindings Binding.data_of_fills

theorem props_of_matches (n m : Nat) :
    head'.props (oracle.without i) n m = head.props oracle n m := by
  rw [props, props, ClassPart.props_of_matches h.cls, ClassPart.exprs_of_matches h.cls,
    List.length_map, Binding.propsAll_of_fills h.bindings]

theorem merges_attrs : Part.Merges ((head.attrs oracle).map (Part.fill i value))
    (head'.attrs (oracle.without i)) := by
  have hbindings : ∀ {bs bs' : List Binding},
      List.Forall₂ (Binding.Fills oracle i value) bs bs' →
      Part.Merges ((bs.flatMap (·.markup oracle)).map (Part.fill i value))
        (bs'.flatMap (·.markup (oracle.without i))) := by
    intro bs bs' hbs
    induction hbs with
    | nil => exact .refl _
    | cons hb _ ih =>
      rw [List.flatMap_cons, List.flatMap_cons, List.map_append]
      exact (Binding.merges_of_fills hb).append ih
  rw [attrs, attrs, List.map_append, ClassPart.markup_of_matches h.cls value]
  exact (Part.Merges.refl _).append (hbindings h.bindings)

theorem isEmpty_attrs :
    (head'.attrs (oracle.without i)).isEmpty = (head.attrs oracle).isEmpty := by
  rw [← (merges_attrs h).isEmpty_eq, List.isEmpty_map]

theorem merges_opening : Part.Merges ((head.opening oracle).map (Part.fill i value))
    (head'.opening (oracle.without i)) := by
  rw [opening, opening, List.map_append, List.map_cons, h.tag]
  exact ((Part.Merges.refl [.text _]).append (merges_attrs h)).append (.refl _)

theorem closing_of_matches (i : Nat) (value : String) :
    head'.closing = head.closing.map (Part.fill i value) := by
  rw [closing, closing, h.isVoid, h.tag]
  split <;> rfl

end Head

/-! ## Content -/

namespace Content

variable {c c' : Content} (h : c.Matches (Binding.Fills oracle i value) (Renumbers i) c')
include h

theorem exprs_of_matches : c'.exprs (oracle.without i) = (c.exprs oracle).map (renumber i) := by
  induction h with
  | nil => rfl
  | text s _ ih => exact ih
  | expr hj _ ih =>
    rw [exprs, exprs, List.map_cons, ← hj.2]
    exact congrArg (_ :: ·) ih
  | element hhead _ _ ihInner ihNext =>
    rw [exprs, exprs, Head.exprs_of_matches hhead, ihInner, ihNext, List.map_append,
      List.map_append]

theorem length_exprs_of_matches :
    (c'.exprs (oracle.without i)).length = (c.exprs oracle).length := by
  rw [exprs_of_matches h, List.length_map]

theorem data_of_matches : c'.data (oracle.without i) = c.data oracle := by
  induction h with
  | nil => rfl
  | text s _ ih => exact ih
  | expr _ _ ih => exact ih
  | element hhead _ _ ihInner ihNext =>
    rw [data, data, Head.data_of_matches hhead, ihInner, ihNext]

theorem exprCount_of_matches : c'.exprCount = c.exprCount := by
  induction h with
  | nil => rfl
  | text s _ ih => exact ih
  | expr _ _ ih => exact congrArg (· + 1) ih
  | element _ _ _ ihInner ihNext => rw [exprCount, exprCount, ihInner, ihNext]

theorem hasExpr_of_matches : c'.hasExpr = c.hasExpr := by
  induction h with
  | nil => rfl
  | text s _ ih => exact ih
  | expr _ _ _ => rfl
  | element _ _ _ _ ihNext => exact ihNext

theorem hasMarkup_of_matches : c'.hasMarkup = c.hasMarkup := by
  induction h with
  | expr _ _ ih => exact ih
  | _ => rfl

omit h in
theorem isUpdated_of_matches {head head' : Head} {inner inner' : Content}
    (hhead : head.Matches (Binding.Fills oracle i value) (Renumbers i) head')
    (hinner : inner.Matches (Binding.Fills oracle i value) (Renumbers i) inner') :
    isUpdated (oracle.without i) head' inner' = isUpdated oracle head inner := by
  rw [isUpdated, isUpdated, Head.exprs_of_matches hhead, List.isEmpty_map,
    hasExpr_of_matches hinner]

theorem steps_of_matches (before : Before) :
    c'.steps (oracle.without i) before = c.steps oracle before := by
  induction h generalizing before with
  | nil => rfl
  | text s _ ih => rw [steps, steps, ih]
  | expr _ _ ih => exact ih _
  | element hhead hinner _ ihInner ihNext =>
    rw [steps, steps, ihInner, ihNext, isUpdated_of_matches hhead hinner]

theorem walk_of_matches : c'.walk (oracle.without i) = c.walk oracle := by
  rw [walk, walk, steps_of_matches h]

theorem span_of_matches (before : Before) :
    c'.span (oracle.without i) before = c.span oracle before := by
  rw [← length_trim_steps, ← length_trim_steps, steps_of_matches h]

theorem inserts_of_matches (before : Before) (pos n : Nat) :
    c'.inserts (oracle.without i) before pos n = c.inserts oracle before pos n := by
  induction h generalizing before pos n with
  | nil => rfl
  | text s _ ih => rw [inserts, inserts, ih]
  | expr _ _ ih => rw [inserts, inserts, ih]
  | element hhead hinner _ _ ihNext =>
    rw [inserts, inserts, ihNext, width, width, span_of_matches hinner,
      Head.length_exprs_of_matches hhead, length_exprs_of_matches hinner]

theorem sites_of_matches (before : Before) (pos n m : Nat) :
    c'.sites (oracle.without i) before pos n m = c.sites oracle before pos n m := by
  induction h generalizing before pos n m with
  | nil => rfl
  | text s _ ih => rw [sites, sites, ih]
  | expr _ _ ih => rw [sites, sites, ih]
  | element hhead hinner _ ihInner ihNext =>
    rw [sites, sites, ihInner, ihNext, width, width, span_of_matches hinner,
      inserts_of_matches hinner, Head.props_of_matches hhead, Head.data_of_matches hhead,
      Head.length_exprs_of_matches hhead, length_exprs_of_matches hinner, data_of_matches hinner]

theorem merges_markup (before : Before) :
    Part.Merges ((c.markup oracle before).map (Part.fill i value))
      (c'.markup (oracle.without i) before) := by
  induction h generalizing before with
  | nil => exact .refl _
  | text s _ ih =>
    rw [markup, markup, List.map_append, List.map_cons]
    have hanchor : (if before.needsAnchor then [Part.text "<!>"] else []).map (Part.fill i value) =
        if before.needsAnchor then [Part.text "<!>"] else [] := by
      split <;> rfl
    rw [hanchor]
    exact (Part.Merges.refl _).append ((Part.Merges.refl [.text _]).append (ih _))
  | expr _ _ ih => exact ih _
  | element hhead _ _ ihInner ihNext =>
    rw [markup, markup, List.map_append, List.map_append, List.map_append,
      ← Head.closing_of_matches hhead]
    exact (((Head.merges_opening hhead).append (ihInner _)).append (.refl _)).append (ihNext _)

end Content

/-! ## Elements and templates -/

namespace Element

variable {e e' : Element} (hhead : e.head.Matches (Binding.Fills oracle i value) (Renumbers i) e'.head)
  (hcontent : e.content.Matches (Binding.Fills oracle i value) (Renumbers i) e'.content)
include hhead hcontent

theorem sites_of_matches : e'.sites (oracle.without i) = e.sites oracle := by
  rw [sites, sites, Head.length_exprs_of_matches hhead, Head.props_of_matches hhead,
    Head.data_of_matches hhead, Content.inserts_of_matches hcontent,
    Content.sites_of_matches hcontent]

/-- The hole in the skeleton is filled. -/
theorem skeleton_of_matches :
    e'.skeleton (oracle.without i) = (e.skeleton oracle).fill i value := by
  have hbare : e'.isBare (oracle.without i) = e.isBare oracle := by
    rw [isBare, isBare, Head.isEmpty_attrs hhead, Content.hasMarkup_of_matches hcontent]
  have hmarkup : Part.Merges ((e.markup oracle).map (Part.fill i value))
      (e'.markup (oracle.without i)) := by
    rw [markup, markup, List.map_append, List.map_append, ← Head.closing_of_matches hhead]
    exact ((Head.merges_opening hhead).append (Content.merges_markup hcontent _)).append (.refl _)
  rw [skeleton, skeleton, hbare, hhead.tag]
  split
  · rfl
  · rw [Skeleton.fill, Part.merge_map_merge (fun _ => rfl), hmarkup.merge_eq]

omit hhead hcontent in
theorem fits_of_matches {head head' : Head} {inner inner' : Content}
    (hinner : inner.Matches (Binding.Fills oracle i value) (Renumbers i) inner')
    (h : fits oracle ⟨head, inner⟩ = true) : fits (oracle.without i) ⟨head', inner'⟩ = true := by
  unfold fits at h ⊢
  dsimp only at h ⊢
  rwa [Content.span_of_matches hinner]

end Element

/-- **The artifact of a template with the value written in is the artifact with the value
filled in.** -/
theorem Template.compiled_of_matches {t t' : Template}
    (hcloning : t'.disableCloning = t.disableCloning)
    (hhead : t.root.head.Matches (Binding.Fills oracle i value) (Renumbers i) t'.root.head)
    (hcontent : t.root.content.Matches (Binding.Fills oracle i value) (Renumbers i)
      t'.root.content) (svg : Bool) :
    t'.compiled (oracle.without i) svg = (t.compiled oracle svg).fill i value := by
  have hsites := Element.sites_of_matches hhead hcontent
  have hslots : t'.root.slots (oracle.without i) = t.root.slots oracle := by
    rw [Element.slots, Element.slots, Content.walk_of_matches hcontent]
  have hexprs : t'.root.exprs (oracle.without i) = (t.root.exprs oracle).map (renumber i) := by
    rw [Element.exprs, Element.exprs, Head.exprs_of_matches hhead,
      Content.exprs_of_matches hcontent, List.map_append]
  rw [compiled, compiled, Artifact.fill, hcloning, hslots, hexprs,
    Element.skeleton_of_matches hhead hcontent, Content.exprCount_of_matches hcontent,
    Content.walk_of_matches hcontent, Element.propOps, Element.propOps, Element.childOps,
    Element.childOps, hsites, hslots, Element.data, Element.data, Head.data_of_matches hhead,
    Content.data_of_matches hcontent]

end Filling
end Stencil
