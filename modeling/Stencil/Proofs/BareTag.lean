import Stencil.Proofs.Expressions
import Stencil.Proofs.References
import Stencil.Proofs.Traversal

/-!
# Bare tags

An element that has nothing but its tag is made without parsing any markup, so its skeleton is
the tag alone. Whether that is so is decided from the class, the bindings and the content, and
not from the markup that they would be written as. This file shows that the two agree: the tag
is taken exactly for those elements whose markup would be an opening tag without attributes
with its closing tag, and for these it stands for the same.

An empty text would break this, since it is there in the content but not in the markup. The
reader never lets one through.
-/

namespace Stencil

/-- The markup of an element that has nothing but its tag. -/
def bareMarkup (tag : String) : String :=
  if voidTags.contains tag then "<" ++ tag ++ ">" else "<" ++ tag ++ "></" ++ tag ++ ">"

/-! ## What is said of an element shows in its markup -/

/-- Content that is not written at all has neither texts nor elements. -/
theorem Content.hasMarkup_eq_false {oracle : Oracle} {before : Before} {c : Content}
    (hwf : c.WellFormed) (h : (c.markup oracle before).flatMap Part.symbols = []) :
    c.hasMarkup = false := by
  induction c generalizing before with
  | nil => rfl
  | text s next _ =>
    -- here a text that is empty would go unnoticed
    rw [markup, List.flatMap_append, List.append_eq_nil_iff, List.flatMap_cons,
      List.append_eq_nil_iff] at h
    have hnil : (Text.escape .running s).toList = [] := List.map_eq_nil_iff.mp h.2.1
    exact absurd hnil (Text.escape_ne_nil hwf.1)
  | expr i next ih => exact ih hwf h
  | element head inner next _ _ =>
    rw [markup, List.flatMap_append, List.flatMap_append, List.flatMap_append,
      Head.symbols_opening] at h
    cases h

/-! ## The tag alone -/

namespace Element

variable {oracle : Oracle} {e : Element}

theorem merge_markup_of_isBare (h : e.isBare oracle = true) :
    Part.merge (e.markup oracle) = [.text (bareMarkup e.head.tag)] := by
  rw [isBare, Bool.and_eq_true, List.isEmpty_iff, Bool.not_eq_true'] at h
  obtain ⟨hattrs, hcontent⟩ := h
  rw [markup, Head.opening, hattrs, Content.markup_eq_nil oracle .nothing hcontent, Head.closing,
    Head.isVoid, bareMarkup]
  split
  · rfl
  · exact congrArg (fun text => [Part.text text]) (String.toList_inj.mp (by simp))

/-- The two tags take up all the room, and leave none for attributes or content. -/
theorem isBare_of_merge_markup (hwf : e.WellFormed)
    (h : Part.merge (e.markup oracle) = [.text (bareMarkup e.head.tag)]) :
    e.isBare oracle = true := by
  have hsymbols : (e.markup oracle).flatMap Part.symbols =
      Symbol.ofChars (bareMarkup e.head.tag).toList := by
    rw [← Part.symbols_merge, h]
    exact List.append_nil _
  -- the lengths are enough: both sides have the characters of the tags
  have hlength := congrArg List.length hsymbols
  rw [markup, List.flatMap_append, List.flatMap_append, Head.symbols_opening,
    Head.symbols_closing, bareMarkup] at hlength
  have hroom : (e.head.attrSymbols oracle).length
      + ((e.content.markup oracle .nothing).flatMap Part.symbols).length = 0 := by
    generalize e.head.attrSymbols oracle = attrs at hlength ⊢
    generalize (e.content.markup oracle .nothing).flatMap Part.symbols = content at hlength ⊢
    split at hlength
    · simp [Token.symbols, Token.body, Symbol.ofChars] at hlength
      omega
    · simp [Token.symbols, Token.body, Symbol.ofChars] at hlength
      omega
  rw [Nat.add_eq_zero_iff, List.length_eq_zero_iff, List.length_eq_zero_iff] at hroom
  obtain ⟨hattrs, hcontent⟩ := hroom
  rw [isBare, Head.attrs_eq_nil hattrs, Content.hasMarkup_eq_false hwf.2.2 hcontent]
  rfl

/-- **The tag is taken exactly if the markup would be the bare tag.** -/
theorem skeleton_eq (hwf : e.WellFormed) :
    e.skeleton oracle =
      if Part.merge (e.markup oracle) = [.text (bareMarkup e.head.tag)] then .tag e.head.tag
      else .parts (Part.merge (e.markup oracle)) := by
  rw [skeleton]
  by_cases h : e.isBare oracle = true
  · rw [if_pos h, if_pos (merge_markup_of_isBare h)]
  · rw [if_neg h, if_neg fun hmerge => h (isBare_of_merge_markup hwf hmerge)]

end Element

/-! ## Nothing to find in a bare tag -/

theorem Content.steps_eq_nil {oracle : Oracle} {c : Content} (before : Before)
    (h : c.hasMarkup = false) : c.steps oracle before = [] := by
  induction c generalizing before with
  | nil => rfl
  | text s next _ => cases h
  | expr i next ih => exact ih _ h
  | element head inner next _ _ => cases h

/--
What there is to say of an artifact whose skeleton is a bare tag: the walk has nowhere to go, so
the only slot is the root's, and no op names another.
-/
structure Artifact.RootOnly (a : Artifact) : Prop where
  walk : a.stateOps = []
  slots : a.flags.slots = 1
  nodes : ∀ slot, PropOp.setNode slot ∉ a.propOps
  parents : ∀ slot, ChildOp.setParent slot ∉ a.childOps
  nexts : ∀ slot, ChildOp.setNext slot ∉ a.childOps

theorem Template.rootOnly_compiled {oracle : Oracle} (svg : Bool) {t : Template}
    (h : t.root.isBare oracle = true) : (t.compiled oracle svg).RootOnly := by
  rw [Element.isBare, Bool.and_eq_true, Bool.not_eq_true'] at h
  have hwalk : t.root.content.walk oracle = [] := by
    rw [Content.walk, Content.steps_eq_nil .nothing h.2]
    rfl
  have hslots : (t.root.slots oracle).size = 1 := by
    rw [Element.slots, hwalk]
    rfl
  -- a slot that some op names would have to be above 0 and below 1
  have hnamed : ∀ slot, ¬(slot ∈ (t.root.propOps oracle).filterMap PropOp.node?
      ∨ slot ∈ (t.root.childOps oracle).filterMap ChildOp.parent?
      ∨ slot ∈ (t.root.childOps oracle).filterMap ChildOp.next?) := by
    intro slot hslot
    have hbounds := (Element.named_iff oracle t.root).mp hslot
    omega
  refine ⟨hwalk, hslots, fun slot hmem => ?_, fun slot hmem => ?_, fun slot hmem => ?_⟩
  · exact hnamed slot (.inl (List.mem_filterMap.mpr ⟨_, hmem, rfl⟩))
  · exact hnamed slot (.inr (.inl (List.mem_filterMap.mpr ⟨_, hmem, rfl⟩)))
  · exact hnamed slot (.inr (.inr (List.mem_filterMap.mpr ⟨_, hmem, rfl⟩)))

/--
**A skeleton is cut down to the tag exactly if nothing is lost.** The parts that reading the
template has put together are the bare tag's markup, or else they are the skeleton; and with the
tag alone, all ops are about the root.
-/
theorem compile_bare {oracle : Oracle} {svg : Bool} {fragments : List String} {a : Artifact}
    (h : (compile oracle svg fragments).result = .ok a) :
    ∃ t r, Template.read (Element.fits oracle) (Reader.ofFragments fragments) = .ok (t, r)
      ∧ (a.template = .tag t.root.head.tag ↔
        Part.merge (t.root.markup oracle) = [.text (bareMarkup t.root.head.tag)])
      ∧ (∀ tag, a.template = .tag tag → tag = t.root.head.tag ∧ a.RootOnly)
      ∧ ∀ parts, a.template = .parts parts → parts = Part.merge (t.root.markup oracle) := by
  obtain ⟨_, t, r, hread, rfl, _⟩ := compile_eq_ok h
  have htemplate : (t.compiled oracle svg).template = _ :=
    Element.skeleton_eq (Template.wellFormed_of_read hread)
  refine ⟨t, r, hread, ?_⟩
  rw [htemplate]
  by_cases hmerge : Part.merge (t.root.markup oracle) = [.text (bareMarkup t.root.head.tag)]
  · have hbare := Element.isBare_of_merge_markup (Template.wellFormed_of_read hread) hmerge
    rw [if_pos hmerge]
    refine ⟨iff_of_true rfl hmerge, ?_, ?_⟩
    · intro tag htag
      exact ⟨(Skeleton.tag.inj htag).symm, Template.rootOnly_compiled svg hbare⟩
    · intro parts hparts
      cases hparts
  · rw [if_neg hmerge]
    refine ⟨iff_of_false (by simp) hmerge, ?_, ?_⟩
    · intro tag htag
      cases htag
    · intro parts hparts
      exact (Skeleton.parts.inj hparts).symm

/-- A class, an event and two children that are all dynamic, so nothing but the tag is written. -/
theorem compile_bare_dynamic :
    ∃ a, (compile (fun _ => false) true ["-c g", " @click=", " ", " ", ""]).result = .ok a
      ∧ a.template = .tag "g"
      ∧ a.propOps = [.common .className 0, .named .event 1 0] ∧ a.childOps = [.child 3, .child 2]
      ∧ a.RootOnly
      ∧ ∃ t r, Template.read (Element.fits fun _ => false)
          (Reader.ofFragments ["-c g", " @click=", " ", " ", ""]) = .ok (t, r)
        ∧ Part.merge (t.root.markup fun _ => false) = [.text "<g></g>"] := by
  generalize hf : ["-c g", " @click=", " ", " ", ""] = fragments
  have hparts : (compile (fun _ => false) true fragments).result.toOption.map
      (fun a => (a.template, a.propOps, a.childOps)) =
      some (.tag "g", [.common .className 0, .named .event 1 0], [.child 3, .child 2]) := by
    rw [← hf]
    decide +kernel
  obtain ⟨a, hresult, hparts⟩ := exists_of_toOption_map hparts
  obtain ⟨htemplate, hops⟩ := Prod.mk.inj hparts
  obtain ⟨hprops, hchildren⟩ := Prod.mk.inj hops
  obtain ⟨t, r, hread, hbare, hroot, _⟩ := compile_bare hresult
  obtain ⟨htag, honly⟩ := hroot "g" htemplate
  rw [← htag] at hbare
  exact ⟨a, hresult, htemplate, hprops, hchildren, honly, t, r, hread, hbare.mp htemplate⟩

end Stencil
