import Mathlib.Data.Bool.Basic
import Mathlib.Data.List.Flatten
import Stencil.Proofs.References
import Stencil.Proofs.Rules
import Stencil.Proofs.SizeTest

/-!
# What the oracle decides

The oracle says which values go into the markup. Two oracles read the same template, unless one
of them finds an element too large: reading without a size test is what both are compared with
(`compile_eq_ok_of_plain`, `exists_error_of_plain`). What is placed among the children of an
element does not depend on the answers either, because the groups of placements are those of the
element.

An oracle that answers yes more often leaves less to be done later. Its tables are sublists of
the other oracle's, and so are the places of the nodes that are saved; the walk gets no longer,
so nothing that fitted before stops fitting (`Template.read_mono`).
-/

namespace Stencil

/-! ## Two oracles read one template -/

section Plain

variable {oracle : Oracle} {svg : Bool} {fragments : List String}

/-- A template that compiles is the one that is read without size tests. -/
theorem compile_eq_ok_of_plain {a : Artifact} (h : (compile oracle svg fragments).result = .ok a) :
    ∃ t r, Template.read (fun _ => true) (Reader.ofFragments fragments) = .ok (t, r)
      ∧ a = t.compiled oracle svg
      ∧ (compile oracle svg fragments).asked = r.asked.reverse := by
  obtain ⟨_, t, r, hread, ha, hasked⟩ := compile_eq_ok h
  rcases Template.read_cut (Element.fits oracle) (Reader.ofFragments fragments) with
    hsame | ⟨s, hcut, _⟩
  · exact ⟨t, r, hsame.symm.trans hread, ha, hasked⟩
  · cases hcut.symm.trans hread

/-- A fault that is not one of size shows without size tests too. -/
theorem exists_plain_failure {d : Diagnostic} (hne : fragments ≠ [])
    (h : (compile oracle svg fragments).result = .error d) (hcode : d.code ≠ "E-SIZE") :
    ∃ failure, Template.read (fun _ => true) (Reader.ofFragments fragments) = .error failure
      ∧ d = failure.diagnostic fragments := by
  obtain ⟨failure, rfl, hread | ⟨t, r, _, rfl⟩⟩ := compile_eq_error hne h
  · rcases Template.read_cut (Element.fits oracle) (Reader.ofFragments fragments) with
      hsame | ⟨s, hcut, _⟩
    · exact ⟨failure, hsame.symm.trans hread, rfl⟩
    · cases hcut.symm.trans hread
      exact absurd rfl hcode
  · exact absurd rfl hcode

/-- A fault that shows without size tests is reported, unless a size test comes first. -/
theorem exists_error_of_plain {failure : Failure} (hne : fragments ≠ [])
    (h : Template.read (fun _ => true) (Reader.ofFragments fragments) = .error failure) :
    ∃ d, (compile oracle svg fragments).result = .error d
      ∧ (d = failure.diagnostic fragments ∨ d.code = "E-SIZE") := by
  rcases Template.read_cut (Element.fits oracle) (Reader.ofFragments fragments) with
    hsame | ⟨s, hcut, _⟩
  · exact ⟨_, compile_of_read_error svg hne (hsame.trans h), .inl rfl⟩
  · obtain ⟨d, hresult, hcode⟩ := compile_of_read_size hne hcut
    exact ⟨d, hresult, .inr hcode⟩

end Plain

/-! ## The values that are placed -/

/-- The expression that a placement is about, if it places a value. -/
def Placement.expr? : Placement → Option Nat
  | value e => some e
  | before _ => none

/-- The expressions that the child ops refer to, in the order of the ops. -/
def Artifact.placed (a : Artifact) : List (Option Nat) :=
  (a.childOps.filterMap ChildOp.input?).map (a.exprs[·]?)

namespace Group

variable {Op α : Type} {meaning : Op → Option (Place ⊕ α)}

theorem ofStream_ne_nil {place : Place} {ops : List Op} {groups : List (Group α)}
    (h : ofStream meaning place ops = some groups) : groups ≠ [] := by
  induction ops generalizing place groups with
  | nil =>
    cases h
    exact List.cons_ne_nil _ _
  | cons op ops ih =>
    rw [ofStream] at h
    split at h
    · cases h
    · obtain ⟨gs, _, rfl⟩ := Option.map_eq_some_iff.mp h
      exact List.cons_ne_nil _ _
    · obtain ⟨gs, hgs, rfl⟩ := Option.map_eq_some_iff.mp h
      obtain ⟨g, gs', rfl⟩ := List.exists_cons_of_ne_nil (ih hgs)
      exact List.cons_ne_nil _ _

theorem flatMap_acts_push (act : α) {groups : List (Group α)} (h : groups ≠ []) :
    (push act groups).flatMap Group.acts = act :: groups.flatMap Group.acts := by
  obtain ⟨g, gs, rfl⟩ := List.exists_cons_of_ne_nil h
  rfl

/-- The groups of a stream hold the acts of its ops, all of which have a meaning. -/
theorem flatMap_acts_ofStream {place : Place} {ops : List Op} {groups : List (Group α)}
    (h : ofStream meaning place ops = some groups) :
    (∀ op ∈ ops, meaning op ≠ none)
      ∧ groups.flatMap Group.acts = ops.filterMap fun op => (meaning op).bind Sum.getRight? := by
  induction ops generalizing place groups with
  | nil =>
    cases h
    exact ⟨fun op hop => absurd hop List.not_mem_nil, rfl⟩
  | cons op ops ih =>
    rw [ofStream] at h
    rw [List.forall_mem_cons]
    split at h
    · cases h
    · next next hop =>
      obtain ⟨gs, hgs, rfl⟩ := Option.map_eq_some_iff.mp h
      obtain ⟨hmeans, hacts⟩ := ih hgs
      refine ⟨⟨by simp [hop], hmeans⟩, ?_⟩
      rw [List.filterMap_cons_none (by rw [hop]; rfl), ← hacts]
      rfl
    · next act hop =>
      obtain ⟨gs, hgs, rfl⟩ := Option.map_eq_some_iff.mp h
      obtain ⟨hmeans, hacts⟩ := ih hgs
      refine ⟨⟨by simp [hop], hmeans⟩, ?_⟩
      rw [List.filterMap_cons_some (b := act) (by rw [hop]; rfl), ← hacts,
        flatMap_acts_push act (ofStream_ne_nil hgs)]

end Group

/-- The entry that an op refers to is the value that it places. -/
theorem ChildOp.entry_eq {tables : Tables} {op : ChildOp} (h : op.meaning tables ≠ none) :
    op.input?.map (tables.exprs[·]?) =
      (((op.meaning tables).bind Sum.getRight?).bind Placement.expr?).map some := by
  cases op with
  | child input =>
    rw [meaning] at h ⊢
    rw [input?, Option.map_some]
    cases hentry : tables.exprs[input]? with
    | none =>
      rw [hentry] at h
      exact absurd rfl h
    | some e => rfl
  | setNext slot =>
    rw [meaning]
    cases tables.places[slot]? <;> rfl
  | setParent slot =>
    rw [meaning]
    cases tables.places[slot]? <;> rfl

theorem Group.placed_of_ofStream {tables : Tables} {place : Place} {ops : List ChildOp}
    {groups : List (Group Placement)}
    (h : ofStream (ChildOp.meaning tables) place ops = some groups) :
    (ops.filterMap ChildOp.input?).map (tables.exprs[·]?) =
      ((groups.flatMap Group.acts).filterMap Placement.expr?).map some := by
  obtain ⟨hmeans, hacts⟩ := flatMap_acts_ofStream h
  rw [hacts, List.filterMap_filterMap, List.map_filterMap, List.map_filterMap]
  exact List.filterMap_congr fun op hop => ChildOp.entry_eq (hmeans op hop)

/-- The expressions that stand as content, in the order in which their values are placed. -/
def Element.placedExprs (e : Element) : List Nat :=
  (e.placementGroups.flatMap Group.acts).filterMap Placement.expr?

theorem Template.placed_compiled (oracle : Oracle) (svg : Bool) (t : Template) :
    (t.compiled oracle svg).placed = t.root.placedExprs.map some :=
  Group.placed_of_ofStream (Element.ofStream_childOps oracle t.root)

/--
**The oracle decides about folding and about nothing else.** A fault other than one of size is
found with any oracle, or one of size is. And if a template compiles with two oracles, they were
asked the same questions, the summary has the same number of dynamic children, and the child ops
place the same expressions in the same order.
-/
theorem compile_folds_only (o₁ o₂ : Oracle) (svg : Bool) (fragments : List String) :
    (∀ d, (compile o₁ svg fragments).result = .error d → d.code ≠ "E-SIZE" →
      ∃ d', (compile o₂ svg fragments).result = .error d' ∧ (d' = d ∨ d'.code = "E-SIZE"))
    ∧ ∀ a b, (compile o₁ svg fragments).result = .ok a →
      (compile o₂ svg fragments).result = .ok b →
        (compile o₁ svg fragments).asked = (compile o₂ svg fragments).asked
        ∧ a.disableCloning = b.disableCloning
        ∧ a.flags.children = b.flags.children
        ∧ ∃ exprs : List Nat, a.placed = exprs.map some ∧ b.placed = exprs.map some := by
  constructor
  · intro d h hcode
    by_cases hne : fragments = []
    · -- nothing is read of an empty template, so the oracle has no say
      subst hne
      exact ⟨d, h, .inl rfl⟩
    · obtain ⟨failure, hplain, rfl⟩ := exists_plain_failure hne h hcode
      exact exists_error_of_plain hne hplain
  · intro a b ha hb
    obtain ⟨t, r, hplain, rfl, hasked⟩ := compile_eq_ok_of_plain ha
    obtain ⟨t', r', hplain', rfl, hasked'⟩ := compile_eq_ok_of_plain hb
    cases hplain.symm.trans hplain'
    exact ⟨hasked.trans hasked'.symm, rfl, rfl, t.root.placedExprs, t.placed_compiled o₁ svg,
      t.placed_compiled o₂ svg⟩

/-- Four questions, answered no and answered yes. The child ops refer to other entries of other
tables, which are the same expressions. -/
theorem compile_folds_only_mixed :
    (∃ d, (compile (fun _ => false) false ["p", " :a=", " 'x'\n  é"]).result = .error d
      ∧ d.code = "E-TAG"
      ∧ ∃ d', (compile (fun _ => true) false ["p", " :a=", " 'x'\n  é"]).result = .error d'
        ∧ (d' = d ∨ d'.code = "E-SIZE"))
    ∧ ∃ a b, (compile (fun _ => false) false ["-c ul", " :a=", " .b=", " 'x' ", " 'y' ", "\n  li",
        " :c='d' :e=", "\n    ", ""]).result = .ok a
      ∧ (compile (fun _ => true) false ["-c ul", " :a=", " .b=", " 'x' ", " 'y' ", "\n  li",
        " :c='d' :e=", "\n    ", ""]).result = .ok b
      ∧ a.exprs = [0, 1, 2, 3, 4, 5, 6, 7] ∧ b.exprs = [2, 3, 4, 7]
      ∧ a.flags.children = b.flags.children
      ∧ ∃ exprs : List Nat, a.placed = exprs.map some ∧ b.placed = exprs.map some := by
  have hfault : (compile (fun _ => false) false ["p", " :a=", " 'x'\n  é"]).diagnostic? =
      some ⟨"E-TAG", "expected a valid tag name", 2, 7⟩ := by decide +kernel
  have hfault := Outcome.result_of_diagnostic? hfault
  refine ⟨⟨_, hfault, rfl, (compile_folds_only _ _ _ _).1 _ hfault (by decide)⟩, ?_⟩
  generalize hf : ["-c ul", " :a=", " .b=", " 'x' ", " 'y' ", "\n  li", " :c='d' :e=", "\n    ", ""] =
    fragments
  have hexprs₁ : (compile (fun _ => false) false fragments).result.toOption.map Artifact.exprs =
      some [0, 1, 2, 3, 4, 5, 6, 7] := by
    rw [← hf]
    decide +kernel
  have hexprs₂ : (compile (fun _ => true) false fragments).result.toOption.map Artifact.exprs =
      some [2, 3, 4, 7] := by
    rw [← hf]
    decide +kernel
  obtain ⟨a, ha, hexprs₁⟩ := exists_of_toOption_map hexprs₁
  obtain ⟨b, hb, hexprs₂⟩ := exists_of_toOption_map hexprs₂
  obtain ⟨_, _, hchildren, hplaced⟩ := (compile_folds_only _ _ _ _).2 a b ha hb
  exact ⟨a, b, ha, hb, hexprs₁, hexprs₂, hchildren, hplaced⟩

/-! ## More that is hoisted -/

section Hoists

variable {o₁ o₂ : Oracle} (h : ∀ i, o₁ i = true → o₂ i = true)

/-- What is left out under more conditions is less. -/
theorem ite_nil_sublist {α : Type} {p q : Bool} (hpq : p = true → q = true) (xs : List α) :
    (if q then [] else xs).Sublist (if p then [] else xs) := by
  by_cases hp : p = true
  · rw [if_pos (hpq hp)]
    exact List.nil_sublist _
  · rw [if_neg hp]
    split
    · exact List.nil_sublist _
    · exact .refl _

include h

theorem ClassPart.exprs_sublist (cls : ClassPart) : (cls.exprs o₂).Sublist (cls.exprs o₁) := by
  cases cls with
  | names list => exact .refl _
  | expr i => exact ite_nil_sublist (h i) [i]

theorem Binding.isHoisted_mono {b : Binding} (hb : b.isHoisted o₁ = true) :
    b.isHoisted o₂ = true := by
  cases b with
  | named kind name i =>
    cases kind with
    | attr => exact h i hb
    | _ => exact hb
  | _ => exact hb

theorem Binding.exprs_sublist (b : Binding) : (b.exprs o₂).Sublist (b.exprs o₁) := by
  cases b with
  | named kind name i => exact ite_nil_sublist (isHoisted_mono h) [i]
  | _ => exact .refl _

theorem Binding.data_sublist (b : Binding) : (b.data o₂).Sublist (b.data o₁) := by
  cases b with
  | named kind name i => exact ite_nil_sublist (isHoisted_mono h) [name]
  | _ => exact .refl _

theorem Head.exprs_sublist (head : Head) : (head.exprs o₂).Sublist (head.exprs o₁) :=
  (head.cls.exprs_sublist h).append
    (List.Sublist.flatMap_right head.bindings fun b _ => b.exprs_sublist h)

theorem Head.data_sublist (head : Head) : (head.data o₂).Sublist (head.data o₁) :=
  List.Sublist.flatMap_right head.bindings fun b _ => b.data_sublist h

namespace Content

theorem exprs_sublist (c : Content) : (c.exprs o₂).Sublist (c.exprs o₁) := by
  induction c with
  | nil => exact .refl _
  | text s next ih => exact ih
  | expr i next ih => exact ih.cons_cons i
  | element head inner next ihInner ihNext =>
    exact ((head.exprs_sublist h).append ihInner).append ihNext

theorem data_sublist (c : Content) : (c.data o₂).Sublist (c.data o₁) := by
  induction c with
  | nil => exact .refl _
  | text s next ih => exact ih
  | expr i next ih => exact ih
  | element head inner next ihInner ihNext =>
    exact ((head.data_sublist h).append ihInner).append ihNext

/-- An element that is updated with more hoisted is updated with less hoisted. -/
theorem isUpdated_anti {head : Head} {inner : Content} (hu : isUpdated o₂ head inner = true) :
    isUpdated o₁ head inner = true := by
  unfold isUpdated at hu ⊢
  rw [Bool.or_eq_true, Bool.not_eq_true', List.isEmpty_eq_false_iff] at hu ⊢
  rcases hu with hexprs | hexpr
  · refine .inl fun hnil => hexprs ?_
    have hsublist := head.exprs_sublist h
    rw [hnil] at hsublist
    exact List.sublist_nil.mp hsublist
  · exact .inr hexpr

theorem isSaved_anti {before : Before} {head : Head} {inner : Content}
    (hs : (before.expr || isUpdated o₂ head inner) = true) :
    (before.expr || isUpdated o₁ head inner) = true := by
  rw [Bool.or_eq_true] at hs ⊢
  exact hs.imp_right (isUpdated_anti h)

/-- The walk gets no longer. -/
theorem span_le (before : Before) (c : Content) : c.span o₂ before ≤ c.span o₁ before := by
  induction c generalizing before with
  | nil => exact Nat.le_refl 0
  | text s next ih =>
    have hrest := ih .afterText
    have hexpr : before.expr.toNat ≤ 1 := Bool.toNat_le before.expr
    have hwidth : 1 ≤ before.widthOfText := by
      unfold Before.widthOfText
      split <;> omega
    rw [span, span]
    split <;> split <;> omega
  | expr i next ih => exact ih _
  | element head inner next ihInner ihNext =>
    have hinside := ihInner .nothing
    have hrest := ihNext .nothing
    -- the one case in which the oracle is asked: nothing is saved inside or after
    have hsaves : (before.expr || isUpdated o₂ head inner).toNat ≤
        (before.expr || isUpdated o₁ head inner).toNat :=
      Bool.toNat_le_toNat (Bool.le_iff_imp.mpr (isSaved_anti h))
    have hone : (before.expr || isUpdated o₂ head inner).toNat ≤ 1 := Bool.toNat_le _
    rw [span, span]
    unfold widthOfElement
    split <;> split <;> split <;> split <;> omega

/-- The nodes that are saved are among those that were saved. -/
theorem places_sublist (before : Before) (pos₁ pos₂ : Nat) (p : Place) (i : Nat) (c : Content) :
    ((c.marks o₂ before pos₂ p i).map Mark.place).Sublist
      ((c.marks o₁ before pos₁ p i).map Mark.place) := by
  induction c generalizing before pos₁ pos₂ p i with
  | nil => exact .refl _
  | text s next ih =>
    rw [marks, marks, List.map_append, List.map_append]
    refine List.Sublist.append ?_ (ih ..)
    split <;> exact .refl _
  | expr j next ih => exact ih ..
  | element head inner next ihInner ihNext =>
    rw [marks, marks, List.map_append, List.map_append, List.map_append, List.map_append]
    refine List.Sublist.append ?_ ((ihInner ..).append (ihNext ..))
    by_cases hsaved : (before.expr || isUpdated o₂ head inner) = true
    · rw [if_pos hsaved, if_pos (isSaved_anti h hsaved)]
      exact .refl _
    · rw [if_neg hsaved]
      exact List.nil_sublist _

end Content

theorem Element.fits_mono {e : Element} (hfits : e.fits o₁ = true) : e.fits o₂ = true := by
  unfold Element.fits at hfits ⊢
  rw [decide_eq_true_iff] at hfits ⊢
  exact Nat.le_trans (Content.span_le h .nothing e.content) hfits

end Hoists

/-! ## Size tests that pass more -/

section Reading

variable {fits fits' : Element → Bool} (h : ∀ e, fits e = true → fits' e = true)

include h

theorem Reader.Yields.mono {base : Nat} {r s : Reader} {c : Content} (hy : r.Yields fits base c s) :
    r.Yields fits' base c s := by
  induction hy with
  | ended hend => exact .ended hend
  | expr hindent hexpr _ ih => exact .expr hindent hexpr ih
  | text hindent hliteral htext _ ih => exact .text hindent hliteral htext ih
  | void hindent hliteral hhead hvoid hfits _ ih =>
    exact .void hindent hliteral hhead hvoid (h _ hfits) ih
  | element hindent hliteral hhead hvoid _ hfits _ ihInner ihMore =>
    exact .element hindent hliteral hhead hvoid ihInner (h _ hfits) ihMore

/-- What is read in spite of a size test is read with any test that passes more. -/
theorem Template.read_mono {r s : Reader} {t : Template} (hread : Template.read fits r = .ok (t, s)) :
    Template.read fits' r = .ok (t, s) := by
  obtain ⟨u, hoptions, helement⟩ := Template.read_eq_ok_iff.mp hread
  refine Template.read_eq_ok_iff.mpr ⟨u, hoptions, ?_⟩
  obtain ⟨v, hhead, hvoid | ⟨hvoid, hcontent⟩⟩ := Reader.element_eq_ok_iff.mp helement
  · exact Reader.element_eq_ok_iff.mpr ⟨v, hhead, .inl hvoid⟩
  · have hyields := (Reader.content_eq_ok_iff.mp hcontent).mono h
    exact Reader.element_eq_ok_iff.mpr ⟨v, hhead, .inr ⟨hvoid, hyields.content_eq⟩⟩

end Reading

/-- No count of `b` is beyond that of `a`. -/
structure Artifact.AtMost (b a : Artifact) : Prop where
  slots : b.flags.slots ≤ a.flags.slots
  children : b.flags.children ≤ a.flags.children
  stateOps : b.stateOps.length ≤ a.stateOps.length
  data : b.data.length ≤ a.data.length
  exprs : b.exprs.length ≤ a.exprs.length

theorem Artifact.AtMost.fits {a b : Artifact} (h : b.AtMost a) (ha : a.fits = true) :
    b.fits = true := by
  obtain ⟨hslots, hchildren, _, hdata, hexprs⟩ := h
  unfold Artifact.fits at ha ⊢
  simp only [Bool.and_eq_true, decide_eq_true_eq] at ha ⊢
  omega

theorem Template.compiled_atMost {o₁ o₂ : Oracle} (h : ∀ i, o₁ i = true → o₂ i = true) (svg : Bool)
    (t : Template) : (t.compiled o₂ svg).AtMost (t.compiled o₁ svg) where
  slots := by
    have hplaces := (Content.places_sublist h .nothing 0 0 [] 0 t.root.content).length_le
    rw [List.length_map, List.length_map] at hplaces
    show (t.root.slots o₂).size ≤ (t.root.slots o₁).size
    rw [Element.size_slots, Element.size_slots]
    omega
  children := Nat.le_refl _
  stateOps := by
    show (t.root.content.walk o₂).length ≤ (t.root.content.walk o₁).length
    rw [Content.length_walk, Content.length_walk]
    exact Content.span_le h .nothing t.root.content
  data := ((t.root.head.data_sublist h).append (t.root.content.data_sublist h)).length_le
  exprs := ((t.root.head.exprs_sublist h).append (t.root.content.exprs_sublist h)).length_le

/--
**Hoisting more never makes a template too large.** If a template compiles, it compiles with
every oracle that says yes wherever the first one does, and to an artifact with no more slots,
steps, names and expressions.
-/
theorem compile_hoisting_more {o₁ o₂ : Oracle} {svg : Bool} {fragments : List String} {a : Artifact}
    (h : ∀ i, o₁ i = true → o₂ i = true) (ha : (compile o₁ svg fragments).result = .ok a) :
    ∃ b, (compile o₂ svg fragments).result = .ok b ∧ b.AtMost a := by
  have hfits := fits_of_compile ha
  obtain ⟨hne, t, r, hread, rfl, _⟩ := compile_eq_ok ha
  have hless := t.compiled_atMost h svg
  have hresult := compile_of_read svg hne
    (Template.read_mono (fun e => Element.fits_mono h) hread)
  rw [if_pos (hless.fits hfits)] at hresult
  exact ⟨_, hresult, hless⟩

/-- An element that need not be updated any more is not saved, and one with nothing saved inside
is not entered. -/
theorem compile_hoisting_more_nested :
    (∀ i : Nat, (i == 0) = true → (i != 3) = true)
      ∧ ∃ a b, (compile (· == 0) false
          ["ul", "\n  li", "\n    i :a=", " .b=", "\n  li\n    b :c=", ""]).result = .ok a
        ∧ (compile (· != 3) false
          ["ul", "\n  li", "\n    i :a=", " .b=", "\n  li\n    b :c=", ""]).result = .ok b
        ∧ a.stateOps = [.enter 1 true, .save, .next false, .enter 1 false, .save]
        ∧ b.stateOps = [.enter 1 false, .save]
        ∧ b.AtMost a := by
  have hyes : ∀ i : Nat, (i == 0) = true → (i != 3) = true := by
    intro i hi
    rw [beq_iff_eq] at hi
    subst hi
    rfl
  refine ⟨hyes, ?_⟩
  generalize hf : ["ul", "\n  li", "\n    i :a=", " .b=", "\n  li\n    b :c=", ""] = fragments
  have hwalk₁ : (compile (· == 0) false fragments).result.toOption.map Artifact.stateOps =
      some [.enter 1 true, .save, .next false, .enter 1 false, .save] := by
    rw [← hf]
    decide +kernel
  have hwalk₂ : (compile (· != 3) false fragments).result.toOption.map Artifact.stateOps =
      some [.enter 1 false, .save] := by
    rw [← hf]
    decide +kernel
  obtain ⟨a, ha, hwalk₁⟩ := exists_of_toOption_map hwalk₁
  obtain ⟨b, hb, hwalk₂⟩ := exists_of_toOption_map hwalk₂
  obtain ⟨b', hb', hless⟩ := compile_hoisting_more hyes ha
  cases hb.symm.trans hb'
  exact ⟨a, b, ha, hb, hwalk₁, hwalk₂, hless⟩

end Stencil
