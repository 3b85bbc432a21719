import Stencil.Proofs.Expressions
import Stencil.Proofs.Filling
import Stencil.Proofs.Fork
import Stencil.Proofs.Printed
import Stencil.Proofs.Storage

/-!
# An invariant attribute is as good as a literal

An expression that is hoisted from an attribute can be replaced by its value as a literal.
That joins two fragments, so all expressions after it get other numbers; apart from this and
the value in its hole the artifact stays the same.

The two templates part at the equals sign. Before it their readers are in step. After the
attribute they face the same text again, and are in step with their fragments counted one
apart. In between only the attribute itself can be read: an equals sign at the end of a
fragment is followed by an expression, whatever binding it is in, and of these only an
attribute is hoisted.
-/

namespace Stencil

namespace Reader

/-! ## After the value -/

/-- Both readers are past expression `i`, which the second one does not count. -/
structure Beyond (i : Nat) (r r' : Reader) : Prop where
  past : i < r.index
  index : r'.index + 1 = r.index
  rest : r'.rest = r.rest
  later : r'.later = r.later
  indent : r'.indent = r.indent

theorem Beyond.inStep (i : Nat) : InStep 0 (Renumbers i) (Beyond i) where
  indent h := h.indent
  withIndent _ h := ⟨h.past, h.index, h.rest, h.later, rfl⟩
  next h := .inl (by rw [h.rest])
  char {r r' c cs} h _ hcs := ⟨cs, h.rest.trans hcs, h.past, h.index, rfl, h.later, h.indent⟩
  expr {r r' s j} h hexpr := by
    have hpast := h.past
    have hindex := h.index
    unfold takeExpr? at hexpr ⊢
    rw [h.rest, h.later]
    split at hexpr
    · obtain ⟨rfl, rfl⟩ := Prod.mk.inj (Option.some.inj hexpr)
      have hnumber : Renumbers i r.index r'.index := by
        refine ⟨by omega, ?_⟩
        rw [renumber, if_pos hpast]
        omega
      have hnext : i < r.index + 1 := by omega
      have hcount : r'.index + 1 + 1 = r.index + 1 := by omega
      exact ⟨r'.index, _, rfl, hnumber, ⟨hnext, hcount, rfl, rfl, h.indent⟩,
        ⟨hnext, hcount, rfl, rfl, h.indent⟩⟩
    · cases hexpr
  noExpr h hnone := by
    unfold takeExpr? at hnone ⊢
    rw [h.rest, h.later]
    split at hnone
    · cases hnone
    · rfl
  closed {r r' content rest} h hclosed _ :=
    ⟨rest, by rw [h.rest]; exact hclosed, h.past, h.index, rfl, h.later, h.indent⟩

theorem Beyond.equalsInStep (i : Nat) : EqualsInStep 0 (Beyond i) := by
  intro r r' s h hequals _
  obtain ⟨cs, hcs, rfl⟩ := exists_of_equals? hequals
  refine ⟨r'.withRest cs, ?_, h.past, h.index, rfl, h.later, h.indent⟩
  rw [equals?, h.rest, hcs]
  rfl

/-! ## At the equals sign -/

section Hoist

variable (i : Nat) (value g : List Char) (later : List (List Char))

/-- An equals sign, with expression `i` and the fragment `g` after it or with a literal. -/
def hoistFork : Fork where
  index := i
  tail := ['=']
  later := g :: later
  tail' := '=' :: (Text.quoted 0 value ++ g)
  later' := later

theorem hoistFork_alike : (hoistFork i value g later).Alike := .inl ⟨rfl, rfl⟩

variable {i value g later} {r r' s : Reader}

/-- A literal does not end with the equals sign at the end of the fragment. -/
theorem bound_le_of_closed {content rest : List Char}
    (h : (hoistFork i value g later).Before r r')
    (hclosed : literal? r.rest = some (.closed content rest)) :
    (hoistFork i value g later).bound ≤ (r.withRest rest).remaining := by
  cases h with
  | here front indent asked =>
    obtain ⟨hashes, _, hcs⟩ := literal?_eq_closed_iff.mp hclosed
    have hrest : rest ≠ [] := by
      rintro rfl
      have hequals : ['='] <:+ Text.quoted hashes content :=
        ⟨front, by rw [← List.append_nil (Text.quoted hashes content)]; exact hcs⟩
      have hclose : ('\'' :: List.replicate hashes '#') <:+ Text.quoted hashes content :=
        ⟨_, rfl⟩
      -- the last character of a literal is a quote or a `#`
      have hsuffix := List.suffix_of_suffix_length_le hequals hclose (by simp)
      rcases List.mem_cons.mp (hsuffix.mem (List.mem_singleton_self '=')) with hquote | hhash
      · exact absurd hquote (by decide)
      · exact absurd (List.eq_of_mem_replicate hhash) (by decide)
    have hlength := List.length_pos_of_ne_nil hrest
    simp only [Fork.bound, hoistFork, remaining, withRest, List.length_singleton]
    omega
  | ahead _ between front indent asked h =>
    have hahead : (hoistFork i value g later).Before _ _ := .ahead rest between front indent asked h
    exact hahead.bound_le

theorem before_inStep : InStep 0 (Renumbers i) (hoistFork i value g later).Before :=
  (Fork.inStep (hoistFork_alike i value g later) fun _ => renumbers_of_lt).unbounded
    bound_le_of_closed

/-- At the place itself the first reader takes expression `i` and the second has its value. -/
theorem attrBinding_crosses {b : Binding} (hvalue : value ≠ [])
    (hencloses : Text.Encloses 0 value) (h : (hoistFork i value g later).Before r r')
    (hb : r.attrBinding = .ok (b, s))
    (hbound : s.remaining < (hoistFork i value g later).bound) :
    ∃ name s', b = .named .attr name i
      ∧ r'.attrBinding = .ok (.value name (String.ofList value), s') ∧ Beyond i s s' := by
  obtain ⟨name, t, hname, hread⟩ := attrBinding_cases hb
  obtain ⟨t', hname', ht⟩ := before_inStep.tokens.name? h hname
  rcases hread with ⟨_, _, rfl⟩ | ⟨u, hequals, hread⟩
  · exact absurd ht.bound_le (by omega)
  · rcases ht.equals? hequals with ⟨u', _, hu⟩ | ⟨indent, asked, rfl, rfl⟩
    · -- what comes after an equals sign elsewhere is before the place as well
      rcases hread with ⟨text, hliteral, htext, _⟩ | ⟨v, j, w, hliteral, hexpr, _, rfl⟩
      · obtain ⟨s', _, hs⟩ := before_inStep.tokens.literal hu hliteral (Nat.zero_le _) (.inl htext)
        exact absurd hs.bound_le (by omega)
      · have hopens : ¬ OpensLiteral v.rest := by
          unfold OpensLiteral
          rw [rest_of_takeExpr? hexpr]
          simp
        obtain ⟨v', _, hv⟩ := before_inStep.tokens.literal hu hliteral (Nat.zero_le _) (.inr hopens)
        obtain ⟨_, w', _, _, hw, _⟩ := before_inStep.expr hv hexpr
        have := hw.bound_le
        rw [remaining_ask] at hbound
        omega
    · obtain rfl := Option.some.inj hequals
      have hempty := literal_of_rest_nil (r := ⟨i, [], g :: later, indent, asked⟩) rfl
      rcases hread with ⟨text, hliteral, htext, _⟩ | ⟨v, j, w, hliteral, hexpr, rfl, rfl⟩
      · exact absurd (Prod.mk.inj (Except.ok.inj (hliteral.symm.trans hempty))).1 htext
      · obtain ⟨_, rfl⟩ := Prod.mk.inj (Except.ok.inj (hliteral.symm.trans hempty))
        obtain ⟨rfl, rfl⟩ := Prod.mk.inj (Option.some.inj hexpr)
        have hclosed : literal? (Text.quoted 0 value ++ g) = some (.closed value g) :=
          literal?_eq_closed_iff.mpr ⟨0, hencloses, rfl⟩
        have hliteral' : literal ⟨i, Text.quoted 0 value ++ g, later, indent, asked⟩ =
            .ok (String.ofList value, ⟨i, g, later, indent, asked⟩) := by
          rw [literal, hclosed]
          rfl
        have htext : String.ofList value ≠ "" := by
          intro htext
          exact hvalue (String.ofList_injective htext)
        exact ⟨name, _, rfl, attrBinding_value hname' rfl hliteral' htext,
          Nat.lt_succ_self i, rfl, rfl, rfl, rfl⟩

/-- No other binding with an equals sign at the place is an attribute. -/
theorem namedBinding_crosses {b : Binding} {kind : NamedProp} {fault : Fault}
    {name? : Reader → Option (String × Reader)}
    (hname? : ∀ {r r' s : Reader} {name : String}, (hoistFork i value g later).Before r r' →
      name? r = some (name, s) →
      ∃ s', name? r' = some (name, s') ∧ (hoistFork i value g later).Before s s')
    (h : (hoistFork i value g later).Before r r') (hb : r.namedBinding kind name? fault = .ok (b, s))
    (hbound : s.remaining < (hoistFork i value g later).bound) :
    ∃ name, b = .named kind name i := by
  obtain ⟨name, t, u, j, hname, hequals, hexpr, rfl⟩ := namedBinding_eq_ok_iff.mp hb
  obtain ⟨t', hname', ht⟩ := hname? h hname
  rcases ht.equals? hequals with ⟨u', _, hu⟩ | ⟨indent, asked, rfl, rfl⟩
  · obtain ⟨_, s', _, _, hs, _⟩ := before_inStep.expr hu hexpr
    exact absurd hs.bound_le (by omega)
  · obtain rfl := Option.some.inj hequals
    obtain ⟨rfl, rfl⟩ := Prod.mk.inj (Option.some.inj hexpr)
    exact ⟨name, rfl⟩

/-! ## The whole template -/

/-- One of the readers has the value where the other has expression `i`. -/
def Hoists (i : Nat) (value g : List Char) (later : List (List Char)) (r r' : Reader) : Prop :=
  (hoistFork i value g later).Before r r' ∨ Beyond i r r'

theorem hoists_inStep : InStep 0 (Renumbers i) (Hoists i value g later) :=
  before_inStep.or (Beyond.inStep i)

/-- Unless a binding makes expression `i` dynamic, bindings are in step. -/
theorem hoists_bindsInStep {oracle : Oracle} (hvalue : value ≠ [])
    (hencloses : Text.Encloses 0 value) :
    BindsInStep 0 (Binding.Fills oracle i (String.ofList value)) (fun b => i ∉ b.exprs oracle)
      (Hoists i value g later) := by
  intro c rule hrule r r' s b h hb _ hgood
  rcases h with h | h
  · by_cases hbound : (hoistFork i value g later).bound ≤ s.remaining
    · have hR := Fork.inStep (hoistFork_alike i value g later) fun _ => renumbers_of_lt
      obtain ⟨b', s', hb', hmatch, hs⟩ :=
        hR.tokens.bindsInStep Fork.equalsInStep hrule h hb hbound trivial
      exact ⟨b', s', hb', .other hmatch, .inl hs⟩
    · have hbound := Nat.lt_of_not_le hbound
      unfold ruleOf? at hrule
      split at hrule
      case h_7 => cases hrule
      all_goals
        obtain rfl := Option.some.inj hrule
      · obtain ⟨name, s', rfl, hb', hs⟩ := attrBinding_crosses hvalue hencloses h hb hbound
        have hhoisted : oracle i = true := by
          by_contra hdynamic
          refine hgood ?_
          rw [Binding.exprs, Binding.isHoisted, if_neg hdynamic]
          exact List.mem_singleton_self i
        exact ⟨_, s', hb', .filled name hhoisted, .inr hs⟩
      case h_6 =>
        obtain ⟨j, hexpr, _⟩ := directiveBinding_eq_ok_iff.mp hb
        obtain ⟨_, s', _, _, hs, _⟩ := before_inStep.expr h hexpr
        exact absurd hs.bound_le (by omega)
      all_goals
        -- any other kind of binding is dynamic, which expression `i` is not
        refine absurd ?_ hgood
      · obtain ⟨name, rfl⟩ := namedBinding_crosses before_inStep.tokens.propertyName? h hb hbound
        exact List.mem_singleton_self i
      · obtain ⟨name, rfl⟩ := namedBinding_crosses before_inStep.tokens.propertyName? h hb hbound
        exact List.mem_singleton_self i
      · obtain ⟨name, rfl⟩ := namedBinding_crosses before_inStep.tokens.name? h hb hbound
        exact List.mem_singleton_self i
      · obtain ⟨name, rfl⟩ := namedBinding_crosses before_inStep.tokens.name? h hb hbound
        exact List.mem_singleton_self i
  · obtain ⟨b', s', hb', hmatch, hs⟩ :=
      (Beyond.inStep i).tokens.bindsInStep (Beyond.equalsInStep i) hrule h hb (Nat.zero_le _) trivial
    exact ⟨b', s', hb', .other hmatch, .inr hs⟩

end Hoist
end Reader

theorem Content.mem_exprs_of_bindings {oracle : Oracle} {i : Nat} {c : Content} {b : Binding}
    (hb : b ∈ c.bindings) (hi : i ∈ b.exprs oracle) : i ∈ c.exprs oracle := by
  induction c with
  | nil => cases hb
  | text s next ih => exact ih hb
  | expr j next ih => exact List.mem_cons_of_mem j (ih hb)
  | element head inner next ihInner ihNext =>
    rw [exprs, List.mem_append, List.mem_append]
    rcases List.mem_append.mp hb with hb | hb
    · rcases List.mem_append.mp hb with hb | hb
      · exact .inl (.inl (List.mem_append_right _ (List.mem_flatMap.mpr ⟨b, hb, hi⟩)))
      · exact .inl (.inr (ihInner hb))
    · exact .inr (ihNext hb)

/-- What is in the table of dynamic expressions is not in the skeleton. -/
theorem Template.not_mem_exprs_of_hoisted {oracle : Oracle} {fits : Element → Bool} {svg : Bool}
    {fragments : List String} {t : Template} {r : Reader} {i : Nat}
    (hread : Template.read fits (Reader.ofFragments fragments) = .ok (t, r))
    (hi : i ∈ (t.compiled oracle svg).template.exprs) : i ∉ t.root.exprs oracle := by
  have hpromises := Template.read_promises fits (Reader.ofFragments fragments)
  rw [hread] at hpromises
  have hindex : (Reader.ofFragments fragments).index = 0 := by cases fragments <;> rfl
  have htaken : t.root.taken = List.range t.root.taken.length := by
    rw [List.range_eq_range', ← hindex]
    exact hpromises.1.consecutive
  exact (Template.accounts_compiled oracle svg htaken).disjoint hi

/--
**Hoisting an invariant attribute is writing its value as a literal.** If expression `i` is
hoisted and stands after an equals sign, then the template with any value written there in
quotes compiles as well. Its artifact is the same, with the value in the hole and the later
expressions numbered one lower.
-/
theorem compile_fill {oracle : Oracle} {svg : Bool} {before after : List String}
    {f g value : String} {a : Artifact}
    (h : (compile oracle svg (before ++ (f ++ "=") :: g :: after)).result = .ok a)
    (hhoisted : before.length ∈ a.template.exprs) (hvalue : value ≠ "")
    (hquote : '\'' ∉ value.toList) :
    (compile (oracle.without before.length) svg
      (before ++ (f ++ "='" ++ value ++ "'" ++ g) :: after)).result =
        .ok (a.fill before.length value) := by
  obtain ⟨_, t, r, hread, rfl, _⟩ := compile_eq_ok h
  have hfit := fits_of_compile h
  have hencloses := Text.encloses_zero hquote
  have hne : value.toList ≠ [] := fun hnil => hvalue (String.toList_eq_nil_iff.mp hnil)
  have hdynamic := Template.not_mem_exprs_of_hoisted hread hhoisted
  have hgood : ∀ b ∈ t.root.head.bindings ++ t.root.content.bindings,
      before.length ∉ b.exprs oracle := by
    intro b hb hi
    refine hdynamic ?_
    rw [Element.exprs, List.mem_append]
    rcases List.mem_append.mp hb with hb | hb
    · exact .inl (List.mem_append_right _ (List.mem_flatMap.mpr ⟨b, hb, hi⟩))
    · exact .inr (Content.mem_exprs_of_bindings hb hi)
  have hstart : (Reader.hoistFork before.length value.toList g.toList
      (after.map String.toList)).Before
      (Reader.ofFragments (before ++ (f ++ "=") :: g :: after))
      (Reader.ofFragments (before ++ (f ++ "='" ++ value ++ "'" ++ g) :: after)) := by
    have hindex : before.length = (before.map String.toList).length := by simp
    have hwith : (before ++ (f ++ "=") :: g :: after).map String.toList =
        before.map String.toList ++ (f.toList ++ ['=']) :: g.toList :: after.map String.toList := by
      simp
    have hwithout : (before ++ (f ++ "='" ++ value ++ "'" ++ g) :: after).map String.toList =
        before.map String.toList ++
          (f.toList ++ '=' :: (Text.quoted 0 value.toList ++ g.toList)) ::
            after.map String.toList := by
      simp [Text.quoted]
    exact Reader.Fork.before_ofFragments hindex hwith hwithout
  obtain ⟨t', r', hread', hcloning, hhead, hcontent, _⟩ :=
    Reader.hoists_inStep.read (Reader.hoists_bindsInStep hne hencloses)
      (fun _ => Element.fits_of_matches) (.inl hstart) hread (Nat.zero_le _) hgood
  rw [String.ofList_toList] at hhead hcontent
  have hcompiled := Template.compiled_of_matches hcloning hhead hcontent svg
  have hresult := compile_of_read svg (by simp) hread'
  rwa [hcompiled, Artifact.fits_fill, if_pos hfit] at hresult

/-- A value with both characters that are escaped, between two dynamic expressions. -/
theorem compile_fill_escaped :
    ∃ a, (compile (· == 1) false (["p :t="] ++ ("\n  i :x" ++ "=") :: " .y=" :: [""])).result = .ok a
      ∧ a.template = .parts [.text "<p><i x=\"", .expr 1, .text "\"></i></p>"] ∧ a.exprs = [0, 2]
      ∧ (compile (Oracle.without (· == 1) 1) false
          (["p :t="] ++ ("\n  i :x" ++ "='" ++ "a&\"b" ++ "'" ++ " .y=") :: [""])).result =
            .ok (a.fill 1 "a&\"b")
      ∧ (a.fill 1 "a&\"b").template = .parts [.text "<p><i x=\"a&amp;&quot;b\"></i></p>"]
      ∧ (a.fill 1 "a&\"b").exprs = [0, 1] := by
  generalize hf : ["p :t="] ++ ("\n  i :x" ++ "=") :: " .y=" :: [""] = fragments
  have hparts : (compile (· == 1) false fragments).result.toOption.map
      (fun a => (a.template, a.exprs)) =
        some (.parts [.text "<p><i x=\"", .expr 1, .text "\"></i></p>"], [0, 2]) := by
    rw [← hf]
    decide +kernel
  obtain ⟨a, hresult, hparts⟩ := exists_of_toOption_map hparts
  obtain ⟨htemplate, hexprs⟩ := Prod.mk.inj hparts
  have hhoisted : 1 ∈ a.template.exprs := by
    rw [htemplate]
    decide
  rw [← hf] at hresult
  refine ⟨a, hf ▸ hresult, htemplate, hexprs,
    compile_fill hresult hhoisted (by decide) (by decide), ?_, ?_⟩
  · show a.template.fill 1 "a&\"b" = _
    rw [htemplate]
    decide
  · show a.exprs.map (renumber 1) = _
    rw [hexprs]
    rfl

end Stencil
