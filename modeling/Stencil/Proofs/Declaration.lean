import Stencil.Descriptor
import Stencil.Proofs.Grammar
import Stencil.Proofs.Storage

/-!
# What a declaration tells of its template

A declaration is JavaScript, but what stands in it behind the name of the factory is JSON as
well: strings, numbers and arrays, with blank space behind the commas. Texts may hold quotes,
brackets and commas, so it cannot be taken apart by looking for these. The JSON reader can do
it. An argument in front of any text is read as one value with that text left, so equal
declarations have equal arguments, one after another.

The words among the arguments are those of a compiled template, which lose nothing. The
expressions are not among the arguments: they go into each use of the template, and there is a
text for each of them as long as the call site has one for each gap between fragments.
-/

namespace Stencil

/-! ## Texts that spell a value -/

namespace Json

/-- In front of any text that ends a number, the text is read as the value. -/
def Spells (text : String) (j : Json) : Prop :=
  ∀ rest, EndsNumber rest → value? (text.toList ++ rest) = some (j, rest)

theorem spells_quote (s : String) : Spells (quote s) (.ofString s) := by
  intro rest hrest
  have hwrite : (quote s).toList ++ rest = (ofString s).writeOnto rest := by
    simp [quote, ofString, writeOnto]
  rw [hwrite]
  exact readsBack_ofString s rest hrest

theorem spells_decimal (n : Nat) : Spells (toString n) (.ofNat n) := by
  intro rest hrest
  have hwrite : (toString n).toList ++ rest = (ofNat n).writeOnto rest := by
    rw [ofNat, writeOnto]
    exact congrArg (· ++ rest) Nat.toList_repr
  rw [hwrite]
  exact readsBack_ofNat n rest hrest

theorem toList_intercalate_cons (x y : String) (ys : List String) (rest : List Char) :
    (String.intercalate ", " (x :: y :: ys)).toList ++ rest =
      x.toList ++ ',' :: ' ' :: ((String.intercalate ", " (y :: ys)).toList ++ rest) := by
  simp

theorem value?_space (s : List Char) : value? (' ' :: s) = value? s := by
  rw [value?_eq, value?_eq s]
  rfl

theorem items?_space (s : List Char) : items? (' ' :: s) = items? s := by
  rw [items?_eq, items?_eq s, value?_space]

theorem items?_intercalate {α : Type} {text : α → String} {item : α → Json} {xs : List α}
    (hne : xs ≠ []) (hxs : ∀ x ∈ xs, Spells (text x) (item x)) (rest : List Char) :
    items? ((String.intercalate ", " (xs.map text)).toList ++ ']' :: rest) =
      some (xs.map item, rest) := by
  induction xs with
  | nil => exact absurd rfl hne
  | cons x xs ih =>
    obtain ⟨hx, hxs⟩ := List.forall_mem_cons.mp hxs
    cases xs with
    | nil => exact items?_last (hx _ (endsNumber_cons (by decide) _)) (skipBlank_cons rfl _)
    | cons y ys =>
      have hmore := ih (by simp) hxs
      rw [← items?_space] at hmore
      rw [List.map_cons, List.map_cons, toList_intercalate_cons]
      exact items?_cons (hx _ (endsNumber_cons (by decide) _)) (skipBlank_cons rfl _) hmore

theorem spells_array {α : Type} {text : α → String} {item : α → Json} {xs : List α}
    (hxs : ∀ x ∈ xs, Spells (text x) (item x)) :
    Spells (Descriptor.array (xs.map text)) (.ofList item xs) := by
  intro rest _
  have hopen : (Descriptor.array (xs.map text)).toList ++ rest =
      '[' :: ((String.intercalate ", " (xs.map text)).toList ++ ']' :: rest) := by
    simp [Descriptor.array]
  rw [hopen, ofList]
  -- an array without items is read apart, since behind an item there has to be a comma or the end
  by_cases hne : xs = []
  · subst hne
    exact value?_emptyArray (skipBlank_cons rfl _) (skipBlank_cons rfl _)
  · exact value?_items (skipBlank_cons rfl _) (items?_intercalate hne hxs rest)

/-- **A text that spells a value is cut off the front in one way only.** -/
theorem Spells.cut {text text' : String} {j j' : Json} (h : Spells text j) (h' : Spells text' j')
    {rest rest' : List Char} (hrest : EndsNumber rest) (hrest' : EndsNumber rest')
    (heq : text.toList ++ rest = text'.toList ++ rest') : j = j' ∧ rest = rest' := by
  have hread := h rest hrest
  rw [heq, h' rest' hrest', Option.some.injEq, Prod.mk.injEq] at hread
  exact ⟨hread.1.symm, hread.2.symm⟩

end Json

/-! ## The arguments of a declaration -/

theorem Json.endsNumber_close (rest : List Char) : EndsNumber (')' :: rest) := by
  intro c hc
  cases hc
  decide

namespace Descriptor

open Json (Spells)

/-- Arguments with commas between them, before the bracket that closes the call. -/
theorem cut_arguments {args args' : List (String × Json)} (hlength : args.length = args'.length)
    (hargs : ∀ x ∈ args, Spells x.1 x.2) (hargs' : ∀ x ∈ args', Spells x.1 x.2)
    {rest rest' : List Char}
    (h : (String.intercalate ", " (args.map (·.1))).toList ++ ')' :: rest =
      (String.intercalate ", " (args'.map (·.1))).toList ++ ')' :: rest') :
    args.map (·.2) = args'.map (·.2) := by
  induction args generalizing args' with
  | nil =>
    obtain rfl := List.eq_nil_of_length_eq_zero hlength.symm
    rfl
  | cons x args ih =>
    cases args' with
    | nil => cases hlength
    | cons x' args' =>
      have hlength := Nat.succ.inj hlength
      obtain ⟨hx, hargs⟩ := List.forall_mem_cons.mp hargs
      obtain ⟨hx', hargs'⟩ := List.forall_mem_cons.mp hargs'
      cases args with
      | nil =>
        obtain rfl := List.eq_nil_of_length_eq_zero hlength.symm
        have hcut := hx.cut hx' (Json.endsNumber_close _) (Json.endsNumber_close _) h
        exact congrArg (fun value => [value]) hcut.1
      | cons y args =>
        cases args' with
        | nil => cases hlength
        | cons y' args' =>
          simp only [List.map_cons, Json.toList_intercalate_cons] at h
          -- the comma ends a number, if the argument is one
          obtain ⟨hvalue, hmore⟩ := hx.cut hx' (Json.endsNumber_cons (by decide) _)
            (Json.endsNumber_cons (by decide) _) h
          have hargs := ih hlength hargs hargs' (List.cons.inj (List.cons.inj hmore).2).2
          exact congrArg₂ List.cons hvalue hargs

/-- What comes behind the factory, and what it spells: the members of the artifact's own JSON
value. -/
def arguments (a : Artifact) : List (String × Json) := [
  (toString a.flags.encode.toNat, .ofWord a.flags.encode),
  (words (a.propOps.map PropOp.encode), .ofList (fun op => .ofWord op.encode) a.propOps),
  (words (a.childOps.map ChildOp.encode), .ofList (fun op => .ofWord op.encode) a.childOps),
  (words (a.stateOps.map StateOp.encode), .ofList (fun op => .ofWord op.encode) a.stateOps),
  (array (a.data.map Json.quote), .ofList .ofString a.data)]

theorem spells_words {α : Type} (encode : α → UInt32) (ops : List α) :
    Spells (words (ops.map encode)) (.ofList (fun op => .ofWord (encode op)) ops) := by
  rw [words, List.map_map]
  exact Json.spells_array fun op _ => Json.spells_decimal (encode op).toNat

theorem spells_arguments (a : Artifact) : ∀ x ∈ arguments a, Spells x.1 x.2 := by
  simp only [arguments, List.forall_mem_cons, List.not_mem_nil, false_imp_iff, implies_true,
    and_true]
  exact ⟨Json.spells_decimal _, spells_words _ _, spells_words _ _, spells_words _ _,
    Json.spells_array fun s _ => Json.spells_quote s⟩

/-- A declaration, with its factory apart from the arguments behind. -/
theorem toList_declaration (a : Artifact) (site : CallSite) :
    (render a site).declaration.toList =
      ("const " ++ site.id ++ " = /*@__PURE__ @__IVI_TPL__*/ _T(").toList
        ++ ((factory a).toList
          ++ '(' :: ((factoryArgument site a.template).toList
            ++ ')' :: ',' :: ' ' :: ((String.intercalate ", " ((arguments a).map (·.1))).toList
              ++ [')', ';']))) := by
  simp [render, arguments]

/-! ## The factory -/

/-- The factory for a skeleton of this kind. -/
def factoryName (bare svg noCloning : Bool) : String :=
  if bare then if svg then "_sE" else "_hE"
  else if svg then if noCloning then "_sN" else "_s"
  else if noCloning then "_hN" else "_h"

end Descriptor

def Skeleton.isTag : Skeleton → Bool
  | tag _ => true
  | parts _ => false

namespace Descriptor

theorem factory_eq (a : Artifact) :
    factory a = factoryName a.template.isTag a.flags.svg a.disableCloning := by
  unfold factory
  cases a.template <;> cases a.flags.svg <;> cases a.disableCloning <;> rfl

/-- A factory is made for one kind of skeleton. -/
theorem factoryName_inj : ∀ {bare svg noCloning bare' svg' noCloning' : Bool},
    factoryName bare svg noCloning = factoryName bare' svg' noCloning' →
      bare = bare' ∧ svg = svg' ∧ (bare = false → noCloning = noCloning') := by
  decide

theorem bracket_not_mem_factory (a : Artifact) : ∀ c ∈ (factory a).toList, (c != '(') = true := by
  have hnames : ∀ bare svg noCloning : Bool,
      (factoryName bare svg noCloning).toList.all (· != '(') = true := by
    decide
  rw [factory_eq]
  exact List.all_eq_true.mp (hnames _ _ _)

/-- The name of the factory goes up to the first bracket. -/
theorem cut_factory {a b : Artifact} {rest rest' : List Char}
    (h : (factory a).toList ++ '(' :: rest = (factory b).toList ++ '(' :: rest') :
    factory a = factory b ∧ rest = rest' := by
  -- up to the bracket both sides are the name alone
  have hname := congrArg (List.takeWhile (· != '(')) h
  rw [List.takeWhile_append_of_pos (bracket_not_mem_factory a),
    List.takeWhile_append_of_pos (bracket_not_mem_factory b),
    List.takeWhile_cons_of_neg (by simp), List.takeWhile_cons_of_neg (by simp), List.append_nil,
    List.append_nil] at hname
  rw [hname] at h
  exact ⟨String.toList_inj.mp hname, (List.cons.inj (List.append_cancel_left h)).2⟩

end Descriptor

/-! ## The markup -/

/-- The skeleton is one text without holes: a tag, or markup. -/
def Skeleton.IsText (s : String) (skeleton : Skeleton) : Prop :=
  skeleton = .tag s ∨ skeleton = .parts [.text s]

theorem Descriptor.factoryArgument_of_isText {s : String} {skeleton : Skeleton}
    (h : skeleton.IsText s) (site : CallSite) :
    factoryArgument site skeleton = Json.quote s := by
  rcases h with rfl | rfl
  · rfl
  · rfl

theorem Skeleton.eq_of_isText {s : String} {skeleton skeleton' : Skeleton}
    (h : skeleton.IsText s) (h' : skeleton'.IsText s) (htag : skeleton.isTag = skeleton'.isTag) :
    skeleton = skeleton' := by
  rcases h with rfl | rfl
  · rcases h' with rfl | rfl
    · rfl
    · cases htag
  · rcases h' with rfl | rfl
    · cases htag
    · rfl

/-- Texts are joined, so markup without holes is one text. -/
theorem Element.exists_isText (oracle : Oracle) {e : Element}
    (h : (e.skeleton oracle).exprs = []) : ∃ s, (e.skeleton oracle).IsText s := by
  rw [skeleton] at h ⊢
  by_cases hbare : e.isBare oracle = true
  · rw [if_pos hbare]
    exact ⟨_, .inl rfl⟩
  · obtain ⟨s, rest, hmerge, halternates⟩ := (e.framed_markup oracle).alternates_merge
    rw [if_neg hbare, hmerge] at h ⊢
    refine ⟨s, .inr ?_⟩
    cases rest with
    | nil => rfl
    | cons part rest =>
      cases part with
      | text _ => cases halternates
      | expr i => cases h

/-! ## Equal declarations -/

namespace Descriptor

/-- **The text of a declaration tells its factory, its markup and its other arguments.** -/
theorem eq_of_declaration_eq {a b : Artifact} {site : CallSite} {s s' : String}
    (ha : a.template.IsText s) (hb : b.template.IsText s')
    (h : (render a site).declaration = (render b site).declaration) :
    factory a = factory b ∧ s = s' ∧ (arguments a).map (·.2) = (arguments b).map (·.2) := by
  have hlist := congrArg String.toList h
  rw [toList_declaration, toList_declaration, factoryArgument_of_isText ha,
    factoryArgument_of_isText hb] at hlist
  -- what is left gets shorter from the front: the factory, the markup, the other arguments
  obtain ⟨hfactory, hlist⟩ := cut_factory (List.append_cancel_left hlist)
  obtain ⟨hmarkup, hlist⟩ := (Json.spells_quote s).cut (Json.spells_quote s')
    (Json.endsNumber_close _) (Json.endsNumber_close _) hlist
  have hlength : (arguments a).length = (arguments b).length := rfl
  have hlist := (List.cons.inj (List.cons.inj (List.cons.inj hlist).2).2).2
  have hargs := cut_arguments hlength (spells_arguments a) (spells_arguments b) hlist
  have hs := congrArg Json.string? hmarkup
  rw [Json.string?_ofString, Json.string?_ofString] at hs
  exact ⟨hfactory, Option.some.inj hs, hargs⟩

end Descriptor

/--
The two artifacts make the same nodes and update them alike. A bare tag is never cloned, so
there it makes no difference whether cloning is disabled.
-/
structure Artifact.DeclaredAlike (a b : Artifact) : Prop where
  template : a.template = b.template
  flags : a.flags = b.flags
  propOps : a.propOps = b.propOps
  childOps : a.childOps = b.childOps
  stateOps : a.stateOps = b.stateOps
  data : a.data = b.data
  cloning : a.template.isTag = false → a.disableCloning = b.disableCloning

/-- Ops that have room in their words are told by them. -/
theorem Artifact.eq_of_words_eq {α : Type} {encode : α → UInt32} {decode : UInt32 → Option α}
    {ops ops' : List α} (h : ∀ op ∈ ops, decode (encode op) = some op)
    (h' : ∀ op ∈ ops', decode (encode op) = some op)
    (heq : Json.ofList (fun op => .ofWord (encode op)) ops =
      Json.ofList (fun op => .ofWord (encode op)) ops') : ops = ops' := by
  have hread := congrArg (readOps .state decode) heq
  rw [readOps_ofList .state h, readOps_ofList .state h'] at hread
  exact Except.ok.inj hread

theorem Artifact.declaredAlike {a b : Artifact} (ha : a.Packs) (hb : b.Packs)
    {s s' : String} (hs : a.template.IsText s) (hs' : b.template.IsText s') {site : CallSite}
    (h : (Descriptor.render a site).declaration = (Descriptor.render b site).declaration) :
    a.DeclaredAlike b := by
  obtain ⟨hfactory, rfl, hargs⟩ := Descriptor.eq_of_declaration_eq hs hs' h
  rw [Descriptor.factory_eq, Descriptor.factory_eq] at hfactory
  -- the factory tells a tag from markup of the same text, and the flags have `svg` once more
  obtain ⟨htag, _, hcloning⟩ := Descriptor.factoryName_inj hfactory
  simp only [Descriptor.arguments, List.map_cons, List.map_nil, List.cons.injEq, and_true] at hargs
  obtain ⟨hflags, hprops, hchildren, hstates, hdata⟩ := hargs
  constructor
  · exact Skeleton.eq_of_isText hs hs' htag
  · have hread := congrArg (fun j => j.word?.map Flags.decode) hflags
    simp only [Json.word?_ofWord, Option.map_some, ha.flags.decode_encode,
      hb.flags.decode_encode] at hread
    exact Option.some.inj hread
  · exact eq_of_words_eq (fun op hop => (ha.props op hop).decode_encode)
      (fun op hop => (hb.props op hop).decode_encode) hprops
  · exact eq_of_words_eq (fun op hop => (ha.children op hop).decode_encode)
      (fun op hop => (hb.children op hop).decode_encode) hchildren
  · exact eq_of_words_eq (fun op hop => (ha.states op hop).decode_encode)
      (fun op hop => (hb.states op hop).decode_encode) hstates
  · have hread := congrArg (Json.list? Json.string?) hdata
    rw [Json.list?_ofList fun s _ => Json.string?_ofString s,
      Json.list?_ofList fun s _ => Json.string?_ofString s] at hread
    exact Option.some.inj hread
  · exact hcloning

/-! ## The texts of the expressions -/

/--
The call site has a text for every expression that is needed: each hole of the markup is filled
with the text of its expression, and the values handed over in a use are the texts of the
dynamic expressions, one for each entry of the table and in its order.
-/
structure Descriptor.Supplied (a : Artifact) (site : CallSite) : Prop where
  holes : ∀ i ∈ a.template.exprs,
    ∃ text, site.exprs[i]? = some text ∧ operand site (.expr i) = "(" ++ text ++ ")"
  values : ∃ values, List.Forall₂ (fun i text => site.exprs[i]? = some text) a.exprs values
    ∧ (render a site).instantiation =
      if values = [] then "_t(" ++ site.id ++ ")"
      else "_t(" ++ site.id ++ ", [" ++ String.intercalate ", " values ++ "])"

theorem CallSite.getElem?_exprs {site : CallSite} {i : Nat} (h : i < site.exprs.length) :
    site.exprs[i]? = some (site.expr i) := by
  rw [expr, List.getD_eq_getElem?_getD, List.getElem?_eq_getElem h]
  rfl

theorem Descriptor.instantiation_eq (a : Artifact) (site : CallSite) :
    (render a site).instantiation =
      if a.exprs.map site.expr = [] then "_t(" ++ site.id ++ ")"
      else "_t(" ++ site.id ++ ", [" ++ String.intercalate ", " (a.exprs.map site.expr) ++ "])" := by
  cases hexprs : a.exprs with
  | nil => simp [render, hexprs]
  | cons i is =>
    refine String.toList_inj.mp ?_
    simp [render, hexprs, array]

theorem Descriptor.supplied {a : Artifact} {site : CallSite}
    (hholes : ∀ i ∈ a.template.exprs, i < site.exprs.length)
    (hexprs : ∀ i ∈ a.exprs, i < site.exprs.length) : Supplied a site := by
  constructor
  · intro i hi
    exact ⟨site.expr i, CallSite.getElem?_exprs (hholes i hi), rfl⟩
  · refine ⟨a.exprs.map site.expr, ?_, instantiation_eq a site⟩
    rw [List.forall₂_map_right_iff, List.forall₂_same]
    exact fun i hi => CallSite.getElem?_exprs (hexprs i hi)

/--
**A declaration tells its template, and a use is handed all it needs.** Compiled templates
without holes that are declared alike at some call site are alike. If the call site has a text
for every expression between the fragments, no expression goes without one.
-/
theorem compile_declaration {oracle : Oracle} {svg : Bool} {fragments : List String} {a : Artifact}
    (h : (compile oracle svg fragments).result = .ok a) (site : CallSite) :
    (∀ (oracle' : Oracle) (svg' : Bool) (fragments' : List String) (b : Artifact),
      (compile oracle' svg' fragments').result = .ok b →
      a.template.exprs = [] → b.template.exprs = [] →
      (Descriptor.render a site).declaration = (Descriptor.render b site).declaration →
      a.DeclaredAlike b)
    ∧ (fragments.length ≤ site.exprs.length + 1 → Descriptor.Supplied a site) := by
  constructor
  · intro oracle' svg' fragments' b h' ha hb hdeclaration
    have hpacks := packs_of_compile h
    have hpacks' := packs_of_compile h'
    obtain ⟨_, t, _, _, rfl, _⟩ := compile_eq_ok h
    obtain ⟨_, t', _, _, rfl, _⟩ := compile_eq_ok h'
    obtain ⟨s, hs⟩ := Element.exists_isText oracle ha
    obtain ⟨s', hs'⟩ := Element.exists_isText oracle' hb
    exact Artifact.declaredAlike hpacks hpacks' hs hs' hdeclaration
  · intro hlength
    obtain ⟨hexprs, hholes⟩ := expr_lt_of_compile h
    have htext : ∀ i, i + 1 < fragments.length → i < site.exprs.length := by
      intro i hi
      omega
    exact Descriptor.supplied (fun i hi => htext i (hholes i hi)) fun i hi => htext i (hexprs i hi)

/-- Two spellings of a template with a text that imitates what is around it in the declaration.
Expressions are handed over as they are, with their commas and brackets. -/
theorem compile_declaration_imitated :
    ∃ a b, (compile (fun _ => false) false ["p @x=", " '\"), 1, [], [' ", ""]).result = .ok a
      ∧ (compile (· == 7) false ["p\n  @x=", "\n  '\"), 1, [], ['\n  ", ""]).result = .ok b
      ∧ a.template.exprs = [] ∧ b.template.exprs = []
      ∧ (Descriptor.render a ⟨"t", ["f(a, b)", "[c]"], "ivi"⟩).declaration =
        (Descriptor.render b ⟨"t", ["f(a, b)", "[c]"], "ivi"⟩).declaration
      ∧ a.DeclaredAlike b
      ∧ (Descriptor.render a ⟨"t", ["f(a, b)", "[c]"], "ivi"⟩).instantiation =
        "_t(t, [f(a, b), [c]])"
      ∧ Descriptor.Supplied a ⟨"t", ["f(a, b)", "[c]"], "ivi"⟩ := by
  generalize hsite : CallSite.mk "t" ["f(a, b)", "[c]"] "ivi" = site
  generalize hf : ["p @x=", " '\"), 1, [], [' ", ""] = fragments
  generalize hf' : ["p\n  @x=", "\n  '\"), 1, [], ['\n  ", ""] = fragments'
  have hparts : (compile (fun _ => false) false fragments).result.toOption.map
      (fun a => (a.template.exprs, (Descriptor.render a site).instantiation)) =
      some ([], "_t(t, [f(a, b), [c]])") := by
    rw [← hf, ← hsite]
    decide +kernel
  have hholes' : (compile (· == 7) false fragments').result.toOption.map (·.template.exprs) =
      some [] := by
    rw [← hf']
    decide +kernel
  have hsame : (compile (fun _ => false) false fragments).result.toOption.map
        (fun a => (Descriptor.render a site).declaration) =
      (compile (· == 7) false fragments').result.toOption.map
        (fun b => (Descriptor.render b site).declaration) := by
    rw [← hf, ← hf', ← hsite]
    decide +kernel
  have hlength : fragments.length ≤ site.exprs.length + 1 := by
    rw [← hf, ← hsite]
    decide
  obtain ⟨a, hresult, hparts⟩ := exists_of_toOption_map hparts
  obtain ⟨b, hresult', hholes'⟩ := exists_of_toOption_map hholes'
  obtain ⟨hholes, hinstantiation⟩ := Prod.mk.inj hparts
  rw [hresult, hresult'] at hsame
  have hdeclaration := Option.some.inj hsame
  obtain ⟨halike, hsupplied⟩ := compile_declaration hresult site
  exact ⟨a, b, hresult, hresult', hholes, hholes', hdeclaration,
    halike _ _ _ b hresult' hholes hholes' hdeclaration, hinstantiation, hsupplied hlength⟩

end Stencil
