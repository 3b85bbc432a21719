import Stencil.Proofs.Literals
import Stencil.Proofs.Merging
import Stencil.Proofs.Traversal

/-!
# The grammar of markup

The markup of a template is derived from a small grammar of elements, attributes and
texts, whatever its literals are: a literal can spell neither a bracket in running text nor
a quote in an attribute value, and an ampersand only as the first character of an entity.
Holes stand as whole attribute values and nowhere else, so texts and holes take turns in
the list of parts and a text stands at both ends.

Class names are known to be names only if they are written after the tag. A binding may
spell out an attribute that is called `class` too, and its value is a literal like any other.
The derivation goes along with the elements of the template, in the order of their opening
tags, so such a value is let through at the element that spells it and nowhere else.
-/

namespace Stencil

/-! ## Texts and holes -/

namespace Part

/-- Texts and holes take turns, and a text stands at both ends. -/
def Alternates : List Part → Prop
  | [text _] => True
  | text _ :: expr _ :: rest => Alternates rest
  | _ => False

/-- Which text comes first makes no difference to what may follow it. -/
theorem alternates_text {s : String} {rest : List Part} (h : Alternates (text s :: rest))
    (s' : String) : Alternates (text s' :: rest) := by
  cases rest with
  | nil => trivial
  | cons part rest =>
    cases part with
    | text _ => exact h
    | expr _ => exact h

/-- **Joining neighbouring texts leaves texts and holes in turns.** -/
theorem Framed.alternates_merge {parts : List Part} (h : Framed parts) :
    ∃ s rest, merge parts = Part.text s :: rest ∧ Alternates (Part.text s :: rest) := by
  induction h with
  | single s => exact ⟨s, [], rfl, trivial⟩
  | text s _ ih =>
    obtain ⟨s', rest, hmerge, halt⟩ := ih
    exact ⟨s ++ s', rest, by rw [merge, hmerge], alternates_text halt _⟩
  | hole s i _ ih =>
    obtain ⟨s', rest, hmerge, halt⟩ := ih
    exact ⟨s, .expr i :: .text s' :: rest, by rw [merge, merge, hmerge], halt⟩

end Part

/-! ## Entities -/

namespace Text

/-- What an ampersand may be the first character of. -/
def entities : List (List Char) :=
  ["&amp;".toList, "&lt;".toList, "&quot;".toList]

/-- Every ampersand starts an entity. -/
def OnlyEntities (cs : List Char) : Prop :=
  ∀ after, '&' :: after <:+ cs → ∃ entity ∈ entities, entity <+: '&' :: after

theorem onlyEntities_nil : OnlyEntities [] := by
  intro after h
  cases List.suffix_nil.mp h

theorem OnlyEntities.after_plain {plain cs : List Char} (hplain : '&' ∉ plain)
    (h : OnlyEntities cs) : OnlyEntities (plain ++ cs) := by
  induction plain with
  | nil => exact h
  | cons c plain ih =>
    rw [List.mem_cons, not_or] at hplain
    intro after hsuffix
    rcases List.suffix_cons_iff.mp hsuffix with heq | hsuffix
    · exact absurd (List.cons.inj heq).1 hplain.1
    · exact ih hplain.2 after hsuffix

theorem OnlyEntities.after_entity {name cs : List Char} (hmem : '&' :: name ∈ entities)
    (hplain : '&' ∉ name) (h : OnlyEntities cs) : OnlyEntities ('&' :: name ++ cs) := by
  intro after hsuffix
  rcases List.suffix_cons_iff.mp hsuffix with heq | hsuffix
  · exact ⟨_, hmem, heq ▸ List.prefix_append _ _⟩
  · exact h.after_plain hplain after hsuffix

/-- An ampersand is written as part of an entity only. -/
theorem escapeChar_entity (setting : Setting) (c : Char) :
    (∃ name, escapeChar setting c = '&' :: name ∧ '&' :: name ∈ entities ∧ '&' ∉ name)
      ∨ escapeChar setting c = [c] ∧ c ≠ '&' := by
  unfold escapeChar
  split
  · exact .inl ⟨_, rfl, by decide, by decide⟩
  · exact .inl ⟨_, rfl, by decide, by decide⟩
  · exact .inl ⟨_, rfl, by decide, by decide⟩
  · next hamp _ _ => exact .inr ⟨rfl, hamp⟩

theorem onlyEntities_escape (setting : Setting) (s : String) :
    OnlyEntities (escape setting s).toList := by
  rw [toList_escape]
  induction s.toList with
  | nil => exact onlyEntities_nil
  | cons c cs ih =>
    rw [List.flatMap_cons]
    rcases escapeChar_entity setting c with ⟨name, hname, hmem, hplain⟩ | ⟨hself, hne⟩
    · rw [hname]
      exact ih.after_entity hmem hplain
    · rw [hself]
      exact ih.after_plain (by simpa using hne.symm)

end Text

/-! ## The grammar -/

namespace Grammar

def openingTag (name : String) (attrs : List Symbol) : List Symbol :=
  .char '<' :: Symbol.ofChars name.toList ++ attrs ++ [.char '>']

def closingTag (name : String) : List Symbol :=
  Symbol.ofChars ("</" ++ name ++ ">").toList

/-- Names with single blanks between them. -/
def JoinsNames (cs : List Char) : Prop :=
  ∃ names : List String, names ≠ [] ∧ (∀ name ∈ names, IsName name)
    ∧ cs = (String.intercalate " " names).toList

/-- A blank and a name, and perhaps a value in quotes. A `class` holds names, or else one of
the values in `own`. -/
inductive IsAttr (own : List Char → Prop) : List Symbol → Prop
  | flag {name : String} (hname : IsName name) :
    IsAttr own (Symbol.ofChars (" " ++ name).toList)
  | value {name : String} {cs : List Char} (hname : IsName name) (hquote : '"' ∉ cs)
    (hentities : Text.OnlyEntities cs) (hclass : name = "class" → JoinsNames cs ∨ own cs) :
    IsAttr own (Symbol.ofChars (" " ++ name ++ "=\"").toList ++ Symbol.ofChars cs ++ [.char '"'])
  | hole {name : String} (hname : IsName name) (i : Nat) :
    IsAttr own (Symbol.ofChars (" " ++ name ++ "=\"").toList ++ [.hole i] ++ [.char '"'])

inductive IsAttrs (own : List Char → Prop) : List Symbol → Prop
  | nil : IsAttrs own []
  | cons {attr rest : List Symbol} (hattr : IsAttr own attr) (hrest : IsAttrs own rest) :
    IsAttrs own (attr ++ rest)

mutual

/-- An element, with the heads of all elements in it in the order of their opening tags. `own`
says which values besides names the `class` of an element may have. -/
inductive IsElement (own : Head → List Char → Prop) : List Head → List Symbol → Prop
  | void {head : Head} {attrs : List Symbol} (hname : IsName head.tag)
    (hvoid : head.tag ∈ voidTags) (hattrs : IsAttrs (own head) attrs) :
    IsElement own [head] (openingTag head.tag attrs)
  | paired {head : Head} {heads : List Head} {attrs inner : List Symbol} (hname : IsName head.tag)
    (hvoid : head.tag ∉ voidTags) (hattrs : IsAttrs (own head) attrs)
    (hinner : IsContents own heads inner) :
    IsElement own (head :: heads) (openingTag head.tag attrs ++ inner ++ closingTag head.tag)

inductive IsContents (own : Head → List Char → Prop) : List Head → List Symbol → Prop
  | nil : IsContents own [] []
  | text {cs : List Char} {heads : List Head} {rest : List Symbol} (hne : cs ≠ [])
    (hbracket : '<' ∉ cs) (hentities : Text.OnlyEntities cs)
    (hrest : IsContents own heads rest) : IsContents own heads (Symbol.ofChars cs ++ rest)
  | anchor {heads : List Head} {rest : List Symbol} (hrest : IsContents own heads rest) :
    IsContents own heads (Symbol.ofChars "<!>".toList ++ rest)
  | element {first more : List Head} {item rest : List Symbol} (hitem : IsElement own first item)
    (hrest : IsContents own more rest) : IsContents own (first ++ more) (item ++ rest)

end

theorem IsAttr.alone {own : List Char → Prop} {attr : List Symbol} (h : IsAttr own attr) :
    IsAttrs own attr := by
  have hcons := IsAttrs.cons h .nil
  rwa [List.append_nil] at hcons

theorem IsAttrs.append {own : List Char → Prop} {a b : List Symbol} (ha : IsAttrs own a)
    (hb : IsAttrs own b) : IsAttrs own (a ++ b) := by
  induction ha with
  | nil => exact hb
  | cons hattr _ ih =>
    rw [List.append_assoc]
    exact .cons hattr ih

end Grammar

/-! ## Markup is derived -/

/-- The elements of content without what is inside them, in the order of their opening tags. -/
def Content.heads : Content → List Head
  | nil => []
  | text _ next => next.heads
  | expr _ next => next.heads
  | element head inner next => head :: (inner.heads ++ next.heads)

def Element.heads (e : Element) : List Head :=
  e.head :: e.content.heads

/-- A binding of the element spells out a `class` attribute with this value. -/
def Head.SpellsClass (head : Head) (cs : List Char) : Prop :=
  ∃ text, Binding.value "class" text ∈ head.bindings
    ∧ cs = Text.replaced .attributeValue text.toList

section Derivation

variable (oracle : Oracle)

open Grammar

theorem isName_class : IsName "class" :=
  ⟨'c', "lass".toList, rfl, rfl, List.all_eq_true.mp rfl⟩

theorem ClassPart.isAttrs_markup {cls : ClassPart} (h : cls.WellFormed)
    (own : List Char → Prop) : IsAttrs own ((cls.markup oracle).flatMap Part.symbols) := by
  cases cls with
  | names list =>
    cases list with
    | nil => exact .nil
    | cons n ns =>
      have hquote := not_mem_intercalate (c := '"') h rfl (by decide)
      have hamp := not_mem_intercalate (c := '&') h rfl (by decide)
      have hentities := Text.onlyEntities_nil.after_plain hamp
      rw [List.append_nil] at hentities
      have hattr : IsAttr own _ := .value isName_class hquote hentities
        fun _ => .inl ⟨n :: ns, List.cons_ne_nil n ns, h, rfl⟩
      simpa [markup, Part.symbols, Symbol.ofChars] using hattr.alone
  | expr i =>
    rw [markup]
    split
    · have hattr : IsAttr own _ := .hole isName_class i
      simpa [Part.symbols, Symbol.ofChars] using hattr.alone
    · exact .nil

theorem Binding.isAttrs_markup {b : Binding} (h : b.WellFormed) {head : Head}
    (hmem : b ∈ head.bindings) :
    IsAttrs head.SpellsClass ((b.markup oracle).flatMap Part.symbols) := by
  cases b with
  | flag name =>
    have hattr : IsAttr head.SpellsClass _ := .flag h
    simpa [markup, Part.symbols] using hattr.alone
  | value name text =>
    obtain ⟨hname, _⟩ := h
    have hattr : IsAttr head.SpellsClass _ := .value hname (Text.quote_not_mem_escape text)
      (Text.onlyEntities_escape _ text)
      fun hclass => .inr ⟨text, hclass ▸ hmem, Text.toList_escape_eq_replaced _ text⟩
    simpa [markup, Part.symbols, Symbol.ofChars] using hattr.alone
  | named kind name i =>
    rw [markup]
    split
    · next hhoisted =>
      have hkind : kind = .attr := by
        cases kind with
        | attr => rfl
        | _ => cases hhoisted
      have hattr : IsAttr head.SpellsClass _ := .hole (h hkind) i
      simpa [Part.symbols, Symbol.ofChars] using hattr.alone
    · exact .nil
  | directive i => exact .nil

theorem Head.isAttrs_attrs {head : Head} (h : head.WellFormed) :
    IsAttrs head.SpellsClass (head.attrSymbols oracle) := by
  obtain ⟨_, hcls, hbindings⟩ := h
  have hall : ∀ bs : List Binding, bs ⊆ head.bindings →
      IsAttrs head.SpellsClass ((bs.flatMap (·.markup oracle)).flatMap Part.symbols) := by
    intro bs hsub
    induction bs with
    | nil => exact .nil
    | cons b bs ih =>
      obtain ⟨hb, hbs⟩ := List.cons_subset.mp hsub
      rw [List.flatMap_cons, List.flatMap_append]
      exact (Binding.isAttrs_markup oracle (hbindings b hb) hb).append (ih hbs)
  rw [attrSymbols, attrs, List.flatMap_append]
  exact (ClassPart.isAttrs_markup oracle hcls _).append (hall _ (List.Subset.refl _))

/-- An element is derived from its head and whatever is derived inside it. -/
theorem Head.isElement {head : Head} {heads : List Head} {inner : List Symbol}
    (h : head.WellFormed) (hvoid : head.isVoid = true → heads = [] ∧ inner = [])
    (hinner : IsContents Head.SpellsClass heads inner) :
    IsElement Head.SpellsClass (head :: heads) ((head.opening oracle).flatMap Part.symbols ++ inner
      ++ head.closing.flatMap Part.symbols) := by
  have hattrs := Head.isAttrs_attrs oracle h
  obtain ⟨hname, _⟩ := h
  have hopening : (head.opening oracle).flatMap Part.symbols =
      openingTag head.tag (head.attrSymbols oracle) := by
    simp [Head.opening, Head.attrSymbols, Part.symbols, openingTag, Symbol.ofChars]
  rw [hopening, closing]
  by_cases hv : head.isVoid = true
  · have hmem : head.tag ∈ voidTags := List.contains_iff_mem.mp hv
    obtain ⟨rfl, rfl⟩ := hvoid hv
    rw [if_pos hv]
    simpa using IsElement.void hname hmem hattrs
  · have hmem : head.tag ∉ voidTags := fun hmem => hv (List.contains_iff_mem.mpr hmem)
    have hpaired := IsElement.paired hname hmem hattrs hinner
    rw [if_neg hv]
    simpa [Part.symbols, closingTag] using hpaired

theorem Content.isContents_markup {c : Content} (h : c.WellFormed) (before : Before) :
    IsContents Head.SpellsClass c.heads ((c.markup oracle before).flatMap Part.symbols) := by
  induction c generalizing before with
  | nil => exact .nil
  | text s next ih =>
    obtain ⟨hne, hnext⟩ := h
    have htext := IsContents.text (Text.escape_ne_nil hne) (Text.lt_not_mem_escape s)
      (Text.onlyEntities_escape .running s) (ih hnext .afterText)
    rw [markup]
    split
    · simpa [heads, Part.symbols] using IsContents.anchor htext
    · simpa [heads, Part.symbols] using htext
  | expr i next ih => exact ih h _
  | element head inner next ihInner ihNext =>
    obtain ⟨hhead, hvoid, hinner, hnext⟩ := h
    have hitem := Head.isElement oracle hhead (fun hv => by rw [hvoid hv]; exact ⟨rfl, rfl⟩)
      (ihInner hinner .nothing)
    have hcontents := IsContents.element hitem (ihNext hnext .nothing)
    simpa [heads, markup] using hcontents

end Derivation

/-- **The markup of an element is derived**, with the `class` attributes each head spells out. -/
theorem Element.isElement_markup (oracle : Oracle) {e : Element} (h : e.WellFormed) :
    Grammar.IsElement Head.SpellsClass e.heads ((e.markup oracle).flatMap Part.symbols) := by
  obtain ⟨hhead, hvoid, hcontent⟩ := h
  have helement := Head.isElement oracle hhead (fun hv => by rw [hvoid hv]; exact ⟨rfl, rfl⟩)
    (Content.isContents_markup oracle hcontent .nothing)
  simpa [heads, markup] using helement

/--
**Literals cannot break out of the markup.** Texts and holes take turns in it, and it is
derived from the grammar of elements. A `class` holds names, unless the element spells the
attribute out.
-/
theorem compile_derives {oracle : Oracle} {svg : Bool} {fragments : List String} {a : Artifact}
    {parts : List Part} (h : (compile oracle svg fragments).result = .ok a)
    (hparts : a.template = .parts parts) :
    Part.Alternates parts
      ∧ ∃ t r, Template.read (Element.fits oracle) (Reader.ofFragments fragments) = .ok (t, r)
        ∧ Grammar.IsElement Head.SpellsClass t.root.heads (parts.flatMap Part.symbols) := by
  obtain ⟨_, t, r, hread, rfl, _⟩ := compile_eq_ok h
  have hmerge : parts = Part.merge (t.root.markup oracle) := by
    have hskeleton : t.root.skeleton oracle = .parts parts := hparts
    unfold Element.skeleton at hskeleton
    split at hskeleton
    · cases hskeleton
    · exact (Skeleton.parts.inj hskeleton).symm
  subst hmerge
  obtain ⟨s, rest, heq, halternates⟩ := (t.root.framed_markup oracle).alternates_merge
  refine ⟨heq ▸ halternates, t, r, hread, ?_⟩
  rw [Part.symbols_merge]
  exact Element.isElement_markup oracle (Template.wellFormed_of_read hread)

/-- Literals that try to end the attribute, the tag and the element they stand in. -/
theorem compile_derives_hostile :
    ∃ a parts, (compile (· == 0) false ["p.a.b :x='\"><&' :y=", " :z\n  '</p>&' ",
        " '\">'\n  br\n  i :class='u  v'"]).result = .ok a
      ∧ a.template = .parts parts
      ∧ parts = [.text "<p class=\"a b\" x=\"&quot;><&amp;\" y=\"", .expr 0,
        .text "\" z>&lt;/p>&amp;<!>\"><br><i class=\"u  v\"></i></p>"]
      ∧ Part.Alternates parts
      ∧ ∃ e : Element, Grammar.IsElement Head.SpellsClass e.heads (parts.flatMap Part.symbols) := by
  generalize hf : ["p.a.b :x='\"><&' :y=", " :z\n  '</p>&' ", " '\">'\n  br\n  i :class='u  v'"] =
    fragments
  generalize hp : [Part.text "<p class=\"a b\" x=\"&quot;><&amp;\" y=\"", .expr 0,
    .text "\" z>&lt;/p>&amp;<!>\"><br><i class=\"u  v\"></i></p>"] = parts
  have htemplate : (compile (· == 0) false fragments).result.toOption.map Artifact.template =
      some (.parts parts) := by
    rw [← hf, ← hp]
    decide +kernel
  obtain ⟨a, hresult, hparts⟩ := exists_of_toOption_map htemplate
  obtain ⟨halternates, t, _, _, hderived⟩ := compile_derives hresult hparts
  exact ⟨a, parts, hresult, hparts, rfl, halternates, t.root, hderived⟩

/-! ## A class that is not made of names -/

namespace Grammar

/-- Where something is over, what is written tells it from what follows. -/
theorem append_unique {α : Type} {p : α → Bool} {a b x y : List α} (ha : ∀ c ∈ a, p c = true)
    (hb : ∀ c ∈ b, p c = true) (hx : x.head?.all (!p ·)) (hy : y.head?.all (!p ·))
    (h : a ++ x = b ++ y) : a = b ∧ x = y := by
  have hstop : ∀ {z : List α}, z.head?.all (!p ·) → z.takeWhile p = [] := by
    intro z hz
    cases z with
    | nil => rfl
    | cons c z => exact List.takeWhile_cons_of_neg (by simpa using hz)
  have htake := congrArg (List.takeWhile p) h
  rw [List.takeWhile_append_of_pos ha, List.takeWhile_append_of_pos hb, hstop hx, hstop hy,
    List.append_nil, List.append_nil] at htake
  subst htake
  exact ⟨rfl, List.append_cancel_left h⟩

theorem name_unique {name name' : String} {x y : List Symbol} (hname : IsName name)
    (hname' : IsName name') (hx : x.head?.all (!·.isName)) (hy : y.head?.all (!·.isName))
    (h : Symbol.ofChars name.toList ++ x = Symbol.ofChars name'.toList ++ y) :
    name = name' ∧ x = y := by
  have hall : ∀ {n : String}, IsName n → ∀ s ∈ Symbol.ofChars n.toList, s.isName = true := by
    intro n hn s hs
    obtain ⟨c, hc, rfl⟩ := List.mem_map.mp hs
    exact hn.isNameMore c hc
  obtain ⟨hsame, hxy⟩ := append_unique (hall hname) (hall hname') hx hy h
  exact ⟨String.toList_inj.mp (List.map_injective_iff.mpr (fun _ _ => Symbol.char.inj) hsame), hxy⟩

variable {own : List Char → Prop}

/-- An attribute is a blank and a name, and perhaps a value that has no quotes in it. -/
theorem IsAttr.exists_name {attr : List Symbol} (h : IsAttr own attr) :
    ∃ name tail, IsName name ∧ attr = .char ' ' :: (Symbol.ofChars name.toList ++ tail)
      ∧ (tail = [] ∨ ∃ value, tail = .char '=' :: .char '"' :: (value ++ [.char '"'])
        ∧ .char '"' ∉ value
        ∧ ∀ cs, value = Symbol.ofChars cs → name = "class" → JoinsNames cs ∨ own cs) := by
  cases h with
  | @flag name hname => exact ⟨name, [], hname, by simp [Symbol.ofChars], .inl rfl⟩
  | @value name cs hname hquote _ hclass =>
    refine ⟨name, _, hname, by simp [Symbol.ofChars]; rfl, .inr ⟨Symbol.ofChars cs, ?_, ?_, ?_⟩⟩
    · simp [Symbol.ofChars]
    · simpa [Symbol.ofChars] using hquote
    · intro ds hds hn
      rw [← List.map_injective_iff.mpr (fun _ _ => Symbol.char.inj) hds]
      exact hclass hn
  | @hole name hname i =>
    refine ⟨name, _, hname, by simp [Symbol.ofChars]; rfl, .inr ⟨[.hole i], ?_, ?_, ?_⟩⟩
    · simp
    · simp
    · intro ds hds
      cases ds <;> cases hds

/-- After a name there are attributes or the end of the tag. -/
theorem IsAttrs.starts {attrs : List Symbol} (h : IsAttrs own attrs) (rest : List Symbol) :
    (attrs ++ .char '>' :: rest).head? = some (.char '>')
      ∨ (attrs ++ .char '>' :: rest).head? = some (.char ' ') := by
  cases h with
  | nil => exact .inl rfl
  | cons hattr _ =>
    obtain ⟨name, tail, _, rfl, _⟩ := hattr.exists_name
    exact .inr rfl

theorem IsAttrs.ends_name {attrs : List Symbol} (h : IsAttrs own attrs) (rest : List Symbol) :
    (attrs ++ .char '>' :: rest).head?.all (!·.isName) := by
  rcases h.starts rest with hhead | hhead <;> rw [hhead] <;> rfl

theorem IsElement.exists_opening {own : Head → List Char → Prop} {heads : List Head}
    {symbols : List Symbol} (h : IsElement own heads symbols) :
    ∃ head ∈ heads, ∃ attrs rest, IsName head.tag ∧ IsAttrs (own head) attrs
      ∧ symbols = .char '<' :: (Symbol.ofChars head.tag.toList ++ (attrs ++ .char '>' :: rest)) := by
  cases h with
  | void hname _ hattrs =>
    exact ⟨_, List.mem_cons_self, _, [], hname, hattrs, by simp [openingTag]⟩
  | paired hname _ hattrs _ =>
    exact ⟨_, List.mem_cons_self, _, _, hname, hattrs, by simp [openingTag]; rfl⟩

/-- Two blanks in a row do not stand between names. -/
theorem not_joinsNames_two_blanks : ¬JoinsNames "u  v".toList := by
  rintro ⟨names, hne, hnames, heq⟩
  cases names with
  | nil => exact hne rfl
  | cons n ns =>
    obtain ⟨hn, hns⟩ := List.forall_mem_cons.mp hnames
    rw [toList_intercalate_blank] at heq
    cases ns with
    | nil =>
      rw [List.flatMap_nil, List.append_nil] at heq
      exact hn.not_mem (c := ' ') rfl (heq ▸ by decide)
    | cons m ms =>
      obtain ⟨_, hrest⟩ := append_unique (b := ['u']) (y := "  v".toList) hn.isNameMore
        (List.all_eq_true.mp rfl) rfl rfl heq.symm
      obtain ⟨c, cs, hm, hstart, _⟩ := hns m List.mem_cons_self
      rw [List.flatMap_cons, hm] at hrest
      have hblank : c = ' ' := (List.cons.inj (List.cons.inj hrest).2).1
      subst hblank
      cases hstart

/-- **A class can be read in one way only.** What stands between the quotes of a `class` that
comes first in an element is made of names, or one of the values that the element may have. -/
theorem IsElement.class_value {own : Head → List Char → Prop} {heads : List Head} {tag : String}
    {cs : List Char} {rest : List Symbol} (htag : IsName tag) (hcs : '"' ∉ cs)
    (h : IsElement own heads (.char '<' :: (Symbol.ofChars tag.toList ++ .char ' ' ::
      (Symbol.ofChars "class".toList ++ .char '=' :: .char '"' ::
        (Symbol.ofChars cs ++ .char '"' :: rest))))) :
    ∃ head ∈ heads, JoinsNames cs ∨ own head cs := by
  obtain ⟨head, hmem, attrs, rest', hname, hattrs, heq⟩ := h.exists_opening
  obtain ⟨_, hattr⟩ := name_unique htag hname rfl (hattrs.ends_name rest') (List.cons.inj heq).2
  cases hattrs with
  | nil => cases (List.cons.inj hattr).1
  | @cons _ more hfirst hmore =>
    obtain ⟨name, tail, hname', rfl, htail⟩ := hfirst.exists_name
    rw [List.cons_append, List.cons_append, List.append_assoc, List.append_assoc] at hattr
    have hafter := (List.cons.inj hattr).2
    rcases htail with rfl | ⟨value, rfl, hquote, hvalue⟩
    · -- without a value, the next attribute or the end of the tag would have to be here
      obtain ⟨_, hrest⟩ := name_unique isName_class hname' rfl (hmore.ends_name rest') hafter
      have hends := hmore.starts rest'
      rw [← List.nil_append (more ++ _), ← hrest] at hends
      rcases hends with hends | hends <;> cases hends
    · obtain ⟨hclass, hrest⟩ := name_unique isName_class hname' rfl rfl hafter
      have hquoted : Symbol.ofChars cs ++ .char '"' :: rest =
          value ++ .char '"' :: (more ++ .char '>' :: rest') := by
        simpa using hrest
      have hplain : ∀ {v : List Symbol}, .char '"' ∉ v → ∀ s ∈ v, (s != .char '"') = true :=
        fun hv s hs => bne_iff_ne.mpr fun heq => hv (heq ▸ hs)
      obtain ⟨hsame, _⟩ := append_unique (hplain (Symbol.quote_not_mem_ofChars hcs)) (hplain hquote)
        (by simp) (by simp) hquoted
      exact ⟨head, hmem, hvalue cs hsame.symm hclass.symm⟩

end Grammar

/-- A literal for `class` is written as it is, so a class need not be made of names. -/
theorem compile_class_literal :
    ∃ a parts, (compile (fun _ => false) false ["i :class='u  v'"]).result = .ok a
      ∧ a.template = .parts parts
      ∧ ¬∃ heads, Grammar.IsElement (fun _ _ => False) heads (parts.flatMap Part.symbols) := by
  have htemplate : (compile (fun _ => false) false ["i :class='u  v'"]).result.toOption.map
      Artifact.template = some (.parts [.text "<i class=\"u  v\"></i>"]) := by
    decide +kernel
  obtain ⟨a, hresult, hparts⟩ := exists_of_toOption_map htemplate
  refine ⟨a, _, hresult, hparts, ?_⟩
  rintro ⟨heads, h⟩
  have hi : IsName "i" := ⟨'i', [], rfl, rfl, List.all_eq_true.mp rfl⟩
  have hderived : Grammar.IsElement (fun _ _ => False) heads (.char '<' :: (Symbol.ofChars "i".toList
      ++ .char ' ' :: (Symbol.ofChars "class".toList ++ .char '=' :: .char '"' ::
        (Symbol.ofChars "u  v".toList ++ .char '"' :: Symbol.ofChars "></i>".toList)))) := h
  obtain ⟨_, _, hnames | hfalse⟩ := hderived.class_value hi (by decide)
  · exact Grammar.not_joinsNames_two_blanks hnames
  · exact hfalse

end Stencil
