import Stencil.Proofs.Artifact
import Stencil.Proofs.Literals
import Stencil.Proofs.Merging
import Stencil.Proofs.ReadBack
import Stencil.Proofs.SizeTest

/-!
# What a printed template compiles to

The markup of an element is said here once more, as a row of characters and holes that is
spelled out bracket by bracket, with the replacements of each setting made one after the other.
The siblings of an item are looked at as a list instead of carrying a state along: a text has
the anchor `<!>` in front of it exactly if the siblings right before it are expressions, at
least one, and a text comes before those. The row is cut into texts at its holes.

A printed template is read as the element it was printed from, so it compiles to that
markup, unless a count does not fit the field that has to hold it.
-/

namespace Stencil

/-! ## Rows of symbols as parts -/

namespace Symbol

/-- Texts with holes between them. -/
def weave : List String → List Nat → List Part
  | s :: ss, i :: is => .text s :: .expr i :: weave ss is
  | ss, _ => ss.map .text

/-- The texts between the holes of a row, and its holes. -/
def parts (symbols : List Symbol) : List Part :=
  weave ((pieces symbols).map String.ofList) (holes symbols)

theorem pieces_ofChars_append (cs : List Char) (symbols : List Symbol) :
    pieces (ofChars cs ++ symbols) = (pieces symbols).modifyHead (cs ++ ·) := by
  obtain ⟨f, fs, hpieces⟩ := exists_pieces symbols
  rw [hpieces, List.modifyHead_cons]
  induction cs with
  | nil => exact hpieces
  | cons c cs ih =>
    have hrest : pieces (ofChars cs ++ symbols) = (cs ++ f) :: fs := ih
    rw [ofChars, List.map_cons, List.cons_append, pieces, ← ofChars, hrest]
    rfl

theorem holes_ofChars_append (cs : List Char) (symbols : List Symbol) :
    holes (ofChars cs ++ symbols) = holes symbols := by
  induction cs with
  | nil => rfl
  | cons c cs ih => exact ih

/-- A row starts with a text, and more characters in front go into this text. -/
theorem exists_parts (symbols : List Symbol) :
    ∃ t rest, parts symbols = .text t :: rest
      ∧ ∀ s : String, parts (ofChars s.toList ++ symbols) = .text (s ++ t) :: rest := by
  obtain ⟨f, fs, hpieces⟩ := exists_pieces symbols
  have hweave : ∀ s : String, weave (s :: fs.map String.ofList) (holes symbols) =
      .text s :: (weave ("" :: fs.map String.ofList) (holes symbols)).tail := by
    intro s
    cases holes symbols with
    | nil => rfl
    | cons i is => rfl
  refine ⟨String.ofList f, (weave ("" :: fs.map String.ofList) (holes symbols)).tail, ?_, ?_⟩
  · rw [parts, hpieces, List.map_cons, hweave]
  · intro s
    rw [parts, pieces_ofChars_append, holes_ofChars_append, hpieces, List.modifyHead_cons,
      List.map_cons, hweave, String.ofList_append, String.ofList_toList]

theorem parts_ofChars (s : String) : parts (ofChars s.toList) = [.text s] := by
  rw [parts, ← List.append_nil (ofChars s.toList), pieces_ofChars_append, holes_ofChars_append]
  simp [pieces, holes, weave]

theorem parts_hole (s : String) (i : Nat) (symbols : List Symbol) :
    parts (ofChars s.toList ++ hole i :: symbols) = .text s :: .expr i :: parts symbols := by
  rw [parts, pieces_ofChars_append, holes_ofChars_append]
  simp [pieces, holes, hole?, weave, parts]

end Symbol

/-- **Joined texts are the texts between holes.** -/
theorem Part.Framed.merge_eq {parts : List Part} (h : Framed parts) :
    merge parts = Symbol.parts (parts.flatMap symbols) := by
  induction h with
  | single s =>
    rw [List.flatMap_singleton]
    exact (Symbol.parts_ofChars s).symm
  | text s _ ih =>
    rename_i rest _
    obtain ⟨t, ps, hparts, happend⟩ := Symbol.exists_parts (rest.flatMap symbols)
    rw [merge, ih, hparts, List.flatMap_cons]
    exact (happend s).symm
  | hole s i _ ih =>
    rw [merge, merge, ih]
    exact (Symbol.parts_hole s i _).symm

/-! ## Markup by siblings -/

/-- What an item of content is. -/
inductive ItemKind where
  | text
  | expr
  | element
  deriving DecidableEq, Repr

/-- The kinds of the siblings in front, the nearest first: is there a text, and nothing but
expressions after it, at least one? -/
def ItemKind.apart (before : List ItemKind) : Bool :=
  before.head? == some .expr && (before.dropWhile (· == .expr)).head? == some .text

/-- An attribute with a value, after a blank. -/
def Symbol.attribute (name : String) (value : List Symbol) : List Symbol :=
  ofChars (' ' :: name.toList) ++ ofChars "=\"".toList ++ value ++ ofChars "\"".toList

def ClassPart.html (oracle : Oracle) : ClassPart → List Symbol
  | names [] => []
  | names (n :: ns) =>
    Symbol.attribute "class" (Symbol.ofChars (n.toList ++ ns.flatMap (' ' :: ·.toList)))
  | expr i => if oracle i then Symbol.attribute "class" [.hole i] else []

def Binding.html (oracle : Oracle) : Binding → List Symbol
  | flag name => Symbol.ofChars (' ' :: name.toList)
  | value name text =>
    Symbol.attribute name (Symbol.ofChars (Text.replaced .attributeValue text.toList))
  | named .attr name i => if oracle i then Symbol.attribute name [.hole i] else []
  | named _ _ _ => []
  | directive _ => []

namespace Head

/-- What stands between the name and the bracket of the opening tag. -/
def attrHtml (oracle : Oracle) (head : Head) : List Symbol :=
  head.cls.html oracle ++ head.bindings.flatMap (·.html oracle)

/-- An element with this inside. Void tags have no closing tag. -/
def html (oracle : Oracle) (head : Head) (inner : List Symbol) : List Symbol :=
  Symbol.ofChars ('<' :: head.tag.toList) ++ head.attrHtml oracle ++ Symbol.ofChars ">".toList
    ++ inner
    ++ if head.tag ∈ voidTags then [] else Symbol.ofChars ("</".toList ++ head.tag.toList ++ ['>'])

end Head

namespace Content

def kinds : Content → List ItemKind
  | nil => []
  | text _ next => .text :: next.kinds
  | expr _ next => .expr :: next.kinds
  | element _ _ next => .element :: next.kinds

/-- The markup of content, with the kinds of the siblings in front of it. -/
def html (oracle : Oracle) (before : List ItemKind) : Content → List Symbol
  | nil => []
  | text s next =>
    (if ItemKind.apart before then Symbol.ofChars "<!>".toList else [])
      ++ Symbol.ofChars (Text.replaced .running s.toList) ++ next.html oracle (.text :: before)
  | expr _ next => next.html oracle (.expr :: before)
  | element head inner next =>
    head.html oracle (inner.html oracle []) ++ next.html oracle (.element :: before)

end Content

/-- The markup of an element, or the bare tag if nothing else goes into it. -/
def Element.html (oracle : Oracle) (e : Element) : Skeleton :=
  if e.head.attrHtml oracle = [] ∧ ∀ kind ∈ e.content.kinds, kind = .expr then .tag e.head.tag
  else .parts (Symbol.parts (e.head.html oracle (e.content.html oracle [])))

/-! ## The skeleton spells the markup -/

section Symbols

variable (oracle : Oracle)

theorem ClassPart.symbols_markup (cls : ClassPart) :
    (cls.markup oracle).flatMap Part.symbols = cls.html oracle := by
  cases cls with
  | names list =>
    cases list with
    | nil => rfl
    | cons n ns =>
      have hjoin := toList_intercalate_blank n ns
      simp [markup, html, Symbol.attribute, Part.symbols, Symbol.ofChars, hjoin]
  | expr i =>
    rw [markup, html]
    split
    · simp [Symbol.attribute, Part.symbols, Symbol.ofChars]
    · rfl

theorem Binding.symbols_markup (b : Binding) :
    (b.markup oracle).flatMap Part.symbols = b.html oracle := by
  cases b with
  | flag name => simp [markup, html, Part.symbols]
  | value name text =>
    simp [markup, html, Symbol.attribute, Part.symbols, Symbol.ofChars,
      Text.toList_escape_eq_replaced]
  | named kind name i =>
    cases kind with
    | attr =>
      rw [markup, html, isHoisted]
      split
      · simp [Symbol.attribute, Part.symbols, Symbol.ofChars]
      · rfl
    | _ => rfl
  | directive i => rfl

namespace Head

theorem attrSymbols_eq (head : Head) : head.attrSymbols oracle = head.attrHtml oracle := by
  rw [attrSymbols, attrs, attrHtml, List.flatMap_append, ClassPart.symbols_markup,
    List.flatMap_assoc]
  simp only [Binding.symbols_markup]

theorem symbols_around (head : Head) (inner : List Symbol) :
    (head.opening oracle).flatMap Part.symbols ++ inner ++ head.closing.flatMap Part.symbols =
      head.html oracle inner := by
  have hopening : (head.opening oracle).flatMap Part.symbols =
      Symbol.ofChars ('<' :: head.tag.toList) ++ head.attrHtml oracle
        ++ Symbol.ofChars ">".toList := by
    simp [opening, Part.symbols, ← attrSymbols_eq, attrSymbols]
  have hclosing : head.closing.flatMap Part.symbols = if head.tag ∈ voidTags then []
      else Symbol.ofChars ("</".toList ++ head.tag.toList ++ ['>']) := by
    simp only [closing, isVoid, List.contains_iff_mem]
    split <;> simp [Part.symbols]
  rw [hopening, hclosing, html]

end Head

end Symbols

/-- What is carried along about the siblings in front. -/
def Before.ofKinds (before : List ItemKind) : Before where
  text := (before.dropWhile (· == .expr)).head? == some .text
  expr := before.head? == some .expr

theorem Before.needsAnchor_ofKinds (before : List ItemKind) :
    (Before.ofKinds before).needsAnchor = ItemKind.apart before :=
  Bool.and_comm _ _

theorem Content.symbols_markup (oracle : Oracle) (before : List ItemKind) (c : Content) :
    (c.markup oracle (Before.ofKinds before)).flatMap Part.symbols = c.html oracle before := by
  induction c generalizing before with
  | nil => rfl
  | text s next ih =>
    have hnext : (next.markup oracle .afterText).flatMap Part.symbols =
        next.html oracle (.text :: before) := ih (.text :: before)
    rw [markup, html, Before.needsAnchor_ofKinds, List.flatMap_append, List.flatMap_cons, hnext,
      Part.symbols, Text.toList_escape_eq_replaced, List.append_assoc]
    split <;> rfl
  | expr i next ih =>
    have hbefore : (Before.ofKinds before).afterExpr = Before.ofKinds (.expr :: before) := rfl
    rw [markup, html, hbefore, ih]
  | element head inner next ihInner ihNext =>
    have hinner : (inner.markup oracle .nothing).flatMap Part.symbols = inner.html oracle [] :=
      ihInner []
    have hnext : (next.markup oracle .nothing).flatMap Part.symbols =
        next.html oracle (.element :: before) := ihNext (.element :: before)
    rw [markup, html, List.flatMap_append, List.flatMap_append, List.flatMap_append, hinner, hnext,
      Head.symbols_around]

theorem Content.hasMarkup_eq_false_iff (c : Content) :
    c.hasMarkup = false ↔ ∀ kind ∈ c.kinds, kind = .expr := by
  induction c with
  | nil => simp [hasMarkup, kinds]
  | text s next _ => simp [hasMarkup, kinds]
  | expr i next ih => simpa [hasMarkup, kinds] using ih
  | element head inner next _ _ => simp [hasMarkup, kinds]

theorem Element.isBare_iff (oracle : Oracle) (e : Element) :
    e.isBare oracle = true
      ↔ e.head.attrHtml oracle = [] ∧ ∀ kind ∈ e.content.kinds, kind = .expr := by
  have hattrs : e.head.attrs oracle = [] ↔ e.head.attrHtml oracle = [] := by
    rw [← Head.attrSymbols_eq]
    refine ⟨fun hnil => ?_, Head.attrs_eq_nil⟩
    rw [Head.attrSymbols, hnil, List.flatMap_nil]
  rw [isBare, Bool.and_eq_true, List.isEmpty_iff, hattrs, Bool.not_eq_true',
    Content.hasMarkup_eq_false_iff]

/-- **The skeleton is the markup by siblings.** -/
theorem Element.skeleton_eq_html (oracle : Oracle) (e : Element) :
    e.skeleton oracle = e.html oracle := by
  have hcontent : (e.content.markup oracle .nothing).flatMap Part.symbols =
      e.content.html oracle [] := Content.symbols_markup oracle [] e.content
  have hmarkup : Part.merge (e.markup oracle) =
      Symbol.parts (e.head.html oracle (e.content.html oracle [])) := by
    rw [(e.framed_markup oracle).merge_eq, markup, List.flatMap_append, List.flatMap_append,
      hcontent, Head.symbols_around]
  simp only [skeleton, html, isBare_iff, hmarkup]

/-! ## Compiling -/

/-- Every count of the template fits: of the walks inside its elements, and in the summary. -/
def Element.FitsAll (oracle : Oracle) (svg : Bool) (e : Element) : Prop :=
  e.content.AllFit (Element.fits oracle) ∧ (Template.compiled oracle svg ⟨false, e⟩).fits = true

theorem Content.allFit_true (c : Content) : c.AllFit fun _ => true := by
  induction c with
  | nil => trivial
  | text s next ih => exact ih
  | expr i next ih => exact ih
  | element head inner next ihInner ihNext => exact ⟨rfl, ihInner, ihNext⟩

theorem Element.fragments_ne_nil (hashes : String → Nat) (e : Element) : e.fragments hashes ≠ [] := by
  obtain ⟨f, fs, hpieces⟩ := Symbol.exists_pieces (e.print hashes)
  rw [fragments, hpieces]
  exact List.cons_ne_nil _ _

/--
**Reading undoes printing.** An element that is printed and compiled gives its own artifact,
whose skeleton is the markup of the element, if all counts fit, and is refused for its size
if one does not.
-/
theorem compile_fragments {hashes : String → Nat}
    (hencloses : ∀ text, Text.Encloses (hashes text) text.toList) {e : Element} (h : e.Printable)
    (oracle : Oracle) (svg : Bool) :
    (¬e.FitsAll oracle svg ∧ ∃ d,
        (compile oracle svg (e.fragments hashes)).result = .error d ∧ d.code = "E-SIZE")
      ∨ e.FitsAll oracle svg ∧ ∃ a,
        (compile oracle svg (e.fragments hashes)).result = .ok a
          ∧ a.template = e.html oracle
          ∧ a = Template.compiled oracle svg ⟨false, e⟩ := by
  have hne := e.fragments_ne_nil hashes
  by_cases hall : e.content.AllFit (Element.fits oracle)
  · obtain ⟨s, hread⟩ := Template.read_fragments hencloses h hall
    have hcompile := compile_of_read svg hne hread
    by_cases hfits : (Template.compiled oracle svg ⟨false, e⟩).fits = true
    · rw [if_pos hfits] at hcompile
      exact .inr ⟨⟨hall, hfits⟩, _, hcompile, e.skeleton_eq_html oracle, rfl⟩
    · rw [if_neg hfits] at hcompile
      exact .inl ⟨fun hboth => hfits hboth.2, hcompile⟩
  · -- without the test the element would be read, and whatever passes the test fits
    obtain ⟨s, hread⟩ := Template.read_fragments hencloses h e.content.allFit_true
    have hcut := Template.read_cut (Element.fits oracle) (Reader.ofFragments (e.fragments hashes))
    rw [hread] at hcut
    rcases hcut with hsame | ⟨u, hsize, _⟩
    · have hpromises := Template.read_promises (Element.fits oracle)
        (Reader.ofFragments (e.fragments hashes))
      rw [hsame] at hpromises
      exact absurd hpromises.2.2 hall
    · exact .inl ⟨fun hboth => hall hboth.1, compile_of_read_size hne hsize⟩

/-- As many `#` as the text has characters are enough. -/
theorem Text.encloses_length (text : List Char) : Encloses text.length text := by
  intro hinside
  have hle := hinside.length_le
  rw [List.length_cons, List.length_replicate] at hle
  omega

/-- A class, bindings of all kinds, literals that need escapes and delimiters, and a text that
is kept apart from another. -/
def Element.sample : Element where
  head := ⟨"ul", .names ["a", "b-c"], [.flag "d", .value "e" "'#\"", .named .attr "f" 0,
    .named .property "$g" 1, .directive 2]⟩
  content := .text "x" (.expr 3 (.expr 4 (.text "<y" (.element ⟨"li", .expr 5, [.named .event "h" 6]⟩
    (.expr 7 .nil) (.element ⟨"br", .names [], []⟩ .nil .nil)))))

theorem Element.printable_sample : Element.sample.Printable where
  head := by
    refine ⟨⟨'u', ['l'], rfl, rfl, List.all_eq_true.mp rfl⟩, ?_, ?_⟩
    · intro name hname
      rcases List.mem_pair.mp hname with rfl | rfl
      · exact ⟨'a', [], rfl, rfl, List.all_eq_true.mp rfl⟩
      · exact ⟨'b', ['-', 'c'], rfl, rfl, List.all_eq_true.mp rfl⟩
    · simp only [sample, List.forall_mem_cons, List.not_mem_nil, false_imp_iff, implies_true, and_true]
      exact ⟨⟨'d', [], rfl, rfl, List.all_eq_true.mp rfl⟩,
        ⟨⟨'e', [], rfl, rfl, List.all_eq_true.mp rfl⟩, by decide⟩,
        ⟨'f', [], rfl, rfl, List.all_eq_true.mp rfl⟩,
        ⟨'$', ['g'], rfl, rfl, List.all_eq_true.mp rfl⟩, trivial⟩
  void := by decide
  content := by
    refine ⟨by decide, by decide, ⟨⟨'l', ['i'], rfl, rfl, List.all_eq_true.mp rfl⟩, trivial, ?_⟩,
      by decide, trivial, ⟨⟨'b', ['r'], rfl, rfl, List.all_eq_true.mp rfl⟩, ?_, ?_⟩, fun _ => rfl,
      trivial, trivial⟩
    · intro b hb
      rw [List.mem_singleton.mp hb]
      exact ⟨'h', [], rfl, rfl, List.all_eq_true.mp rfl⟩
    · exact fun name hname => absurd hname List.not_mem_nil
    · exact fun b hb => absurd hb List.not_mem_nil
  numbered := by decide
  height := by decide

theorem compile_fragments_sample :
    Element.sample.Printable
      ∧ Element.sample.fragments String.length = ["ul.a.b-c :d :e=###''#\"'### :f=", " .$g=", " $",
        "\n  #'x'#\n  ", "\n  ", "\n  ##'<y'##\n  li", " @h=", "\n    ", "\n  br"]
      ∧ ∃ a, (compile (· == 0) false (Element.sample.fragments String.length)).result = .ok a
        ∧ a.template = Element.sample.html (· == 0)
        ∧ a.template = .parts [.text "<ul class=\"a b-c\" d e=\"'#&quot;\" f=\"", .expr 0,
          .text "\">x<!>&lt;y<li></li><br></ul>"] := by
  have hok : (compile (· == 0) false (Element.sample.fragments String.length)).result.toOption.map
      Artifact.template = some (.parts [.text "<ul class=\"a b-c\" d e=\"'#&quot;\" f=\"", .expr 0,
        .text "\">x<!>&lt;y<li></li><br></ul>"]) := by
    decide +kernel
  obtain ⟨a, hresult, hparts⟩ := exists_of_toOption_map hok
  refine ⟨Element.printable_sample, by decide +kernel, a, hresult, ?_, hparts⟩
  rcases compile_fragments (fun text => Text.encloses_length text.toList) Element.printable_sample
    (· == 0) false with ⟨_, d, herror, _⟩ | ⟨_, a', hresult', htemplate, _⟩
  · cases hresult.symm.trans herror
  · rw [Except.ok.inj (hresult.symm.trans hresult')]
    exact htemplate

end Stencil
