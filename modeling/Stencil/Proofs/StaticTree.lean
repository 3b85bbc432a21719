import Stencil.Compile
import Stencil.Proofs.MarkupTree

/-!
# The static tree of a template

Content without its expressions is a row of nodes: texts, the anchors that keep two
texts apart, and elements. Written out, these nodes are the markup of the content, so
they are the tree that a template's skeleton spells. If no two literals are neighbours
the tree can also be read back from the skeleton alone, which is the last theorem here.

A node is known by its place, the way up to the root: its number among its siblings,
anchors counted, then the number of the element around it, and so on. The root is at
the empty place. `located` lists the elements of a template with their places, and
`find_located` says that those are where the tree has them.
-/

namespace Stencil

namespace Head

/-- The class and the attributes that are known, as they are written. -/
def attrSymbols (oracle : Oracle) (head : Head) : List Symbol :=
  (head.attrs oracle).flatMap Part.symbols

end Head

namespace Content

/-- The nodes of content, with `before` in front. -/
def nodes (oracle : Oracle) : Before → Content → Nodes
  | _, nil => .nil
  | before, text s next =>
    let rest : Nodes := .text (Text.escape .running s).toList (next.nodes oracle .afterText)
    if before.needsAnchor then .anchor rest else rest
  | before, expr _ next => next.nodes oracle before.afterExpr
  | _, element head inner next =>
    .element head.tag (head.attrSymbols oracle) (inner.nodes oracle .nothing)
      (next.nodes oracle .nothing)

/-- No literal stands right next to another. -/
def textsApart : Content → Bool
  | nil => true
  | text _ (text _ _) => false
  | text _ next => next.textsApart
  | expr _ next => next.textsApart
  | element _ inner next => inner.textsApart && next.textsApart

end Content

/-- The tree of an element and all that is inside. -/
def Element.tree (oracle : Oracle) (e : Element) : Nodes :=
  .element e.head.tag (e.head.attrSymbols oracle) (e.content.nodes oracle .nothing) .nil

namespace Skeleton

/-- What a skeleton is written as. A bare tag stands for an element with nothing in it. -/
def symbols : Skeleton → List Symbol
  | tag name => (Nodes.element name [] .nil .nil).symbols
  | parts list => list.flatMap Part.symbols

/-- The tree that a skeleton spells. -/
def tree? (s : Skeleton) : Option Nodes :=
  Nodes.read s.symbols

end Skeleton

/-! ## The tree is what the markup spells -/

theorem ClassPart.symbols_ne_nil (oracle : Oracle) (cls : ClassPart) :
    ∀ p ∈ cls.markup oracle, p.symbols ≠ [] := by
  intro p hp
  cases cls with
  | names list =>
    cases list with
    | nil => cases hp
    | cons n ns =>
      obtain rfl := List.mem_singleton.mp hp
      simp [Part.symbols, Symbol.ofChars]
  | expr i =>
    rw [markup] at hp
    split at hp
    · simp only [List.mem_cons, List.not_mem_nil, or_false] at hp
      rcases hp with rfl | rfl | rfl <;> simp [Part.symbols, Symbol.ofChars]
    · cases hp

theorem Binding.symbols_ne_nil (oracle : Oracle) (b : Binding) :
    ∀ p ∈ b.markup oracle, p.symbols ≠ [] := by
  intro p hp
  cases b with
  | flag name =>
    obtain rfl := List.mem_singleton.mp hp
    simp [Part.symbols, Symbol.ofChars]
  | value name text =>
    obtain rfl := List.mem_singleton.mp hp
    simp [Part.symbols, Symbol.ofChars]
  | named kind name i =>
    rw [markup] at hp
    split at hp
    · simp only [List.mem_cons, List.not_mem_nil, or_false] at hp
      rcases hp with rfl | rfl | rfl <;> simp [Part.symbols, Symbol.ofChars]
    · cases hp
  | directive i => cases hp

theorem Head.attrs_eq_nil {oracle : Oracle} {head : Head} (h : head.attrSymbols oracle = []) :
    head.attrs oracle = [] := by
  rw [attrSymbols, List.flatMap_eq_nil_iff] at h
  refine List.eq_nil_iff_forall_not_mem.mpr fun p hp => ?_
  rw [attrs] at h hp
  rcases List.mem_append.mp hp with hcls | hbinding
  · exact head.cls.symbols_ne_nil oracle p hcls (h p hp)
  · obtain ⟨b, _, hb⟩ := List.mem_flatMap.mp hbinding
    exact b.symbols_ne_nil oracle p hb (h p hp)

theorem Head.symbols_opening (oracle : Oracle) (head : Head) :
    (head.opening oracle).flatMap Part.symbols =
      (Token.opening head.tag (head.attrSymbols oracle)).symbols := by
  simp [Head.opening, Head.attrSymbols, Part.symbols, Token.symbols, Token.body, Symbol.ofChars]

theorem Head.symbols_closing (head : Head) :
    head.closing.flatMap Part.symbols =
      (if voidTags.contains head.tag then [] else [Token.closing head.tag]).flatMap
        Token.symbols := by
  unfold Head.closing Head.isVoid
  split
  · rfl
  · simp [Part.symbols, Token.symbols, Token.body, Symbol.ofChars]

theorem Content.symbols_nodes (oracle : Oracle) (before : Before) (c : Content) :
    (c.nodes oracle before).symbols = (c.markup oracle before).flatMap Part.symbols := by
  induction c generalizing before with
  | nil => rfl
  | text s next ih =>
    have hnext := ih .afterText
    rw [nodes, markup, List.flatMap_append, List.flatMap_cons, ← hnext]
    by_cases h : before.needsAnchor = true
    · rw [if_pos h, if_pos h]
      rfl
    · rw [if_neg h, if_neg h]
      rfl
  | expr i next ih => exact ih _
  | element head inner next ihInner ihNext =>
    have hinner := ihInner .nothing
    have hnext := ihNext .nothing
    unfold Nodes.symbols at hinner hnext
    rw [nodes, markup, Nodes.symbols, Nodes.tokens, List.flatMap_cons, List.flatMap_append,
      List.flatMap_append, hinner, hnext, ← Head.symbols_closing, ← Head.symbols_opening]
    simp only [List.flatMap_append, List.append_assoc]

theorem Element.symbols_tree (oracle : Oracle) (e : Element) :
    (e.tree oracle).symbols = (e.markup oracle).flatMap Part.symbols := by
  have hc := Content.symbols_nodes oracle .nothing e.content
  unfold Nodes.symbols at hc
  rw [tree, markup, Nodes.symbols, Nodes.tokens, List.flatMap_cons, List.flatMap_append,
    List.flatMap_append, hc, ← Head.symbols_closing, ← Head.symbols_opening]
  simp [Nodes.tokens]

theorem Content.nodes_eq_nil {oracle : Oracle} {c : Content} (before : Before)
    (h : c.hasMarkup = false) : c.nodes oracle before = .nil := by
  induction c generalizing before with
  | nil => rfl
  | text s next _ => cases h
  | expr i next ih => exact ih _ h
  | element head inner next _ _ => cases h

/-- **The skeleton spells the tree**, also if it is cut down to the bare tag. -/
theorem Element.symbols_skeleton (oracle : Oracle) (e : Element) :
    (e.skeleton oracle).symbols = (e.tree oracle).symbols := by
  unfold skeleton
  by_cases h : e.isBare oracle = true
  · rw [if_pos h]
    unfold isBare at h
    rw [Bool.and_eq_true, List.isEmpty_iff, Bool.not_eq_true'] at h
    rw [tree, Content.nodes_eq_nil _ h.2, Head.attrSymbols, h.1]
    rfl
  · rw [if_neg h, symbols_tree]
    exact Part.symbols_merge _

/-! ## The tree is legible -/

namespace Text

theorem toList_escape (setting : Setting) (s : String) :
    (escape setting s).toList = s.toList.flatMap (escapeChar setting) := by
  rw [escape, String.toList_ofList]

theorem escapeChar_ne_nil (setting : Setting) (c : Char) : escapeChar setting c ≠ [] := by
  unfold escapeChar
  split <;> simp

/-- The characters that replacements are made of. -/
def replacing : List Char := ['&', 'a', 'm', 'p', 'q', 'u', 'o', 't', 'l', ';']

theorem eq_of_mem_escapeChar {setting : Setting} {c d : Char} (hd : d ∉ replacing)
    (h : d ∈ escapeChar setting c) : d = c := by
  have hamp : ['&', 'a', 'm', 'p', ';'] ⊆ replacing := by decide
  have hquot : ['&', 'q', 'u', 'o', 't', ';'] ⊆ replacing := by decide
  have hlt : ['&', 'l', 't', ';'] ⊆ replacing := by decide
  unfold escapeChar at h
  split at h
  · exact absurd (hamp h) hd
  · exact absurd (hquot h) hd
  · exact absurd (hlt h) hd
  · exact List.mem_singleton.mp h

/-- A character that is replaced wherever it stands does not come back in. -/
theorem not_mem_escape {setting : Setting} {d : Char} (hd : d ∉ replacing)
    (hself : d ∉ escapeChar setting d) (s : String) : d ∉ (escape setting s).toList := by
  rw [toList_escape]
  intro h
  obtain ⟨c, _, hc⟩ := List.mem_flatMap.mp h
  obtain rfl := eq_of_mem_escapeChar hd hc
  exact hself hc

theorem lt_not_mem_escape (s : String) : '<' ∉ (escape .running s).toList :=
  not_mem_escape (by decide) (by decide) s

theorem quote_not_mem_escape (s : String) : '"' ∉ (escape .attributeValue s).toList :=
  not_mem_escape (by decide) (by decide) s

theorem escape_ne_nil {setting : Setting} {s : String} (h : s ≠ "") :
    (escape setting s).toList ≠ [] := by
  rw [toList_escape]
  intro hnil
  rw [List.flatMap_eq_nil_iff] at hnil
  have hs : s.toList ≠ [] := fun hs => h (String.toList_eq_nil_iff.mp hs)
  obtain ⟨c, cs, hcs⟩ := List.exists_cons_of_ne_nil hs
  exact escapeChar_ne_nil setting c (hnil c (by rw [hcs]; exact List.mem_cons_self ..))

end Text

namespace Symbol

/-- An attribute as it is written: it starts with a blank and closes its quotes. -/
def IsAttr (symbols : List Symbol) : Prop :=
  symbols.head? = some (.char ' ')
    ∧ ∀ rest, Closes false rest → Closes false (symbols ++ rest)

theorem closes_value {inside rest : List Symbol} (h : .char '"' ∉ inside)
    (hrest : Closes false rest) : Closes true (inside ++ .char '"' :: rest) := by
  induction inside with
  | nil => simpa [Closes] using hrest
  | cons s inside ih =>
    have hs : s ≠ .char '"' := fun hs => h (hs ▸ List.mem_cons_self ..)
    rw [List.cons_append, Closes, if_neg hs]
    exact ⟨fun hq => absurd hq (by decide), ih fun hm => h (List.mem_cons_of_mem _ hm)⟩

/-- A name after a blank, an equals sign, and something in quotes. -/
theorem isAttr_value {name : List Char} {inside : List Symbol}
    (hname : ∀ c ∈ name, Reader.isNameMore c = true) (hin : .char '"' ∉ inside) :
    IsAttr (ofChars (' ' :: name ++ ['=']) ++ .char '"' :: (inside ++ [.char '"'])) := by
  refine ⟨rfl, fun rest hrest => ?_⟩
  rw [List.append_assoc]
  refine closes_append (fun c hc => ?_) ?_
  · rcases List.mem_append.mp hc with hc | hc
    · rcases List.mem_cons.mp hc with rfl | hc
      · exact ⟨by decide, fun _ => by decide⟩
      · exact plain_of_isNameMore (hname c hc)
    · rw [List.mem_singleton] at hc
      subst hc
      exact ⟨by decide, fun _ => by decide⟩
  · have hvalue := closes_value hin hrest
    simpa [Closes] using hvalue

theorem isAttr_name {name : List Char} (hname : ∀ c ∈ name, Reader.isNameMore c = true) :
    IsAttr (ofChars (' ' :: name)) := by
  refine ⟨rfl, fun rest hrest => closes_append (fun c hc => ?_) hrest⟩
  rcases List.mem_cons.mp hc with rfl | hc
  · exact ⟨by decide, fun _ => by decide⟩
  · exact plain_of_isNameMore (hname c hc)

theorem quote_not_mem_ofChars {cs : List Char} (h : '"' ∉ cs) : .char '"' ∉ ofChars cs := by
  intro hm
  obtain ⟨c, hc, he⟩ := List.mem_map.mp hm
  exact h (Symbol.char.inj he ▸ hc)

end Symbol

theorem IsName.not_mem {name : String} (h : IsName name) {c : Char}
    (hc : Reader.isNameMore c = false) : c ∉ name.toList := by
  intro hmem
  rw [h.isNameMore c hmem] at hc
  cases hc

theorem toList_intercalate_blank (n : String) (ns : List String) :
    (String.intercalate " " (n :: ns)).toList = n.toList ++ ns.flatMap (' ' :: ·.toList) := by
  induction ns generalizing n with
  | nil => simp
  | cons m ns ih =>
    rw [String.intercalate_cons_cons, String.toList_append, String.toList_append, ih]
    simp

/-- Class names that are joined have nothing in them but what names have, and blanks. -/
theorem not_mem_intercalate {names : List String} (h : ∀ name ∈ names, IsName name) {c : Char}
    (hc : Reader.isNameMore c = false) (hblank : c ≠ ' ') :
    c ∉ (String.intercalate " " names).toList := by
  cases names with
  | nil => simp
  | cons n ns =>
    obtain ⟨hn, hns⟩ := List.forall_mem_cons.mp h
    rw [toList_intercalate_blank]
    intro hmem
    rcases List.mem_append.mp hmem with hmem | hmem
    · exact hn.not_mem hc hmem
    · obtain ⟨m, hm, hmem⟩ := List.mem_flatMap.mp hmem
      rcases List.mem_cons.mp hmem with heq | hmem
      · exact hblank heq
      · exact (hns m hm).not_mem hc hmem

theorem ClassPart.isAttr_markup {oracle : Oracle} {cls : ClassPart} (h : cls.WellFormed) :
    cls.markup oracle = [] ∨ Symbol.IsAttr ((cls.markup oracle).flatMap Part.symbols) := by
  have hclass : ∀ c ∈ ['c', 'l', 'a', 's', 's'], Reader.isNameMore c = true :=
    List.all_eq_true.mp rfl
  cases cls with
  | names list =>
    cases list with
    | nil => exact .inl rfl
    | cons n ns =>
      refine .inr ?_
      have hquote := Symbol.quote_not_mem_ofChars (not_mem_intercalate h rfl (by decide))
      have hattr := Symbol.isAttr_value hclass hquote
      simpa [markup, Part.symbols, Symbol.ofChars] using hattr
  | expr i =>
    by_cases ho : oracle i = true
    · refine .inr ?_
      have hattr := @Symbol.isAttr_value _ [.hole i] hclass (by simp)
      simpa [markup, ho, Part.symbols, Symbol.ofChars] using hattr
    · exact .inl (by rw [markup, if_neg ho])

theorem Binding.isAttr_markup {oracle : Oracle} {b : Binding} (h : b.WellFormed) :
    b.markup oracle = [] ∨ Symbol.IsAttr ((b.markup oracle).flatMap Part.symbols) := by
  cases b with
  | flag name =>
    refine .inr ?_
    have hattr := Symbol.isAttr_name (IsName.isNameMore h)
    simpa [markup, Part.symbols, Symbol.ofChars] using hattr
  | value name text =>
    refine .inr ?_
    have hquote := Symbol.quote_not_mem_ofChars (Text.quote_not_mem_escape text)
    have hattr := Symbol.isAttr_value h.1.isNameMore hquote
    simpa [markup, Part.symbols, Symbol.ofChars] using hattr
  | named kind name i =>
    by_cases hh : (Binding.named kind name i).isHoisted oracle = true
    · refine .inr ?_
      have hkind : kind = .attr := by
        cases kind with
        | attr => rfl
        | _ => cases hh
      have hattr := @Symbol.isAttr_value _ [.hole i] (h hkind).isNameMore (by simp)
      simpa [markup, hh, Part.symbols, Symbol.ofChars] using hattr
    · exact .inl (by rw [markup, if_neg hh])
  | directive i => exact .inl rfl

/-- What stands between the tag and the closing bracket can be cut off there. -/
theorem Head.legible_opening {oracle : Oracle} {head : Head} (h : head.WellFormed) :
    (Token.opening head.tag (head.attrSymbols oracle)).Legible := by
  obtain ⟨htag, hcls, hbindings⟩ := h
  -- the written attributes are nothing, or one attribute and then more
  have hbs : ∀ bs : List Binding, (∀ b ∈ bs, b.WellFormed) →
      ((bs.flatMap (·.markup oracle)).flatMap Part.symbols).head?.all (!·.isName)
        ∧ Symbol.Closes false ((bs.flatMap (·.markup oracle)).flatMap Part.symbols) := by
    intro bs hbs
    induction bs with
    | nil => exact ⟨rfl, rfl⟩
    | cons b bs ih =>
      have hrest := ih fun c hc => hbs c (List.mem_cons_of_mem _ hc)
      rw [List.flatMap_cons, List.flatMap_append]
      rcases Binding.isAttr_markup (hbs b (List.mem_cons_self ..)) with hb | ⟨hhead, hclose⟩
      · rw [hb]
        exact hrest
      · refine ⟨?_, hclose _ hrest.2⟩
        rw [List.head?_append, hhead]
        rfl
  obtain ⟨hstart, hclose⟩ := hbs head.bindings hbindings
  refine ⟨htag, ?_, ?_⟩
  all_goals
    rw [Head.attrSymbols, Head.attrs, List.flatMap_append]
    rcases ClassPart.isAttr_markup hcls with hc | ⟨hhead, hc⟩
  · rw [hc]
    exact hstart
  · rw [List.head?_append, hhead]
    rfl
  · rw [hc]
    exact hclose
  · exact hc _ hclose

namespace Content

/-- After a text and perhaps expressions comes a text only with an anchor in front. -/
theorem startsWithText_nodes {oracle : Oracle} {before : Before} {c : Content}
    (hb : before.text = true) (hc : before.expr = true ∨ ∀ s next, c ≠ .text s next) :
    (c.nodes oracle before).startsWithText = false := by
  induction c generalizing before with
  | nil => rfl
  | text s next _ =>
    rcases hc with he | hc
    · have hanchor : before.needsAnchor = true := by
        rw [Before.needsAnchor, hb, he]
        rfl
      rw [nodes, if_pos hanchor]
      rfl
    · exact absurd rfl (hc s next)
  | expr i next ih => exact ih hb (.inl rfl)
  | element head inner next _ _ => rfl

theorem legible_nodes {oracle : Oracle} {c : Content} (hwf : c.WellFormed)
    (ha : c.textsApart = true) (before : Before) : (c.nodes oracle before).Legible := by
  induction c generalizing before with
  | nil => trivial
  | text s next ih =>
    have hnext : (∀ s' n', next ≠ .text s' n') ∧ next.textsApart = true := by
      cases next with
      | text s' n' => cases ha
      | nil => exact ⟨by simp, ha⟩
      | expr i n => exact ⟨by simp, ha⟩
      | element h i n => exact ⟨by simp, ha⟩
    have htext : (Nodes.text (Text.escape .running s).toList
        (next.nodes oracle .afterText)).Legible :=
      ⟨⟨Text.escape_ne_nil hwf.1, Text.lt_not_mem_escape s⟩,
        startsWithText_nodes rfl (.inr hnext.1), ih hwf.2 hnext.2 _⟩
    rw [nodes]
    by_cases hanchor : before.needsAnchor = true
    · rw [if_pos hanchor]
      exact htext
    · rw [if_neg hanchor]
      exact htext
  | expr i next ih => exact ih hwf ha _
  | element head inner next ihInner ihNext =>
    obtain ⟨hhead, hvoid, hinner, hnext⟩ := hwf
    rw [textsApart, Bool.and_eq_true] at ha
    refine ⟨Head.legible_opening hhead, fun hv => ?_, ihInner hinner ha.1 _, ihNext hnext ha.2 _⟩
    rw [hvoid hv]
    rfl

end Content

/-- **The skeleton alone gives the tree back**, if no literal stands right next to another. -/
theorem Element.tree?_skeleton {oracle : Oracle} {e : Element} (hwf : e.WellFormed)
    (ha : e.content.textsApart = true) : (e.skeleton oracle).tree? = some (e.tree oracle) := by
  obtain ⟨hhead, hvoid, hcontent⟩ := hwf
  have hlegible : (e.tree oracle).Legible := by
    refine ⟨Head.legible_opening hhead, fun hv => ?_, Content.legible_nodes hcontent ha _, trivial⟩
    rw [hvoid hv]
    rfl
  rw [Skeleton.tree?, symbols_skeleton]
  exact Nodes.read_symbols hlegible

/-! ## Places -/

/-- The way from a node up to the root: its number among its siblings comes first. -/
abbrev Place := List Nat

namespace Nodes

/-- The nodes inside the first node. -/
def inside : Nodes → Nodes
  | element _ _ inner _ => inner
  | _ => nil

/-- The nodes after the first node. -/
def after : Nodes → Nodes
  | nil => nil
  | text _ next => next
  | anchor next => next
  | element _ _ _ next => next

def drop : Nat → Nodes → Nodes
  | 0, nodes => nodes
  | n + 1, nodes => nodes.after.drop n

/-- The node at a place, with its later siblings; `root` is the root and nothing after it. -/
def find (root : Nodes) : Place → Nodes
  | [] => root
  | i :: p => (root.find p).inside.drop i

theorem after_drop (n : Nat) (nodes : Nodes) : (nodes.drop n).after = nodes.drop (n + 1) := by
  induction n generalizing nodes with
  | zero => rfl
  | succ n ih => exact ih nodes.after

end Nodes

/-- The number of anchors in front of a text. -/
def Before.anchors (before : Before) : Nat :=
  if before.needsAnchor then 1 else 0

/-- An element and where it is. -/
structure Located where
  place : Place
  head : Head
  inner : Content
  deriving DecidableEq, Repr

namespace Content

/-- The elements of content in the order of their opening tags. The content stands in the
element at `p`, from node `i` on. -/
def located : Before → Place → Nat → Content → List Located
  | _, _, _, nil => []
  | before, p, i, text _ next => next.located .afterText p (i + before.anchors + 1)
  | before, p, i, expr _ next => next.located before.afterExpr p i
  | _, p, i, element head inner next =>
    ⟨i :: p, head, inner⟩ ::
      (inner.located .nothing (i :: p) 0 ++ next.located .nothing p (i + 1))

theorem drop_nodes_text {oracle : Oracle} {before : Before} {s : String} {next : Content}
    {nodes : Nodes} {i : Nat} (h : nodes.drop i = (Content.text s next).nodes oracle before) :
    nodes.drop (i + before.anchors + 1) = next.nodes oracle .afterText := by
  rw [Content.nodes] at h
  unfold Before.anchors
  by_cases hanchor : before.needsAnchor = true
  · rw [if_pos hanchor] at h ⊢
    rw [← Nodes.after_drop, ← Nodes.after_drop, h]
    rfl
  · rw [if_neg hanchor] at h ⊢
    rw [Nat.add_zero, ← Nodes.after_drop, h]
    rfl

/-- Every element is in the tree at its place. -/
theorem find_located {oracle : Oracle} {root : Nodes} {c : Content} {before : Before} {p : Place}
    {i : Nat} (h : (root.find p).inside.drop i = c.nodes oracle before) :
    ∀ l ∈ c.located before p i, ∃ next, root.find l.place =
      .element l.head.tag (l.head.attrSymbols oracle) (l.inner.nodes oracle .nothing) next := by
  induction c generalizing before p i with
  | nil => intro l hl; cases hl
  | text s next ih => exact ih (drop_nodes_text h)
  | expr j next ih => exact ih h
  | element head inner next ihInner ihNext =>
    intro l hl
    have hfind : root.find (i :: p) = .element head.tag (head.attrSymbols oracle)
        (inner.nodes oracle .nothing) (next.nodes oracle .nothing) := h
    rcases List.mem_cons.mp hl with rfl | hl
    · exact ⟨_, hfind⟩
    · rcases List.mem_append.mp hl with hl | hl
      · refine ihInner ?_ l hl
        rw [hfind]
        rfl
      · refine ihNext ?_ l hl
        rw [← Nodes.after_drop, h]
        rfl

end Content

namespace Element

/-- All elements of a template with their places, the root first. -/
def located (e : Element) : List Located :=
  ⟨[], e.head, e.content⟩ :: e.content.located .nothing [] 0

theorem find_located (oracle : Oracle) (e : Element) :
    ∀ l ∈ e.located, ∃ next, (e.tree oracle).find l.place =
      .element l.head.tag (l.head.attrSymbols oracle) (l.inner.nodes oracle .nothing) next := by
  intro l hl
  rcases List.mem_cons.mp hl with rfl | hl
  · exact ⟨.nil, rfl⟩
  · exact Content.find_located rfl l hl

end Element
end Stencil
