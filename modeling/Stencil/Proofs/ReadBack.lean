import Stencil.Proofs.Printer

/-!
# Reading undoes printing

A printed template is read as the element it was printed from, whatever stands around the
literals as long as it encloses them. So all that a compile makes of a printed template is
a function of the element: it fails if a count does not fit, and gives the markup of the
element otherwise.

Each rule of the grammar gets one lemma. The indentation is what makes them fit together:
after a head or an item the reader has skipped to the next line and measured it, and a line
that is not indented deeper than `base` ends the content of an element at `base`.
-/

namespace Stencil

/-- May a binding of this kind have this name? -/
def NamedProp.Admits : NamedProp → String → Prop
  | attr, name => IsName name
  | property, name => IsPropertyName name
  | diffProperty, name => IsPropertyName name
  | style, name => IsName name
  | event, name => IsName name

/-- All that a binding needs to be written down. -/
def Binding.Printable : Binding → Prop
  | flag name => IsName name
  | value name text => IsName name ∧ text ≠ ""
  | named kind name _ => kind.Admits name
  | directive _ => True

def Head.Printable (head : Head) : Prop :=
  IsName head.tag ∧ head.cls.WellFormed ∧ ∀ b ∈ head.bindings, b.Printable

def Content.Printable : Content → Prop
  | nil => True
  | text s next => s ≠ "" ∧ next.Printable
  | expr _ next => next.Printable
  | element head inner next =>
    head.Printable ∧ (head.isVoid = true → inner = nil) ∧ inner.Printable ∧ next.Printable

/-- How many levels of content stand inside each other. -/
def Content.height : Content → Nat
  | nil => 0
  | text _ next => max 1 next.height
  | expr _ next => max 1 next.height
  | element _ inner next => max (inner.height + 1) next.height

/-- An element that can be written down: all names are such as the grammar wants, expressions
are numbered in the order they are written, and the deepest line is indented by less than
what stands on the line of a tag. -/
structure Element.Printable (e : Element) : Prop where
  head : e.head.Printable
  void : e.head.isVoid = true → e.content = .nil
  content : e.content.Printable
  numbered : e.taken = List.range e.taken.length
  height : 2 * e.content.height < inlineIndent

namespace Symbol

/-- Nothing follows, or a blank, or a new line. -/
def Breaks (symbols : List Symbol) : Prop :=
  ∀ s ∈ symbols.head?, s = .char ' ' ∨ s = .char '\n'

theorem Breaks.stops {symbols : List Symbol} (h : Breaks symbols) {more : Char → Bool}
    (hblank : more ' ' = false) (hline : more '\n' = false) : Reader.Stops more symbols := by
  intro c hc
  rcases h _ hc with heq | heq
  · rwa [Symbol.char.inj heq]
  · rwa [Symbol.char.inj heq]

/-- The characters that bindings start with. -/
def marks : List Char := [':', '.', '*', '~', '@', '$']

/-- A line of content starts here. -/
structure StartsItem (symbols : List Symbol) : Prop where
  notBlank : Reader.Stops Reader.isBlank symbols
  notMark : Reader.Stops marks.contains symbols

/-- Nothing follows, or a line that is indented by `base` at most. -/
def Dedents (base : Nat) (symbols : List Symbol) : Prop :=
  symbols = [] ∨ ∃ n rest, n ≤ base ∧ symbols = newline n ++ rest ∧ StartsItem rest

theorem Dedents.breaks {base : Nat} {symbols : List Symbol} (h : Dedents base symbols) :
    Breaks symbols := by
  intro s hs
  rcases h with rfl | ⟨n, rest, _, rfl, _⟩
  · cases hs
  · exact .inr (Option.some.inj hs).symm

end Symbol

open Stencil.Symbol (Breaks Dedents StartsItem)

namespace Reader

variable {r : Reader} {rest : List Symbol}

theorem Faces.takeExpr?_eq_none (h : r.Faces rest) (hhole : ∀ i, rest.head? ≠ some (.hole i)) :
    r.takeExpr? = none := by
  cases rest with
  | nil =>
    obtain ⟨hrest, hlater⟩ := h.nil
    rw [takeExpr?, hrest, hlater]
  | cons s rest =>
    cases s with
    | char c =>
      obtain ⟨cs, hrest, _⟩ := h.char
      rw [takeExpr?, hrest]
    | hole i => exact absurd rfl (hhole i)

theorem Faces.takeExpr?_of_breaks (h : r.Faces rest) (hbreaks : Breaks rest) :
    r.takeExpr? = none := by
  refine h.takeExpr?_eq_none fun i hi => ?_
  rcases hbreaks _ hi with heq | heq <;> cases heq

/-! ## The class part -/

theorem Faces.classNames {names : List String}
    (h : r.Faces ((ClassPart.names names).print ++ rest)) (hnames : ∀ name ∈ names, IsName name)
    (hbreaks : Breaks rest) :
    ∃ s, r.classNames = .ok (names, s) ∧ s.Faces rest ∧ s.indent = r.indent := by
  induction names generalizing r with
  | nil =>
    have hstop : Stops (· == '.') rest := hbreaks.stops rfl rfl
    have hpoint := (h.takeWhile_rest hstop).1
    refine ⟨r, ?_, h, rfl⟩
    rw [Reader.classNames]
    split
    · next hrest =>
      rw [hrest] at hpoint
      cases hpoint
    · rfl
  | cons name names ih =>
    -- what parts two names is no character of a name
    have hnext : Stops isNameMore ((ClassPart.names names).print ++ rest) := by
      cases names with
      | nil => exact hbreaks.stops rfl rfl
      | cons n ns =>
        intro c hc
        cases hc
        rfl
    obtain ⟨hname, hnames⟩ := List.forall_mem_cons.mp hnames
    rw [ClassPart.print, List.flatMap_cons, List.append_assoc] at h
    obtain ⟨cs, hrest, hfaces⟩ := h.char
    obtain ⟨s, hread, hfaces, hindent⟩ := hfaces.name? hname hnext
    obtain ⟨t, hmore, hfaces, hindent'⟩ := ih hfaces hnames
    refine ⟨t, ?_, hfaces, hindent'.trans hindent⟩
    rw [Reader.classNames]
    split
    · next ds hds =>
      obtain ⟨_, rfl⟩ := List.cons.inj (hrest.symm.trans hds)
      split
      · next hnone => cases hread.symm.trans hnone
      · next found _ hfound =>
        obtain ⟨rfl, rfl⟩ := Prod.mk.inj (Option.some.inj (hread.symm.trans hfound))
        rw [hmore]
    · next hne => exact absurd hrest (hne cs)

theorem Faces.classPart {cls : ClassPart} (h : r.Faces (cls.print ++ rest)) (hcls : cls.WellFormed)
    (hbreaks : Breaks rest) :
    ∃ s, r.classPart = .ok (cls, s) ∧ s.Faces rest ∧ s.indent = r.indent := by
  cases cls with
  | names list =>
    have hnone : r.takeExpr? = none := by
      cases list with
      | nil => exact h.takeExpr?_of_breaks hbreaks
      | cons n ns => exact h.takeExpr?_eq_none fun i hi => by cases hi
    obtain ⟨s, hread, hfaces, hindent⟩ := h.classNames hcls hbreaks
    refine ⟨s, ?_, hfaces, hindent⟩
    rw [Reader.classPart, hnone]
    dsimp only
    rw [hread]
  | expr i =>
    obtain ⟨_, s, htake, hfaces, hindent⟩ := h.hole
    refine ⟨s.ask i, ?_, hfaces.same rfl rfl rfl, hindent⟩
    rw [Reader.classPart, htake]

/-! ## Bindings -/

theorem Faces.equals?_eq_none (h : r.Faces rest) (hbreaks : Breaks rest) : r.equals? = none := by
  have hstop : Stops (· == '=') rest := hbreaks.stops rfl rfl
  have hequals := (h.takeWhile_rest hstop).1
  rw [Reader.equals?]
  split
  · next hrest =>
    rw [hrest] at hequals
    cases hequals
  · rfl

/-- An equals sign after a name ends the name. -/
theorem stops_equals {more : Char → Bool} (h : more '=' = false) :
    Stops more (.char '=' :: rest) := by
  intro c hc
  cases hc
  exact h

theorem Faces.namedBinding (kind : NamedProp) (fault : Fault) {name : String} {i : Nat}
    {name? : Reader → Option (String × Reader)}
    (hname : ∃ s, name? r = some (name, s) ∧ s.Faces (.char '=' :: .hole i :: rest)
      ∧ s.indent = r.indent) :
    ∃ s, r.namedBinding kind name? fault = .ok (.named kind name i, s) ∧ s.Faces rest
      ∧ s.indent = r.indent := by
  obtain ⟨s, hread, hfaces, hindent⟩ := hname
  obtain ⟨t, hequals, hfaces, hindent'⟩ := hfaces.equals?
  obtain ⟨_, u, htake, hfaces, hindent''⟩ := hfaces.hole
  refine ⟨u, ?_, hfaces, hindent''.trans (hindent'.trans hindent)⟩
  rw [Reader.namedBinding, hread]
  dsimp only
  rw [hequals]
  dsimp only
  rw [htake]

theorem Faces.attrFlag {name : String} (h : r.Faces (Symbol.ofChars name.toList ++ rest))
    (hname : IsName name) (hbreaks : Breaks rest) :
    ∃ s, r.attrBinding = .ok (.flag name, s) ∧ s.Faces rest ∧ s.indent = r.indent := by
  obtain ⟨s, hread, hfaces, hindent⟩ := h.name? hname (hbreaks.stops rfl rfl)
  refine ⟨s, ?_, hfaces, hindent⟩
  rw [attrBinding, hread]
  dsimp only
  rw [hfaces.equals?_eq_none hbreaks]

theorem Faces.attrValue {name text : String} {hashes : Nat}
    (h : r.Faces (Symbol.ofChars name.toList ++ .char '=' :: (Symbol.quoted hashes text ++ rest)))
    (hname : IsName name) (htext : text ≠ "") (hencloses : Text.Encloses hashes text.toList) :
    ∃ s, r.attrBinding = .ok (.value name text, s) ∧ s.Faces rest ∧ s.indent = r.indent := by
  obtain ⟨s, hread, hfaces, hindent⟩ := h.name? hname (stops_equals rfl)
  obtain ⟨t, hequals, hfaces, hindent'⟩ := hfaces.equals?
  obtain ⟨u, hliteral, hfaces, hindent''⟩ := hfaces.literal hencloses
  refine ⟨u, ?_, hfaces, hindent''.trans (hindent'.trans hindent)⟩
  rw [attrBinding, hread]
  dsimp only
  rw [hequals]
  dsimp only
  rw [hliteral]
  dsimp only
  rw [if_pos htext]

/-- Nothing is read before a hole. -/
theorem stops_hole (more : Char → Bool) (i : Nat) : Stops more (.hole i :: rest) := by
  intro c hc
  cases hc

theorem Faces.attrExpr {name : String} {i : Nat}
    (h : r.Faces (Symbol.ofChars name.toList ++ .char '=' :: .hole i :: rest))
    (hname : IsName name) :
    ∃ s, r.attrBinding = .ok (.named .attr name i, s) ∧ s.Faces rest ∧ s.indent = r.indent := by
  obtain ⟨s, hread, hfaces, hindent⟩ := h.name? hname (stops_equals rfl)
  obtain ⟨t, hequals, hfaces, hindent'⟩ := hfaces.equals?
  have hliteral := hfaces.literal_empty (stops_hole _ i) (stops_hole _ i)
  obtain ⟨_, u, htake, hfaces, hindent''⟩ := hfaces.hole
  refine ⟨u.ask i, ?_, hfaces.same rfl rfl rfl, hindent''.trans (hindent'.trans hindent)⟩
  rw [attrBinding, hread]
  dsimp only
  rw [hequals]
  dsimp only
  rw [hliteral]
  dsimp only
  rw [if_neg (fun h => h rfl), htake]

/-- Bindings are read one by one until a line ends them, or a character that is no mark. -/
theorem bindings_eq (base : Nat) (r : Reader) :
    r.bindings base =
      if r.indent ≤ base then .ok ([], r)
      else
        match r.binding? with
        | none => .ok ([], r)
        | some (.error failure) => .error failure
        | some (.ok (b, s)) =>
          match s.skipBlank.bindings base with
          | .error failure => .error failure
          | .ok (bs, t) => .ok (b :: bs, t) := by
  rw [bindings]
  split
  · rfl
  · split
    · next h => rw [h]
    · next h => rw [h]
    · next h =>
      dsimp only
      exact h ▸ rfl

theorem Faces.binding?_eq_none (h : r.Faces rest) (hstop : Stops Symbol.marks.contains rest) :
    r.binding? = none := by
  have hmark := (h.takeWhile_rest hstop).1
  unfold Reader.binding?
  split
  case h_7 => rfl
  all_goals
    next hrest =>
    rw [hrest] at hmark
    cases hmark

/-- The next line starts with no binding. -/
theorem Faces.bindings_nil {n : Nat} (h : r.Faces rest) (hrest : Dedents n rest) (base : Nat) :
    r.skipBlank.bindings base = .ok ([], r.skipBlank) := by
  have hnone : r.skipBlank.binding? = none := by
    rcases hrest with rfl | ⟨m, item, _, rfl, hitem⟩
    · have hstop : ∀ more, Stops more [] := fun more c hc => by cases hc
      rw [h.skipBlank_stops (hstop _)]
      exact h.binding?_eq_none (hstop _)
    · exact (h.skipBlank_newline hitem.notBlank).1.binding?_eq_none hitem.notMark
  rw [bindings_eq, hnone]
  split <;> rfl

theorem breaks_printAll {n : Nat} (hashes : String → Nat) (bs : List Binding) (hrest : Dedents n rest) :
    Breaks (Binding.printAll hashes bs ++ rest) := by
  cases bs with
  | nil => exact hrest.breaks
  | cons b bs =>
    intro s hs
    exact .inl (Option.some.inj hs).symm

theorem stops_print (hashes : String → Nat) (b : Binding) : Stops isBlank (b.print hashes ++ rest) := by
  intro c hc
  cases b with
  | flag name => cases hc; rfl
  | value name text => cases hc; rfl
  | named kind name i =>
    cases hc
    cases kind <;> rfl
  | directive i => cases hc; rfl

theorem stops_classPart (cls : ClassPart) (h : Breaks rest) :
    Stops isNameMore (cls.print ++ rest) := by
  cases cls with
  | names list =>
    cases list with
    | nil => exact h.stops rfl rfl
    | cons name names =>
      intro c hc
      cases hc
      rfl
  | expr i => exact stops_hole _ i

/-! ## Lines of content -/

theorem Faces.atEnd_eq_false {c : Char} (h : r.Faces (.char c :: rest)) : r.atEnd = false := by
  obtain ⟨cs, hrest, _⟩ := h.char
  rw [atEnd, hrest]
  rfl

theorem startsItem_char {c : Char} (hblank : isBlank c = false)
    (hmark : Symbol.marks.contains c = false) : StartsItem (.char c :: rest) where
  notBlank := by
    intro d hd
    cases hd
    exact hblank
  notMark := by
    intro d hd
    cases hd
    exact hmark

theorem startsItem_hole (i : Nat) : StartsItem (.hole i :: rest) where
  notBlank := stops_hole _ i
  notMark := stops_hole _ i

theorem exists_quoted (hashes : Nat) (text : String) :
    ∃ c cs, (c = '#' ∨ c = '\'') ∧ Symbol.quoted hashes text = .char c :: cs := by
  cases hashes with
  | zero => exact ⟨'\'', _, .inr rfl, rfl⟩
  | succ hashes => exact ⟨'#', _, .inl rfl, rfl⟩

theorem startsItem_quoted (hashes : Nat) (text : String) :
    StartsItem (Symbol.quoted hashes text ++ rest) := by
  obtain ⟨c, cs, hc, hquoted⟩ := exists_quoted hashes text
  rw [hquoted]
  rcases hc with rfl | rfl
  · exact startsItem_char rfl rfl
  · exact startsItem_char rfl rfl

theorem exists_head (hashes : String → Nat) {head : Head} (h : IsName head.tag) :
    ∃ c cs, isNameStart c = true ∧ head.print hashes = .char c :: cs := by
  obtain ⟨c, cs, htag, hc, _⟩ := h
  refine ⟨c, Symbol.ofChars cs ++ head.cls.print ++ Binding.printAll hashes head.bindings, hc, ?_⟩
  rw [Head.print, htag]
  rfl

/-- No name starts with a character that something else starts with. -/
theorem not_mem_of_isNameStart {c : Char} {others : List Char} (hc : isNameStart c = true)
    (h : others.all (!isNameStart ·) = true) : others.contains c = false := by
  by_contra hcontains
  have hmem : c ∈ others := by simpa using hcontains
  have hnot := List.all_eq_true.mp h c hmem
  simp [hc] at hnot

theorem startsItem_head (hashes : String → Nat) {head : Head} (h : IsName head.tag) :
    StartsItem (head.print hashes ++ rest) := by
  obtain ⟨c, cs, hc, hprint⟩ := exists_head hashes h
  have hblank : isBlank c = false := by
    have hnot : [' ', '\t', '\n', '\r'].contains c = false := not_mem_of_isNameStart hc rfl
    simpa [isBlank, and_assoc] using hnot
  rw [hprint]
  exact startsItem_char hblank (not_mem_of_isNameStart hc rfl)

/-- A tag is not taken for a literal. -/
theorem Faces.literal_head {hashes : String → Nat} {head : Head}
    (h : r.Faces (head.print hashes ++ rest)) (htag : IsName head.tag) :
    r.literal = .ok ("", r) := by
  obtain ⟨c, cs, hc, hprint⟩ := exists_head hashes htag
  have hnot : ['#', '\''].contains c = false := not_mem_of_isNameStart hc rfl
  simp only [List.contains_cons, List.contains_nil, Bool.or_false, Bool.or_eq_false_iff] at hnot
  rw [hprint, List.cons_append] at h
  refine h.literal_empty ?_ ?_
  · intro d hd
    cases hd
    exact hnot.1
  · intro d hd
    cases hd
    exact hnot.2

/-- Printed content is nothing, or starts a line. -/
theorem dedents_print (hashes : String → Nat) {c : Content} {base : Nat} (hc : c.Printable)
    (hrest : Dedents base rest) : Dedents (base + 2) (c.print hashes (base + 2) ++ rest) := by
  have hline : ∀ item, StartsItem item → Dedents (base + 2) (Symbol.newline (base + 2) ++ item) :=
    fun item hitem => .inr ⟨base + 2, item, Nat.le_refl _, rfl, hitem⟩
  cases c with
  | nil =>
    rcases hrest with hnil | ⟨n, item, hle, hitem⟩
    · exact .inl hnil
    · exact .inr ⟨n, item, by omega, hitem⟩
  | text s next =>
    rw [Content.print, List.append_assoc, List.append_assoc]
    exact hline _ (startsItem_quoted _ s)
  | expr i next =>
    rw [Content.print, List.append_assoc, List.cons_append]
    exact hline _ (startsItem_hole i)
  | element head inner next =>
    rw [Content.print, List.append_assoc, List.append_assoc, List.append_assoc]
    exact hline _ (startsItem_head hashes hc.1.1)

/-- A line that is not deeper ends the content, and so does the end of the template. -/
theorem Faces.content_nil {fits : Element → Bool} {base : Nat} (h : r.Faces rest)
    (hrest : Dedents base rest) : r.skipBlank.content fits base = .ok (.nil, r.skipBlank) := by
  rw [content_eq]
  rcases hrest with rfl | ⟨n, item, hle, rfl, hitem⟩
  · obtain ⟨hnil, hlater⟩ := h.nil
    have hskip : r.skipBlank = r := h.skipBlank_stops fun c hc => by cases hc
    have hend : r.atEnd = true := by rw [atEnd, hnil]; rfl
    rw [hskip, if_pos hend, takeExpr?, hnil, hlater]
    split <;> rfl
  · obtain ⟨_, hindent⟩ := h.skipBlank_newline hitem.notBlank
    rw [if_pos (by omega)]

section Printed

variable {hashes : String → Nat} (hencloses : ∀ text, Text.Encloses (hashes text) text.toList)

include hencloses

theorem Faces.binding? {b : Binding} (h : r.Faces (b.print hashes ++ rest)) (hb : b.Printable)
    (hbreaks : Breaks rest) :
    ∃ s, r.binding? = some (.ok (b, s)) ∧ s.Faces rest ∧ s.indent = r.indent := by
  cases b with
  | flag name =>
    obtain ⟨cs, hrest, hfaces⟩ := h.char
    obtain ⟨s, hread, hfaces, hindent⟩ := hfaces.attrFlag hb hbreaks
    refine ⟨s, ?_, hfaces, hindent⟩
    rw [Reader.binding?, hrest]
    exact congrArg some hread
  | value name text =>
    obtain ⟨hname, htext⟩ := hb
    rw [Binding.print, List.cons_append, List.cons_append, List.append_assoc, List.cons_append] at h
    obtain ⟨cs, hrest, hfaces⟩ := h.char
    obtain ⟨s, hread, hfaces, hindent⟩ := hfaces.attrValue hname htext (hencloses text)
    refine ⟨s, ?_, hfaces, hindent⟩
    rw [Reader.binding?, hrest]
    exact congrArg some hread
  | named kind name i =>
    rw [Binding.print, List.cons_append, List.cons_append, List.append_assoc, List.cons_append] at h
    obtain ⟨cs, hrest, hfaces⟩ := h.char
    rw [Reader.binding?, hrest]
    cases kind with
    | attr =>
      obtain ⟨s, hread, hs⟩ := hfaces.attrExpr hb
      exact ⟨s, congrArg some hread, hs⟩
    | property =>
      obtain ⟨s, hread, hs⟩ := Faces.namedBinding .property .propertyName
        (hfaces.propertyName? hb (stops_equals rfl))
      exact ⟨s, congrArg some hread, hs⟩
    | diffProperty =>
      obtain ⟨s, hread, hs⟩ := Faces.namedBinding .diffProperty .propertyName
        (hfaces.propertyName? hb (stops_equals rfl))
      exact ⟨s, congrArg some hread, hs⟩
    | style =>
      obtain ⟨s, hread, hs⟩ := Faces.namedBinding .style .propertyName
        (hfaces.name? hb (stops_equals rfl))
      exact ⟨s, congrArg some hread, hs⟩
    | event =>
      obtain ⟨s, hread, hs⟩ := Faces.namedBinding .event .eventName
        (hfaces.name? hb (stops_equals rfl))
      exact ⟨s, congrArg some hread, hs⟩
  | directive i =>
    obtain ⟨cs, hrest, hfaces⟩ := h.char
    obtain ⟨_, s, htake, hfaces, hindent⟩ := hfaces.hole
    refine ⟨s, ?_, hfaces, hindent⟩
    rw [Reader.binding?, hrest]
    show some (r.withRest cs).directiveBinding = _
    rw [directiveBinding, htake]

theorem Faces.bindings {bs : List Binding} {n base : Nat}
    (h : r.Faces (Binding.printAll hashes bs ++ rest)) (hbs : ∀ b ∈ bs, b.Printable)
    (hrest : Dedents n rest) (hindent : base < r.indent) :
    ∃ q : Reader, r.skipBlank.bindings base = .ok (bs, q.skipBlank) ∧ q.Faces rest := by
  induction bs generalizing r with
  | nil => exact ⟨r, h.bindings_nil hrest base, h⟩
  | cons b bs ih =>
    obtain ⟨hb, hbs⟩ := List.forall_mem_cons.mp hbs
    rw [Binding.printAll, List.flatMap_cons, List.append_assoc, List.cons_append] at h
    obtain ⟨hfaces, hskip⟩ := h.skipBlank_space (stops_print hashes b)
    obtain ⟨s, hread, hfaces, hsame⟩ := hfaces.binding? hencloses hb (breaks_printAll hashes bs hrest)
    obtain ⟨q, hmore, hfaces⟩ := ih hfaces hbs (by omega)
    refine ⟨q, ?_, hfaces⟩
    rw [bindings_eq, if_neg (by omega), hread]
    dsimp only
    rw [hmore]

/-! ## Elements -/

theorem Faces.head {head : Head} {n : Nat} (h : r.Faces (head.print hashes ++ rest))
    (hhead : head.Printable) (hrest : Dedents n rest) (hindent : r.indent < inlineIndent) :
    ∃ q : Reader, r.head = .ok (head, q.skipBlank) ∧ q.Faces rest := by
  obtain ⟨htag, hcls, hbindings⟩ := hhead
  have hbreaks := breaks_printAll hashes head.bindings hrest
  rw [Head.print, List.append_assoc, List.append_assoc] at h
  obtain ⟨s, hname, hfaces, _⟩ := h.name? htag (stops_classPart head.cls hbreaks)
  -- what follows on the line of the tag is deeper than the tag
  have hlift : (s.liftIndent r.indent).indent = inlineIndent := by
    rw [liftIndent, if_pos hindent]
  have hlifted : (s.liftIndent r.indent).Faces
      (head.cls.print ++ (Binding.printAll hashes head.bindings ++ rest)) := by
    rw [liftIndent, if_pos hindent]
    exact hfaces.same rfl rfl rfl
  obtain ⟨t, hclass, hfaces, hsame⟩ := hlifted.classPart hcls hbreaks
  have hdeeper : r.indent < t.indent := by omega
  obtain ⟨q, hread, hfaces⟩ := hfaces.bindings hencloses hbindings hrest hdeeper
  refine ⟨q, ?_, hfaces⟩
  rw [Reader.head, hname]
  dsimp only
  rw [hclass]
  dsimp only
  rw [hread]

/-- An element whose content is read as `inner` is read as a whole. -/
theorem Faces.element {fits : Element → Bool} {head : Head} {inner : Content} {n : Nat}
    {rest' : List Symbol} (h : r.Faces (head.print hashes ++ rest')) (hhead : head.Printable)
    (hvoid : head.isVoid = true → inner = .nil ∧ rest' = rest) (hrest : Dedents n rest')
    (hindent : r.indent < inlineIndent)
    (hinner : ∀ q : Reader, q.Faces rest' →
      ∃ s : Reader, q.skipBlank.content fits r.indent = .ok (inner, s.skipBlank) ∧ s.Faces rest) :
    ∃ q : Reader, r.element fits = .ok (⟨head, inner⟩, q.skipBlank) ∧ q.Faces rest := by
  obtain ⟨q, hread, hfaces⟩ := h.head hencloses hhead hrest hindent
  rw [element_eq, hread]
  dsimp only
  by_cases hv : head.isVoid = true
  · obtain ⟨rfl, rfl⟩ := hvoid hv
    exact ⟨q, by rw [if_pos hv], hfaces⟩
  · obtain ⟨s, hcontent, hfaces⟩ := hinner q hfaces
    refine ⟨s, ?_, hfaces⟩
    rw [if_neg hv, hcontent]

/-- **Printed content is read back**, and the reader stands before what follows it. -/
theorem Faces.content {fits : Element → Bool} {c : Content} {base : Nat}
    (h : r.Faces (c.print hashes (base + 2) ++ rest)) (hc : c.Printable) (hfit : c.AllFit fits)
    (hheight : base + 2 * c.height < inlineIndent) (hrest : Dedents base rest) :
    ∃ q : Reader, r.skipBlank.content fits base = .ok (c, q.skipBlank) ∧ q.Faces rest := by
  -- `rest` varies: for the items inside an element it starts with the items after it
  induction c generalizing r rest base with
  | nil => exact ⟨r, h.content_nil hrest, h⟩
  | text s next ih =>
    obtain ⟨hs, hc⟩ := hc
    rw [Content.height] at hheight
    rw [Content.print, List.append_assoc, List.append_assoc] at h
    obtain ⟨hfaces, hindent⟩ := h.skipBlank_newline (startsItem_quoted _ s).notBlank
    obtain ⟨d, ds, _, hquoted⟩ := exists_quoted (hashes s) s
    have hend : r.skipBlank.atEnd = false := (hquoted ▸ hfaces).atEnd_eq_false
    obtain ⟨t, hread, hfaces, _⟩ := hfaces.literal (hencloses s)
    obtain ⟨q, hmore, hfaces⟩ := ih hfaces hc hfit (by omega) hrest
    refine ⟨q, ?_, hfaces⟩
    rw [content_eq, if_neg (by omega), hend, hread]
    dsimp only
    rw [if_neg Bool.false_ne_true, if_pos hs, hmore]
  | expr i next ih =>
    rw [Content.height] at hheight
    rw [Content.print, List.append_assoc, List.cons_append] at h
    obtain ⟨hfaces, hindent⟩ := h.skipBlank_newline (startsItem_hole i).notBlank
    obtain ⟨hnil, t, htake, hfaces, _⟩ := hfaces.hole
    have hend : r.skipBlank.atEnd = true := by rw [atEnd, hnil]; rfl
    obtain ⟨q, hmore, hfaces⟩ := ih hfaces hc hfit (by omega) hrest
    refine ⟨q, ?_, hfaces⟩
    rw [content_eq, if_neg (by omega), if_pos hend, htake]
    dsimp only
    rw [hmore]
  | element head inner next ihInner ihNext =>
    obtain ⟨hhead, hvoid, hinner, hnext⟩ := hc
    obtain ⟨hfits, hfitInner, hfitNext⟩ := hfit
    rw [Content.height] at hheight
    rw [Content.print, List.append_assoc, List.append_assoc, List.append_assoc] at h
    -- the line after the element is no deeper than its tag, so the content inside ends there
    have hdedents : Dedents (base + 2) (next.print hashes (base + 2) ++ rest) :=
      dedents_print hashes hnext hrest
    obtain ⟨hfaces, hindent⟩ := h.skipBlank_newline (startsItem_head hashes hhead.1).notBlank
    obtain ⟨d, ds, _, htag⟩ := exists_head hashes hhead.1
    have hend : r.skipBlank.atEnd = false := (htag ▸ hfaces).atEnd_eq_false
    have hliteral := hfaces.literal_head hhead.1
    have hempty : head.isVoid = true → inner = .nil
        ∧ inner.print hashes (base + 2 + 2) ++ (next.print hashes (base + 2) ++ rest) =
          next.print hashes (base + 2) ++ rest := by
      intro hv
      rw [hvoid hv]
      exact ⟨rfl, rfl⟩
    have hcontent : ∀ q : Reader,
        q.Faces (inner.print hashes (base + 2 + 2) ++ (next.print hashes (base + 2) ++ rest)) →
        ∃ s : Reader, q.skipBlank.content fits r.skipBlank.indent = .ok (inner, s.skipBlank)
          ∧ s.Faces (next.print hashes (base + 2) ++ rest) := by
      intro q hq
      rw [hindent]
      exact ihInner hq hinner hfitInner (by omega) hdedents
    obtain ⟨t, hread, hfaces⟩ := hfaces.element hencloses hhead hempty
      (dedents_print hashes hinner hdedents) (by omega) hcontent
    obtain ⟨q, hmore, hfaces⟩ := ihNext hfaces hnext hfitNext (by omega) hrest
    refine ⟨q, ?_, hfaces⟩
    rw [content_eq, if_neg (by omega), hend, hliteral]
    dsimp only
    rw [if_neg Bool.false_ne_true, if_neg (fun h => h rfl), hread]
    dsimp only
    rw [if_pos hfits, skipBlank_skipBlank, hmore]

end Printed

/-- A printed template starts with a tag, so it has no options. -/
theorem Faces.options {hashes : String → Nat} {head : Head}
    (h : r.Faces (head.print hashes ++ rest)) (htag : IsName head.tag) :
    r.options = .ok (false, r) := by
  have hskip : r.skipBlank = r := h.skipBlank_stops (startsItem_head hashes htag).notBlank
  obtain ⟨c, cs, hc, hprint⟩ := exists_head hashes htag
  rw [hprint, List.cons_append] at h
  obtain ⟨ds, hrest, _⟩ := h.char
  have hdash : c ≠ '-' := by
    rintro rfl
    cases hc
  unfold Reader.options
  split
  · rfl
  · rfl
  · next hdashed =>
    rw [hrest] at hdashed
    exact absurd (List.cons.inj hdashed).1 hdash
  · next hdashed =>
    rw [hrest] at hdashed
    exact absurd (List.cons.inj hdashed).1 hdash
  · rw [hskip]

end Reader

/-! ## The holes of a printed template -/

namespace Symbol

@[simp] theorem holes_nil : holes [] = [] := rfl

@[simp] theorem holes_append (a b : List Symbol) : holes (a ++ b) = holes a ++ holes b :=
  List.filterMap_append

@[simp] theorem holes_char (c : Char) (symbols : List Symbol) :
    holes (.char c :: symbols) = holes symbols := rfl

@[simp] theorem holes_hole (i : Nat) (symbols : List Symbol) :
    holes (.hole i :: symbols) = i :: holes symbols := rfl

@[simp] theorem holes_ofChars (cs : List Char) : holes (ofChars cs) = [] := by
  induction cs with
  | nil => rfl
  | cons c cs ih => exact ih

end Symbol

section Holes

open Stencil.Symbol

variable (hashes : String → Nat)

theorem ClassPart.holes_print (cls : ClassPart) : holes cls.print = cls.taken := by
  cases cls with
  | names list =>
    induction list with
    | nil => rfl
    | cons name names ih =>
      rw [print, List.flatMap_cons, holes_append, holes_char, holes_ofChars, List.nil_append]
      exact ih
  | expr i => rfl

theorem Binding.holes_print (b : Binding) : holes (b.print hashes) = b.taken := by
  cases b with
  | flag name => simp [print, taken]
  | value name text => simp [print, taken, quoted]
  | named kind name i => simp [print, taken]
  | directive i => rfl

theorem Binding.holes_printAll (bs : List Binding) :
    holes (Binding.printAll hashes bs) = bs.flatMap (·.taken) := by
  induction bs with
  | nil => rfl
  | cons b bs ih =>
    rw [printAll, List.flatMap_cons, holes_append, holes_char, b.holes_print, List.flatMap_cons]
    exact congrArg (b.taken ++ ·) ih

theorem Head.holes_print (head : Head) : holes (head.print hashes) = head.taken := by
  rw [print, holes_append, holes_append, holes_ofChars, ClassPart.holes_print,
    Binding.holes_printAll, taken, List.nil_append]

theorem Content.holes_print (indent : Nat) (c : Content) :
    holes (c.print hashes indent) = c.taken := by
  induction c generalizing indent with
  | nil => rfl
  | text s next ih => simp [print, taken, newline, quoted, ih]
  | expr i next ih => simp [print, taken, newline, ih]
  | element head inner next ihInner ihNext =>
    simp [print, taken, newline, ihInner, ihNext, Head.holes_print]

theorem Element.holes_print (e : Element) : holes (e.print hashes) = e.taken := by
  rw [print, holes_append, Head.holes_print, Content.holes_print, taken]

end Holes

/-- **A printed template is read as the element it was printed from**, if the element passes
the tests that are made on the way. -/
theorem Template.read_fragments {hashes : String → Nat}
    (hencloses : ∀ text, Text.Encloses (hashes text) text.toList) {e : Element} (h : e.Printable)
    {fits : Element → Bool} (hfit : e.content.AllFit fits) :
    ∃ s, Template.read fits (Reader.ofFragments (e.fragments hashes)) = .ok (⟨false, e⟩, s) := by
  have hholes : Symbol.holes (e.print hashes) = List.range e.taken.length := by
    rw [Element.holes_print, ← h.numbered]
  have hfaces := Reader.faces_ofFragments hholes
  have hindent : (Reader.ofFragments (e.fragments hashes)).indent = 0 := by
    unfold Reader.ofFragments
    split <;> rfl
  unfold Element.fragments at hindent ⊢
  generalize Reader.ofFragments ((Symbol.pieces (e.print hashes)).map String.ofList) = r
    at hfaces hindent ⊢
  have hoptions := hfaces.options h.head.1
  have hend : Dedents 0 [] := .inl rfl
  have hdedents := Reader.dedents_print hashes h.content hend
  rw [List.append_nil] at hdedents
  have hempty : e.head.isVoid = true → e.content = .nil ∧ e.content.print hashes 2 = [] := by
    intro hv
    rw [h.void hv]
    exact ⟨rfl, rfl⟩
  have hcontent : ∀ q : Reader, q.Faces (e.content.print hashes 2) →
      ∃ s : Reader, q.skipBlank.content fits r.indent = .ok (e.content, s.skipBlank)
        ∧ s.Faces [] := by
    intro q hq
    rw [← List.append_nil (e.content.print hashes 2)] at hq
    have hheight := h.height
    rw [hindent]
    exact hq.content hencloses h.content hfit (by omega) hend
  obtain ⟨q, hread, _⟩ := hfaces.element hencloses h.head hempty hdedents
    (by rw [hindent]; decide) hcontent
  refine ⟨q.skipBlank, ?_⟩
  rw [Template.read, hoptions]
  dsimp only
  rw [hread]

end Stencil
