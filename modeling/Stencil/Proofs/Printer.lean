import Stencil.Proofs.MarkupTree

/-!
# Writing templates down

An element can be written as a template in many ways. The printer chooses one: every item
of content stands on a line of its own, two blanks deeper than the element around it, and
the bindings of an element follow its tag with single blanks between. What it prints is a
row of characters and holes, and the fragments of the template are the texts between the
holes.

A reader that stands somewhere in a printed template has a row of symbols before it, which
is what `Faces` says. The second half of this file reads names, literals and blank space
under this view: each lemma takes some symbols off the front and leaves the reader before
the rest.
-/

namespace Stencil

/-- A name of a property. -/
def IsPropertyName (name : String) : Prop :=
  ∃ c cs, name.toList = c :: cs ∧ Reader.isPropertyStart c = true
    ∧ ∀ d ∈ cs, Reader.isPropertyMore d = true

/-! ## The printer -/

namespace Symbol

/-- The number of the expression, if it is a hole. -/
def hole? : Symbol → Option Nat
  | char _ => none
  | hole i => some i

def holes (symbols : List Symbol) : List Nat :=
  symbols.filterMap hole?

/-- The texts between the holes. There is one more of them than there are holes. -/
def pieces : List Symbol → List (List Char)
  | [] => [[]]
  | char c :: rest => (pieces rest).modifyHead (c :: ·)
  | hole _ :: rest => [] :: pieces rest

theorem exists_pieces (symbols : List Symbol) : ∃ f fs, pieces symbols = f :: fs := by
  induction symbols with
  | nil => exact ⟨[], [], rfl⟩
  | cons s rest ih =>
    cases s with
    | char c =>
      obtain ⟨f, fs, h⟩ := ih
      exact ⟨c :: f, fs, by rw [pieces, h, List.modifyHead_cons]⟩
    | hole i => exact ⟨[], pieces rest, rfl⟩

/-- The start of a line. -/
def newline (indent : Nat) : List Symbol :=
  ofChars ('\n' :: List.replicate indent ' ')

/-- A literal in quotes, with `hashes` many `#` on either side. -/
def quoted (hashes : Nat) (text : String) : List Symbol :=
  ofChars (List.replicate hashes '#' ++ '\'' :: text.toList ++ '\'' :: List.replicate hashes '#')

end Symbol

/-- No quote inside the text would close a literal with so many `#`. -/
def Text.Encloses (hashes : Nat) (text : List Char) : Prop :=
  ¬('\'' :: List.replicate hashes '#') <:+: text

namespace NamedProp

/-- The character that a binding of this kind starts with. -/
def mark : NamedProp → Char
  | attr => ':'
  | property => '.'
  | diffProperty => '*'
  | style => '~'
  | event => '@'

end NamedProp

namespace ClassPart

def print : ClassPart → List Symbol
  | names list => list.flatMap fun name => .char '.' :: Symbol.ofChars name.toList
  | expr i => [.hole i]

end ClassPart

section

/- How many `#` go around a literal. -/
variable (hashes : String → Nat)

def Binding.print : Binding → List Symbol
  | flag name => .char ':' :: Symbol.ofChars name.toList
  | value name text =>
    .char ':' :: Symbol.ofChars name.toList ++ .char '=' :: Symbol.quoted (hashes text) text
  | named kind name i => .char kind.mark :: Symbol.ofChars name.toList ++ [.char '=', .hole i]
  | directive i => [.char '$', .hole i]

/-- Bindings, each after a blank. -/
def Binding.printAll (bs : List Binding) : List Symbol :=
  bs.flatMap fun b => .char ' ' :: b.print hashes

def Head.print (head : Head) : List Symbol :=
  Symbol.ofChars head.tag.toList ++ head.cls.print ++ Binding.printAll hashes head.bindings

def Content.print (indent : Nat) : Content → List Symbol
  | nil => []
  | text s next =>
    Symbol.newline indent ++ Symbol.quoted (hashes s) s ++ next.print indent
  | expr i next => Symbol.newline indent ++ .hole i :: next.print indent
  | element head inner next =>
    Symbol.newline indent ++ head.print hashes ++ inner.print (indent + 2) ++ next.print indent

def Element.print (e : Element) : List Symbol :=
  e.head.print hashes ++ e.content.print hashes 2

/-- The fragments of the printed template. -/
def Element.fragments (e : Element) : List String :=
  (Symbol.pieces (e.print hashes)).map String.ofList

end

/-! ## Readers before symbols -/

namespace Reader

/-- The reader stands before these symbols, and numbers their holes as they are numbered. -/
structure Faces (r : Reader) (symbols : List Symbol) : Prop where
  pieces : r.rest :: r.later = Symbol.pieces symbols
  holes : ∃ n, Symbol.holes symbols = List.range' r.index n

variable {r : Reader} {symbols : List Symbol}

theorem faces_ofFragments {n : Nat} (h : Symbol.holes symbols = List.range n) :
    (ofFragments ((Symbol.pieces symbols).map String.ofList)).Faces symbols := by
  obtain ⟨f, fs, hpieces⟩ := Symbol.exists_pieces symbols
  rw [hpieces]
  refine ⟨?_, n, ?_⟩
  · simp [ofFragments, hpieces, Function.comp_def]
  · rw [h, List.range_eq_range']
    rfl

/-- What the reader has measured and asked makes no difference. -/
theorem Faces.same {s : Reader} (h : r.Faces symbols) (hindex : s.index = r.index)
    (hrest : s.rest = r.rest) (hlater : s.later = r.later) : s.Faces symbols where
  pieces := by rw [hrest, hlater, h.pieces]
  holes := by rw [hindex]; exact h.holes

theorem Faces.nil (h : r.Faces []) : r.rest = [] ∧ r.later = [] := by
  simpa [Symbol.pieces] using h.pieces

theorem Faces.char {c : Char} (h : r.Faces (.char c :: symbols)) :
    ∃ cs, r.rest = c :: cs ∧ (r.withRest cs).Faces symbols := by
  have hpieces := h.pieces
  rw [Symbol.pieces] at hpieces
  obtain ⟨f, fs, hsymbols⟩ := Symbol.exists_pieces symbols
  rw [hsymbols, List.modifyHead_cons, List.cons.injEq] at hpieces
  exact ⟨f, hpieces.1, by rw [hsymbols, ← hpieces.2]; rfl, h.holes⟩

theorem Faces.chars {cs : List Char} (h : r.Faces (Symbol.ofChars cs ++ symbols)) :
    ∃ tail, r.rest = cs ++ tail ∧ (r.withRest tail).Faces symbols := by
  induction cs generalizing r with
  | nil => exact ⟨r.rest, rfl, h⟩
  | cons c cs ih =>
    obtain ⟨ds, hrest, hfaces⟩ := Faces.char h
    obtain ⟨tail, htail, hfaces⟩ := ih hfaces
    refine ⟨tail, ?_, hfaces⟩
    rw [hrest, List.cons_append]
    exact congrArg (c :: ·) htail

theorem Faces.hole {i : Nat} (h : r.Faces (.hole i :: symbols)) :
    r.rest = [] ∧ ∃ s, r.takeExpr? = some (i, s) ∧ s.Faces symbols ∧ s.indent = r.indent := by
  have hpieces := h.pieces
  rw [Symbol.pieces, List.cons.injEq] at hpieces
  obtain ⟨hrest, hlater⟩ := hpieces
  obtain ⟨f, fs, hsymbols⟩ := Symbol.exists_pieces symbols
  rw [hsymbols] at hlater
  obtain ⟨n, hn⟩ := h.holes
  have hi : i :: Symbol.holes symbols = List.range' r.index n := hn
  cases n with
  | zero => cases hi
  | succ n =>
    rw [List.range'_succ] at hi
    obtain ⟨rfl, hrange⟩ := List.cons.inj hi
    refine ⟨hrest, { r with index := r.index + 1, rest := f, later := fs }, ?_,
      ⟨hsymbols.symm, n, hrange⟩, rfl⟩
    rw [takeExpr?, hrest, hlater]

/-- The next character is that of the next symbol. -/
theorem Faces.head?_rest (h : r.Faces symbols) : r.rest.head? = symbols.head?.bind Symbol.char? := by
  cases symbols with
  | nil => rw [h.nil.1]; rfl
  | cons s rest =>
    cases s with
    | char c =>
      obtain ⟨cs, hrest, _⟩ := h.char
      rw [hrest]
      rfl
    | hole i => rw [h.hole.1]; rfl

/-! ## Names -/

/-- The row does not go on with a character of this class. -/
def Stops (more : Char → Bool) (symbols : List Symbol) : Prop :=
  ∀ c, symbols.head? = some (.char c) → more c = false

theorem Faces.takeWhile_rest {more : Char → Bool} (h : r.Faces symbols) (hstop : Stops more symbols) :
    r.rest.takeWhile more = [] ∧ r.rest.dropWhile more = r.rest := by
  have hhead := h.head?_rest
  cases hrest : r.rest with
  | nil => exact ⟨rfl, rfl⟩
  | cons c cs =>
    rw [hrest] at hhead
    obtain ⟨s, hs, hc⟩ := Option.bind_eq_some_iff.mp hhead.symm
    have hmore : more c = false := by
      cases s with
      | char d => exact hstop c (Option.some.inj hc ▸ hs)
      | hole i => cases hc
    have hneg : ¬more c = true := by simp [hmore]
    exact ⟨List.takeWhile_cons_of_neg hneg, List.dropWhile_cons_of_neg hneg⟩

theorem Faces.lexeme? {first more : Char → Bool} {name : String} {c : Char} {cs : List Char}
    (h : r.Faces (Symbol.ofChars name.toList ++ symbols)) (hname : name.toList = c :: cs)
    (hc : first c = true) (hcs : ∀ d ∈ cs, more d = true) (hstop : Stops more symbols) :
    ∃ s, r.lexeme? first more = some (name, s) ∧ s.Faces symbols ∧ s.indent = r.indent := by
  obtain ⟨tail, hrest, hfaces⟩ := h.chars
  obtain ⟨htake, hdrop⟩ : tail.takeWhile more = [] ∧ tail.dropWhile more = tail :=
    hfaces.takeWhile_rest hstop
  refine ⟨r.withRest tail, ?_, hfaces, rfl⟩
  rw [Reader.lexeme?, hrest, hname, List.cons_append]
  dsimp only
  rw [if_pos hc, List.takeWhile_append_of_pos hcs, List.dropWhile_append_of_pos hcs, htake, hdrop,
    List.append_nil, ← hname, String.ofList_toList]

theorem Faces.name? {name : String} (h : r.Faces (Symbol.ofChars name.toList ++ symbols))
    (hname : IsName name) (hstop : Stops isNameMore symbols) :
    ∃ s, r.name? = some (name, s) ∧ s.Faces symbols ∧ s.indent = r.indent := by
  obtain ⟨c, cs, hlist, hc, hcs⟩ := hname
  exact h.lexeme? hlist hc hcs hstop

theorem Faces.propertyName? {name : String} (h : r.Faces (Symbol.ofChars name.toList ++ symbols))
    (hname : IsPropertyName name) (hstop : Stops isPropertyMore symbols) :
    ∃ s, r.propertyName? = some (name, s) ∧ s.Faces symbols ∧ s.indent = r.indent := by
  obtain ⟨c, cs, hlist, hc, hcs⟩ := hname
  exact h.lexeme? hlist hc hcs hstop

theorem Faces.equals? (h : r.Faces (.char '=' :: symbols)) :
    ∃ s, r.equals? = some s ∧ s.Faces symbols ∧ s.indent = r.indent := by
  obtain ⟨cs, hrest, hfaces⟩ := h.char
  refine ⟨r.withRest cs, ?_, hfaces, rfl⟩
  rw [Reader.equals?, hrest]
  rfl

/-! ## Literals -/

theorem length_le_bytes (cs : List Char) : cs.length ≤ Text.bytes cs := by
  induction cs with
  | nil => exact Nat.le_refl 0
  | cons c cs ih =>
    have hc := c.utf8Size_pos
    rw [List.length_cons, Text.bytes_cons]
    omega

/-- A quote inside the text does not close the literal. -/
theorem take_ne_hashes {hashes : Nat} {text : List Char} (rest : List Char)
    (h : ¬List.replicate hashes '#' <+: text) :
    (text ++ '\'' :: rest).take hashes ≠ List.replicate hashes '#' := by
  intro htake
  have hprefix : List.replicate hashes '#' <+: text ++ '\'' :: rest :=
    htake ▸ List.take_prefix _ _
  rcases Nat.lt_or_ge text.length hashes with hlt | hle
  · -- the run of `#` would reach over the closing quote
    have hquote : '\'' ∈ List.replicate hashes '#' := by
      rw [← htake, List.take_append]
      obtain ⟨k, hk⟩ := Nat.exists_eq_add_of_lt hlt
      have hsub : hashes - text.length = k + 1 := by omega
      rw [hsub, List.take_succ_cons]
      exact List.mem_append_right _ (List.mem_cons_self ..)
    exact absurd (List.eq_of_mem_replicate hquote) (by decide)
  · exact h (List.prefix_of_prefix_length_le hprefix (List.prefix_append _ _) (by simpa using hle))

theorem closeLiteral_enclosed {hashes : Nat} {text : List Char} (h : Text.Encloses hashes text)
    (done tail : List Char) :
    closeLiteral hashes done (text ++ '\'' :: (List.replicate hashes '#' ++ tail)) =
      .closed (done.reverse ++ text) tail := by
  have henough : ∀ cs : List Char, ¬Text.bytes ((cs ++ '\'' :: (List.replicate hashes '#' ++ tail)).take
      hashes) < hashes := by
    intro cs
    have hbytes := length_le_bytes
      ((cs ++ '\'' :: (List.replicate hashes '#' ++ tail)).take hashes)
    simp only [List.length_take, List.length_append, List.length_cons, List.length_replicate] at hbytes
    omega
  induction text generalizing done with
  | nil =>
    have htake : (List.replicate hashes '#' ++ tail).take hashes = List.replicate hashes '#' :=
      List.take_left' List.length_replicate
    have hdrop : (List.replicate hashes '#' ++ tail).drop hashes = tail :=
      List.drop_left' List.length_replicate
    have hbytes := length_le_bytes (List.replicate hashes '#')
    rw [List.length_replicate] at hbytes
    rw [List.nil_append, closeLiteral, if_pos rfl, htake, if_neg (by omega), if_pos rfl, hdrop,
      List.append_nil]
  | cons c text ih =>
    have hrest : Text.Encloses hashes text := fun hinside => h (hinside.trans (List.suffix_cons c text).isInfix)
    rw [List.cons_append, closeLiteral]
    by_cases hc : c = '\''
    · subst hc
      have hprefix : ¬List.replicate hashes '#' <+: text := by
        intro hprefix
        exact h (List.prefix_cons_inj _ |>.mpr hprefix).isInfix
      rw [if_pos rfl, if_neg (henough text), if_neg (take_ne_hashes _ hprefix), ih hrest]
      simp
    · rw [if_neg hc, ih hrest]
      simp

/-- A text in quotes that enclose it is a literal. -/
theorem literal?_enclosed {hashes : Nat} {text : List Char} (h : Text.Encloses hashes text)
    (tail : List Char) :
    literal? (List.replicate hashes '#' ++ '\'' :: text ++ '\'' :: List.replicate hashes '#' ++ tail) =
      some (.closed text tail) := by
  have hhash : ∀ c ∈ List.replicate hashes '#', (c == '#') = true := by
    intro c hc
    rw [List.eq_of_mem_replicate hc]
    rfl
  have hclose := closeLiteral_enclosed h [] tail
  rw [List.append_assoc, List.append_assoc, literal?, List.dropWhile_append_of_pos hhash,
    List.takeWhile_append_of_pos hhash]
  simpa using hclose

theorem Faces.literal {hashes : Nat} {text : String}
    (h : r.Faces (Symbol.quoted hashes text ++ symbols))
    (henclosed : Text.Encloses hashes text.toList) :
    ∃ s, r.literal = .ok (text, s) ∧ s.Faces symbols ∧ s.indent = r.indent := by
  obtain ⟨tail, hrest, hfaces⟩ := h.chars
  have hliteral : literal? r.rest = some (.closed text.toList tail) := by
    rw [hrest]
    exact literal?_enclosed henclosed tail
  refine ⟨r.withRest tail, ?_, hfaces, rfl⟩
  rw [Reader.literal, hliteral]
  dsimp only
  rw [String.ofList_toList]

/-- Where neither `#` nor a quote stands, the content is empty. -/
theorem Faces.literal_empty (h : r.Faces symbols) (hhash : Stops (· == '#') symbols)
    (hquote : Stops (· == '\'') symbols) : r.literal = .ok ("", r) := by
  have hnone : literal? r.rest = none := by
    rw [literal?, (h.takeWhile_rest hhash).2]
    split
    · next body hrest =>
      have htake := (h.takeWhile_rest hquote).1
      rw [hrest] at htake
      cases htake
    · rfl
  rw [Reader.literal, hnone]

/-! ## Blank space -/

theorem measure_stops {cs : List Char} (h : cs.takeWhile isBlank = []) (indent : Nat) :
    measure indent cs = (indent, cs) := by
  cases cs with
  | nil => rfl
  | cons c cs =>
    have hc : isBlank c = false := by
      by_contra hne
      rw [List.takeWhile_cons_of_pos (by simpa using hne)] at h
      cases h
    simp only [isBlank, Bool.or_eq_false_iff, beq_eq_false_iff_ne] at hc
    obtain ⟨⟨⟨hspace, htab⟩, hline⟩, hreturn⟩ := hc
    rw [measure, if_neg (by simp [hspace, htab]), if_neg (by simp [hline, hreturn])]

theorem measure_spaces {cs : List Char} (h : cs.takeWhile isBlank = []) (n indent : Nat) :
    measure indent (List.replicate n ' ' ++ cs) = (indent + n, cs) := by
  induction n generalizing indent with
  | zero => exact measure_stops h indent
  | succ n ih =>
    rw [List.replicate_succ, List.cons_append, measure, if_pos (.inl rfl), ih]
    congr 1
    omega

/-- Blank space is measured once. -/
theorem skipBlank_skipBlank (r : Reader) : r.skipBlank.skipBlank = r.skipBlank := by
  have hstop : ∀ (cs : List Char) (indent : Nat), (measure indent cs).2.takeWhile isBlank = [] := by
    intro cs
    induction cs with
    | nil => exact fun _ => rfl
    | cons c cs ih =>
      intro indent
      unfold measure
      split
      · exact ih _
      · split
        · exact ih _
        · next hspace hline =>
          refine List.takeWhile_cons_of_neg ?_
          simp only [not_or] at hspace hline
          simp [isBlank, hspace, hline]
  have hagain := measure_stops (hstop r.rest r.indent) r.skipBlank.indent
  unfold skipBlank at hagain ⊢
  dsimp only at hagain ⊢
  rw [hagain]

theorem Faces.skipBlank_stops (h : r.Faces symbols) (hstop : Stops isBlank symbols) :
    r.skipBlank = r := by
  have hmeasure := measure_stops (h.takeWhile_rest hstop).1 r.indent
  unfold skipBlank
  rw [hmeasure]

theorem Faces.skipBlank_space (h : r.Faces (.char ' ' :: symbols)) (hstop : Stops isBlank symbols) :
    r.skipBlank.Faces symbols ∧ r.skipBlank.indent = r.indent + 1 := by
  obtain ⟨cs, hrest, hfaces⟩ := h.char
  have hmeasure : measure r.indent r.rest = (r.indent + 1, cs) := by
    rw [hrest]
    exact measure_spaces (hfaces.takeWhile_rest hstop).1 1 r.indent
  unfold skipBlank
  rw [hmeasure]
  exact ⟨hfaces.same rfl rfl rfl, rfl⟩

/-- A new line is measured from its start. -/
theorem Faces.skipBlank_newline {n : Nat} (h : r.Faces (Symbol.newline n ++ symbols))
    (hstop : Stops isBlank symbols) : r.skipBlank.Faces symbols ∧ r.skipBlank.indent = n := by
  obtain ⟨cs, hrest, hfaces⟩ := h.chars
  have hcs : cs.takeWhile isBlank = [] := (hfaces.takeWhile_rest hstop).1
  have hmeasure : measure r.indent r.rest = (n, cs) := by
    rw [hrest, List.cons_append, measure, if_neg (by decide), if_pos (.inl rfl),
      measure_spaces hcs, Nat.zero_add]
  unfold skipBlank
  rw [hmeasure]
  exact ⟨hfaces.same rfl rfl rfl, rfl⟩

end Reader
end Stencil
