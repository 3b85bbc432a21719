import Mathlib.Data.List.Chain
import Stencil.Element.Markup
import Stencil.Proofs.Reading

/-!
# The tree that markup spells

Markup is a sequence of characters and holes. This file reads such a sequence back
into the nodes it stands for: it is cut into tokens first, which needs nothing but the
brackets and the quotes, and the tokens are then put together into a tree.

The main result is `Nodes.read_symbols`: nodes that are written out are read back as
they were. Two conditions matter. A text must have no bracket in it and must not stand
right next to another text, since nothing in the markup tells two neighbouring texts
apart. And a quote that opens among the attributes has to close there.

Siblings are written as one chain, like the content of an element.
-/

namespace Stencil

/-- A character of the markup, or a hole for the value of an expression. -/
inductive Symbol where
  | char (c : Char)
  | hole (expr : Nat)
  deriving DecidableEq, Repr

namespace Symbol

/-- The symbols of a text. -/
def ofChars (cs : List Char) : List Symbol :=
  cs.map .char

/-- The character, unless it is a hole. -/
def char? : Symbol → Option Char
  | char c => some c
  | hole _ => none

/-- May the symbol stand in a name? -/
def isName : Symbol → Bool
  | char c => Reader.isNameMore c
  | hole _ => false

end Symbol

namespace Part

/-- What a piece of markup is written as. -/
def symbols : Part → List Symbol
  | text s => Symbol.ofChars s.toList
  | expr i => [.hole i]

/-- Joining neighbouring texts does not change what is written. -/
theorem symbols_merge (parts : List Part) :
    (merge parts).flatMap symbols = parts.flatMap symbols := by
  induction parts with
  | nil => rfl
  | cons part rest ih =>
    cases part with
    | expr i => rw [merge, List.flatMap_cons, List.flatMap_cons, ih]
    | text s =>
      rw [merge, List.flatMap_cons, ← ih]
      split
      · rename_i tail rest' hm
        simp [hm, symbols, Symbol.ofChars]
      · rfl

end Part

/-- Siblings of the markup in order, each with what is inside it. -/
inductive Nodes where
  | nil
  /-- A text, as it is written in the markup. -/
  | text (text : List Char) (next : Nodes)
  /-- The empty node that keeps two texts apart. -/
  | anchor (next : Nodes)
  | element (tag : String) (attrs : List Symbol) (inner next : Nodes)
  deriving DecidableEq, Repr

/-- A piece of markup that is written at once. -/
inductive Token where
  | text (text : List Char)
  | anchor
  | opening (tag : String) (attrs : List Symbol)
  | closing (tag : String)
  deriving DecidableEq, Repr

namespace Token

/-- What stands between the brackets of a token that has brackets. -/
def body : Token → List Symbol
  | text _ => []
  | anchor => [.char '!']
  | opening tag attrs => Symbol.ofChars tag.toList ++ attrs
  | closing tag => .char '/' :: Symbol.ofChars tag.toList

def symbols : Token → List Symbol
  | text cs => Symbol.ofChars cs
  | token => .char '<' :: token.body ++ [.char '>']

/-- The token with this between its brackets. -/
def ofBody : List Symbol → Token
  | [.char '!'] => anchor
  | .char '/' :: name => closing (String.ofList (name.filterMap Symbol.char?))
  | body =>
    opening (String.ofList ((body.takeWhile Symbol.isName).filterMap Symbol.char?))
      (body.dropWhile Symbol.isName)

/-- Puts a character in front of tokens. -/
def consChar (c : Char) : List Token → List Token
  | text cs :: tokens => text (c :: cs) :: tokens
  | tokens => text [c] :: tokens

/-- A place inside brackets: whether a quote is open, and what was read, last symbol first. -/
structure Inside where
  quoted : Bool := false
  done : List Symbol := []

/--
Cuts symbols into tokens, starting in running text or inside brackets. A bracket in
quotes does not close, and there are no holes in running text.
-/
def scan : Option Inside → List Symbol → Option (List Token)
  | none, [] => some []
  | some _, [] => none
  | none, s :: rest =>
    match s with
    | .hole _ => none
    | .char '<' => scan (some {}) rest
    | .char c => (scan none rest).map (consChar c)
  | some inside, s :: rest =>
    if s = .char '>' ∧ inside.quoted = false then
      (scan none rest).map (ofBody inside.done.reverse :: ·)
    else if s = .char '"' then scan (some ⟨!inside.quoted, s :: inside.done⟩) rest
    else scan (some ⟨inside.quoted, s :: inside.done⟩) rest

end Token

namespace Nodes

/-- The tokens of nodes. A void element has no closing one. -/
def tokens : Nodes → List Token
  | nil => []
  | text cs next => .text cs :: next.tokens
  | anchor next => .anchor :: next.tokens
  | element tag attrs inner next =>
    .opening tag attrs ::
      (inner.tokens ++ (if voidTags.contains tag then [] else [.closing tag]) ++ next.tokens)

/-- What nodes are written as. -/
def symbols (nodes : Nodes) : List Symbol :=
  nodes.tokens.flatMap Token.symbols

/-- Nodes of one level, and for each level around it the tag it is in and the nodes after. -/
structure Levels where
  here : Nodes := nil
  around : List (String × Nodes) := []

/-- Puts a token in front of what was built from the tokens after it. -/
def Levels.cons : Token → Levels → Option Levels
  | .text cs, ⟨here, around⟩ => some ⟨.text cs here, around⟩
  | .anchor, ⟨here, around⟩ => some ⟨.anchor here, around⟩
  | .closing tag, ⟨here, around⟩ => some ⟨nil, (tag, here) :: around⟩
  | .opening tag attrs, ⟨here, around⟩ =>
    if voidTags.contains tag then some ⟨.element tag attrs nil here, around⟩
    else
      match around with
      | (tag', after) :: around =>
        if tag = tag' then some ⟨.element tag attrs here after, around⟩ else none
      | [] => none

/-- Puts tokens together, from the last to the first. -/
def build : List Token → Option Levels
  | [] => some {}
  | token :: tokens => (build tokens).bind (Levels.cons token)

/-- The nodes that symbols spell. -/
def read (symbols : List Symbol) : Option Nodes :=
  match (Token.scan none symbols).bind build with
  | some ⟨nodes, []⟩ => some nodes
  | _ => none

/-- These nodes and then those. -/
def append : Nodes → Nodes → Nodes
  | nil, more => more
  | text cs next, more => text cs (next.append more)
  | anchor next, more => anchor (next.append more)
  | element tag attrs inner next, more => element tag attrs inner (next.append more)

@[simp] theorem append_nil (nodes : Nodes) : nodes.append nil = nodes := by
  induction nodes with
  | nil => rfl
  | text cs next ih => rw [append, ih]
  | anchor next ih => rw [append, ih]
  | element tag attrs inner next _ ih => rw [append, ih]

/-- Is the first node a text? -/
def startsWithText : Nodes → Bool
  | text _ _ => true
  | _ => false

end Nodes

namespace Symbol

/-- With an open quote or not, every quote closes and no bracket closes outside quotes. -/
def Closes : Bool → List Symbol → Prop
  | quoted, [] => quoted = false
  | quoted, s :: rest =>
    if s = .char '"' then Closes (!quoted) rest
    else (quoted = false → s ≠ .char '>') ∧ Closes quoted rest

end Symbol

namespace Token

def isText : Token → Bool
  | text _ => true
  | _ => false

/-- A token that can be cut out again. -/
def Legible : Token → Prop
  | text cs => cs ≠ [] ∧ '<' ∉ cs
  | anchor => True
  | opening tag attrs => IsName tag ∧ attrs.head?.all (!·.isName) ∧ Symbol.Closes false attrs
  | closing tag => IsName tag

/-- One of two neighbours is no text. -/
def Apart (a b : Token) : Prop :=
  a.isText = true → b.isText = false

end Token

/-! ## Cutting into tokens -/

namespace IsName

/-- The first character of a name may also stand further on in it. -/
theorem isNameMore_of_isNameStart {c : Char} (h : Reader.isNameStart c = true) :
    Reader.isNameMore c = true := by
  unfold Reader.isNameStart at h
  unfold Reader.isNameMore Char.isAlphanum
  rcases Bool.or_eq_true_iff.mp h with h | h
  · simp [h]
  · simp [h]

theorem isNameMore {name : String} (h : IsName name) :
    ∀ c ∈ name.toList, Reader.isNameMore c = true := by
  obtain ⟨c, cs, hname, hc, hcs⟩ := h
  intro d hd
  rw [hname] at hd
  rcases List.mem_cons.mp hd with rfl | hd
  · exact isNameMore_of_isNameStart hc
  · exact hcs d hd

end IsName

namespace Symbol

@[simp] theorem filterMap_char?_ofChars (cs : List Char) : (ofChars cs).filterMap char? = cs := by
  induction cs with
  | nil => rfl
  | cons c cs ih =>
    show c :: (ofChars cs).filterMap char? = c :: cs
    rw [ih]

/-- Text with neither a quote nor a closing bracket leaves things as they are. -/
theorem closes_append {quoted : Bool} {cs : List Char} {rest : List Symbol}
    (hcs : ∀ c ∈ cs, c ≠ '"' ∧ (quoted = false → c ≠ '>')) (h : Closes quoted rest) :
    Closes quoted (ofChars cs ++ rest) := by
  induction cs with
  | nil => exact h
  | cons c cs ih =>
    obtain ⟨hq, hb⟩ := hcs c (List.mem_cons_self ..)
    have hrest := ih fun d hd => hcs d (List.mem_cons_of_mem _ hd)
    show Closes quoted (.char c :: (ofChars cs ++ rest))
    rw [Closes, if_neg (by simpa using hq)]
    exact ⟨fun h => by simpa using hb h, hrest⟩

/-- What stands in names neither opens a quote nor closes a bracket. -/
theorem plain_of_isNameMore {quoted : Bool} {c : Char} (h : Reader.isNameMore c = true) :
    c ≠ '"' ∧ (quoted = false → c ≠ '>') := by
  constructor
  · rintro rfl
    exact absurd h (by decide)
  · rintro _ rfl
    exact absurd h (by decide)

end Symbol

theorem IsName.closes {name : String} {rest : List Symbol} (h : IsName name)
    (hrest : Symbol.Closes false rest) :
    Symbol.Closes false (Symbol.ofChars name.toList ++ rest) :=
  Symbol.closes_append (fun c hc => Symbol.plain_of_isNameMore (h.isNameMore c hc)) hrest

namespace Token

theorem scan_body {quoted : Bool} {done body : List Symbol} (rest : List Symbol)
    (h : Symbol.Closes quoted body) :
    scan (some ⟨quoted, done⟩) (body ++ .char '>' :: rest) =
      (scan none rest).map (ofBody (done.reverse ++ body) :: ·) := by
  induction body generalizing quoted done with
  | nil =>
    have hq : quoted = false := h
    rw [List.nil_append, scan, if_pos ⟨rfl, hq⟩, List.append_nil]
  | cons s body ih =>
    rw [Symbol.Closes] at h
    have hdone : (s :: done).reverse ++ body = done.reverse ++ s :: body := by simp
    rw [List.cons_append, scan]
    by_cases hs : s = .char '"'
    · rw [if_pos hs] at h
      rw [if_neg (by simp [hs]), if_pos hs, ih h, hdone]
    · rw [if_neg hs] at h
      rw [if_neg (fun hc => h.1 hc.2 hc.1), if_neg hs, ih h.2, hdone]

theorem ofBody_opening {tag : String} {attrs : List Symbol} (htag : IsName tag)
    (hattrs : attrs.head?.all (!·.isName)) :
    ofBody (opening tag attrs).body = opening tag attrs := by
  have hall : ∀ s ∈ Symbol.ofChars tag.toList, s.isName = true := by
    intro s hs
    obtain ⟨c, hc, rfl⟩ := List.mem_map.mp hs
    exact htag.isNameMore c hc
  have htake : attrs.takeWhile Symbol.isName = [] := by
    cases attrs with
    | nil => rfl
    | cons s rest => rw [List.takeWhile_cons_of_neg]; simpa using hattrs
  have hdrop : attrs.dropWhile Symbol.isName = attrs := by
    cases attrs with
    | nil => rfl
    | cons s rest => rw [List.dropWhile_cons_of_neg]; simpa using hattrs
  have hname : ofBody (opening tag attrs).body =
      opening (String.ofList (((opening tag attrs).body.takeWhile Symbol.isName).filterMap
        Symbol.char?)) ((opening tag attrs).body.dropWhile Symbol.isName) := by
    -- a name starts with neither of the two characters that make another token
    obtain ⟨c, cs, hcs, hc, _⟩ := htag
    have hbody : (opening tag attrs).body = .char c :: (Symbol.ofChars cs ++ attrs) := by
      simp [body, hcs, Symbol.ofChars]
    rw [hbody]
    unfold ofBody
    split
    · rename_i h
      simp only [List.cons.injEq, Symbol.char.injEq] at h
      rw [h.1] at hc
      exact absurd hc (by decide)
    · rename_i h
      simp only [List.cons.injEq, Symbol.char.injEq] at h
      rw [h.1] at hc
      exact absurd hc (by decide)
    · rfl
  rw [hname, body, List.takeWhile_append_of_pos hall, List.dropWhile_append_of_pos hall, htake,
    hdrop]
  simp

/-- A token in brackets is cut out whole. -/
theorem scan_bracketed {token : Token} (rest : List Symbol) (ht : token.isText = false)
    (h : token.Legible) :
    scan none (token.symbols ++ rest) = (scan none rest).map (token :: ·) := by
  have hbody : Symbol.Closes false token.body ∧ ofBody token.body = token := by
    cases token with
    | text cs => cases ht
    | anchor => exact ⟨by simp [body, Symbol.Closes], rfl⟩
    | opening tag attrs => exact ⟨h.1.closes h.2.2, ofBody_opening h.1 h.2.1⟩
    | closing tag =>
      refine ⟨?_, by simp [body, ofBody]⟩
      have hname := @IsName.closes tag [] h rfl
      rw [List.append_nil] at hname
      simpa [body, Symbol.Closes] using hname
  have hsymbols : token.symbols ++ rest = .char '<' :: (token.body ++ .char '>' :: rest) := by
    cases token with
    | text cs => cases ht
    | anchor => rfl
    | opening tag attrs => simp [symbols]
    | closing tag => simp [symbols]
  rw [hsymbols, scan, scan_body rest hbody.1, List.reverse_nil, List.nil_append, hbody.2]

theorem scan_text {cs : List Char} {rest : List Symbol} {tokens : List Token} (hcs : cs ≠ [])
    (hlt : '<' ∉ cs) (hrest : scan none rest = some tokens)
    (hstart : ∀ t ∈ tokens.head?, t.isText = false) :
    scan none (Symbol.ofChars cs ++ rest) = some (text cs :: tokens) := by
  induction cs with
  | nil => exact absurd rfl hcs
  | cons c cs ih =>
    have hc : c ≠ '<' := fun h => hlt (h ▸ List.mem_cons_self ..)
    have hscan : scan none (Symbol.ofChars (c :: cs) ++ rest) =
        (scan none (Symbol.ofChars cs ++ rest)).map (consChar c) := by
      show scan none (.char c :: (Symbol.ofChars cs ++ rest)) = _
      rw [scan]
      exact hc
    rw [hscan]
    by_cases hnil : cs = []
    · subst hnil
      show (scan none rest).map (consChar c) = _
      rw [hrest]
      cases tokens with
      | nil => rfl
      | cons t tokens =>
        have := hstart t rfl
        cases t with
        | text _ => cases this
        | anchor => rfl
        | opening _ _ => rfl
        | closing _ => rfl
    · rw [ih hnil (fun h => hlt (List.mem_cons_of_mem _ h))]
      rfl

/-- **Tokens that are written out are cut out again**, if no two texts are neighbours. -/
theorem scan_symbols {tokens : List Token} (h : ∀ t ∈ tokens, t.Legible)
    (hapart : tokens.IsChain Apart) :
    scan none (tokens.flatMap symbols) = some tokens := by
  induction tokens with
  | nil => rfl
  | cons token tokens ih =>
    have hrest := ih (fun t ht => h t (List.mem_cons_of_mem _ ht)) hapart.tail
    have htoken := h token (List.mem_cons_self ..)
    rw [List.flatMap_cons]
    by_cases ht : token.isText = true
    · cases token with
      | text cs =>
        refine scan_text htoken.1 htoken.2 hrest fun t ht' => ?_
        exact List.IsChain.rel_head? hapart ht' rfl
      | anchor => cases ht
      | opening _ _ => cases ht
      | closing _ => cases ht
    · rw [scan_bracketed _ (by simpa using ht) htoken, hrest]
      rfl

end Token

/-! ## Putting tokens together -/

namespace Nodes

/-- Nodes that can be told apart again once they are written out. -/
def Legible : Nodes → Prop
  | nil => True
  | text cs next => (Token.text cs).Legible ∧ next.startsWithText = false ∧ next.Legible
  | anchor next => next.Legible
  | element tag attrs inner next =>
    (Token.opening tag attrs).Legible ∧ (voidTags.contains tag = true → inner = nil)
      ∧ inner.Legible ∧ next.Legible

theorem isText_head?_tokens {nodes : Nodes} {t : Token} (h : t ∈ nodes.tokens.head?) :
    t.isText = nodes.startsWithText := by
  cases nodes with
  | nil => cases h
  | text cs next => cases h; rfl
  | anchor next => cases h; rfl
  | element tag attrs inner next => cases h; rfl

theorem Legible.tokens {nodes : Nodes} (h : nodes.Legible) :
    (∀ t ∈ nodes.tokens, t.Legible) ∧ nodes.tokens.IsChain Token.Apart := by
  induction nodes with
  | nil => exact ⟨fun t ht => absurd ht List.not_mem_nil, List.IsChain.nil⟩
  | text cs next ih =>
    obtain ⟨hcs, hstart, hnext⟩ := h
    refine ⟨?_, (ih hnext).2.cons fun t ht _ => ?_⟩
    · intro t ht
      rcases List.mem_cons.mp ht with rfl | ht
      · exact hcs
      · exact (ih hnext).1 t ht
    · rw [isText_head?_tokens ht, hstart]
  | anchor next ih =>
    refine ⟨?_, (ih h).2.cons fun t _ ht => by cases ht⟩
    intro t ht
    rcases List.mem_cons.mp ht with rfl | ht
    · trivial
    · exact (ih h).1 t ht
  | element tag attrs inner next ihInner ihNext =>
    obtain ⟨htag, hvoid, hinner, hnext⟩ := h
    obtain ⟨hi, hic⟩ := ihInner hinner
    obtain ⟨hn, hnc⟩ := ihNext hnext
    rw [Nodes.tokens, List.append_assoc]
    by_cases hv : voidTags.contains tag = true
    · rw [if_pos hv, hvoid hv]
      refine ⟨?_, hnc.cons fun t _ ht => by cases ht⟩
      intro t ht
      rcases List.mem_cons.mp ht with rfl | ht
      · exact htag
      · exact hn t ht
    · rw [if_neg hv]
      refine ⟨?_, (hic.append (hnc.cons fun t _ ht => by cases ht) ?_).cons
        fun t _ ht => by cases ht⟩
      · intro t ht
        rcases List.mem_cons.mp ht with rfl | ht
        · exact htag
        · rcases List.mem_append.mp ht with ht | ht
          · exact hi t ht
          · rcases List.mem_cons.mp ht with rfl | ht
            · exact htag.1
            · exact hn t ht
      · -- whatever the content ends with, a closing tag is no text
        intro t _ u hu _
        cases hu
        rfl

theorem build_tokens_append {nodes : Nodes} (h : nodes.Legible) (more : List Token) :
    build (nodes.tokens ++ more) =
      (build more).map fun levels => ⟨nodes.append levels.here, levels.around⟩ := by
  induction nodes generalizing more with
  | nil => simp [tokens, append]
  | text cs next ih =>
    rw [tokens, List.cons_append, build, ih h.2.2]
    cases build more <;> rfl
  | anchor next ih =>
    rw [tokens, List.cons_append, build, ih h]
    cases build more <;> rfl
  | element tag attrs inner next ihInner ihNext =>
    obtain ⟨_, hvoid, hinner, hnext⟩ := h
    rw [tokens, List.cons_append, build]
    by_cases hv : voidTags.contains tag = true
    · rw [if_pos hv, hvoid hv]
      simp only [tokens, List.nil_append]
      rw [ihNext hnext]
      cases build more with
      | none => rfl
      | some levels => simp only [Option.map_some, Option.bind_some, Levels.cons, if_pos hv, append]
    · rw [if_neg hv, List.append_assoc, List.append_assoc, ihInner hinner, List.singleton_append,
        build, ihNext hnext]
      cases build more with
      | none => rfl
      | some levels =>
        simp only [Option.map_some, Option.bind_some, Levels.cons, if_neg hv, if_true, append,
          append_nil]

/-- **Nodes that are written out are read back as they were.** -/
theorem read_symbols {nodes : Nodes} (h : nodes.Legible) : read nodes.symbols = some nodes := by
  obtain ⟨hlegible, hapart⟩ := h.tokens
  have hbuild := build_tokens_append h []
  rw [List.append_nil] at hbuild
  unfold read symbols
  rw [Token.scan_symbols hlegible hapart, Option.bind_some, hbuild]
  simp [build]

end Nodes
end Stencil
