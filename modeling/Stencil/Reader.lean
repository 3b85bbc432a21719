import Stencil.Text.Size
import Stencil.Text.Escape
import Stencil.Fault

/-!
# Reading the fragments of a template

A template comes as fragments of text with an expression between each two. A reader
stands somewhere in it and only ever moves forward. It holds what is left: the
unread text of the current fragment and the fragments after it. An expression can
be taken only where a fragment has been read to its end, and taking it opens the
next fragment.

`remaining` counts what is left, with every fragment still to be opened counted as
one more symbol. Each reading step that succeeds makes it smaller, which is what
ends every loop of the grammar; the lemmas saying so stand right after the steps.

Indentation is measured while blank space is skipped: a line break starts again at
zero, a space or tab adds one.
-/

namespace Stencil

/-- A place in a template. -/
structure Reader where
  /-- The number of the current fragment, and of the next expression. -/
  index : Nat := 0
  /-- What is unread of the current fragment. -/
  rest : List Char
  /-- The fragments after it. -/
  later : List (List Char)
  /-- The indentation measured so far. -/
  indent : Nat := 0
  /-- Expressions met where a fixed value goes into the markup, the latest first. -/
  asked : List Nat := []
  deriving DecidableEq, Repr

/-- A fault and where reading stood when it showed. -/
structure Failure where
  fault : Fault
  reader : Reader
  deriving DecidableEq, Repr

namespace Reader

/-- A reader before the first character. -/
def ofFragments : List String → Reader
  | [] => { rest := [], later := [] }
  | f :: fs => { rest := f.toList, later := fs.map String.toList }

/-- How many symbols are left: characters, and fragments not yet opened. -/
def remaining (r : Reader) : Nat :=
  r.rest.length + r.later.foldr (fun f n => f.length + 1 + n) 0

/-- Is the current fragment read to its end? -/
def atEnd (r : Reader) : Bool :=
  r.rest.isEmpty

/-- Is there an expression after the current fragment? -/
def hasExpr (r : Reader) : Bool :=
  !r.later.isEmpty

/-- The next character of the current fragment. -/
def peek? (r : Reader) : Option Char :=
  r.rest.head?

/-- The same reader with `rest` left of its fragment. -/
def withRest (r : Reader) (rest : List Char) : Reader :=
  { r with rest }

/-- Notes an expression whose value may be fixed. -/
def ask (r : Reader) (expr : Nat) : Reader :=
  { r with asked := expr :: r.asked }

@[simp] theorem remaining_ask (r : Reader) (expr : Nat) : (r.ask expr).remaining = r.remaining :=
  rfl

/-- Fewer characters left in the same fragment is less left. -/
theorem remaining_lt_of_length {r s : Reader} (hl : s.later = r.later)
    (h : s.rest.length < r.rest.length) : s.remaining < r.remaining := by
  simp only [remaining, hl]
  omega

theorem remaining_withRest_lt {r : Reader} {c : Char} {cs : List Char} (h : r.rest = c :: cs) :
    (r.withRest cs).remaining < r.remaining :=
  remaining_lt_of_length rfl (by simp [withRest, h])

theorem remaining_le_of_length {r s : Reader} (hl : s.later = r.later)
    (h : s.rest.length ≤ r.rest.length) : s.remaining ≤ r.remaining := by
  simp only [remaining, hl]
  omega

/-! ## Expressions -/

/-- Takes the expression after the current fragment, which has to be read to its end. -/
def takeExpr? (r : Reader) : Option (Nat × Reader) :=
  match r.rest, r.later with
  | [], f :: fs => some (r.index, { r with index := r.index + 1, rest := f, later := fs })
  | _, _ => none

theorem remaining_of_takeExpr? {r s : Reader} {i : Nat} (h : r.takeExpr? = some (i, s)) :
    s.remaining < r.remaining := by
  unfold takeExpr? at h
  split at h
  · rename_i hr hl
    simp only [Option.some.injEq, Prod.mk.injEq] at h
    simp only [← h.2, remaining, hr, hl, List.length_nil, List.foldr_cons]
    omega
  · simp at h

/-! ## Names -/

/-- The longest run of characters with one of class `first` and then any of class `more`. -/
def lexeme? (first more : Char → Bool) (r : Reader) : Option (String × Reader) :=
  match r.rest with
  | c :: cs =>
    if first c then
      some (String.ofList (c :: cs.takeWhile more), r.withRest (cs.dropWhile more))
    else none
  | [] => none

theorem remaining_of_lexeme? {first more : Char → Bool} {r s : Reader} {name : String}
    (h : r.lexeme? first more = some (name, s)) : s.remaining < r.remaining := by
  unfold lexeme? at h
  split at h
  · rename_i c cs hr
    split at h
    · simp only [Option.some.injEq, Prod.mk.injEq] at h
      refine remaining_lt_of_length (by simp [← h.2, withRest]) ?_
      have := (List.dropWhile_sublist (l := cs) more).length_le
      simp only [← h.2, withRest, hr, List.length_cons]
      omega
    · simp at h
  · simp at h

/-- May the character begin a tag, a class, an attribute, a style or an event? -/
def isNameStart (c : Char) : Bool :=
  c.isAlpha || c == '_'

def isNameMore (c : Char) : Bool :=
  c.isAlphanum || c == '_' || c == '-'

/-- May the character begin a property? -/
def isPropertyStart (c : Char) : Bool :=
  c.isAlpha || c == '_' || c == '$'

def isPropertyMore (c : Char) : Bool :=
  c.isAlphanum || c == '_'

/-- The name of a tag, a class, an attribute, a style or an event. -/
def name? (r : Reader) : Option (String × Reader) :=
  r.lexeme? isNameStart isNameMore

/-- The name of a property. -/
def propertyName? (r : Reader) : Option (String × Reader) :=
  r.lexeme? isPropertyStart isPropertyMore

/-- An equals sign. -/
def equals? (r : Reader) : Option Reader :=
  match r.rest with
  | '=' :: cs => some (r.withRest cs)
  | _ => none

theorem remaining_of_equals? {r s : Reader} (h : r.equals? = some s) :
    s.remaining < r.remaining := by
  unfold equals? at h
  split at h
  · rename_i cs hr
    simp only [Option.some.injEq] at h
    exact h ▸ remaining_withRest_lt hr
  · simp at h

/-! ## Blank space -/

/-- Is the character a space, a tab or a line break? -/
def isBlank (c : Char) : Bool :=
  c == ' ' || c == '\t' || c == '\n' || c == '\r'

/-- Skips blank space, measuring the indentation on from `indent`. -/
def measure (indent : Nat) : List Char → Nat × List Char
  | [] => (indent, [])
  | c :: cs =>
    if c = ' ' ∨ c = '\t' then measure (indent + 1) cs
    else if c = '\n' ∨ c = '\r' then measure 0 cs
    else (indent, c :: cs)

theorem length_measure_le (indent : Nat) (cs : List Char) :
    (measure indent cs).2.length ≤ cs.length := by
  induction cs generalizing indent with
  | nil => simp [measure]
  | cons c cs ih =>
    unfold measure
    split
    · exact Nat.le_succ_of_le (ih _)
    · split
      · exact Nat.le_succ_of_le (ih _)
      · simp

/-- Skips blank space. -/
def skipBlank (r : Reader) : Reader :=
  { r with indent := (measure r.indent r.rest).1, rest := (measure r.indent r.rest).2 }

/-- Is there blank space to skip? -/
def startsBlank (r : Reader) : Bool :=
  r.rest.head?.any isBlank

theorem remaining_skipBlank_le (r : Reader) : r.skipBlank.remaining ≤ r.remaining :=
  remaining_le_of_length rfl (length_measure_le _ _)

/-- Leaves out the characters that begin within the next `n` bytes. -/
def skipBytes (r : Reader) (n : Nat) : Reader :=
  r.withRest (Text.dropBytes n r.rest)

/-! ## String literals

A literal stands in quotes, with any number of `#` before the opening quote. The
first quote that as many `#` follow closes it, so a text with quotes in it can be
written by choosing enough `#`. There are no escapes.
-/

/-- How a literal whose opening quote has been read goes on. -/
inductive Literal where
  /-- It closes, with this content and this text after it. -/
  | closed (content rest : List Char)
  /-- It has a quote with less text after it than its delimiter is long. -/
  | cut
  /-- It does not close in its fragment. -/
  | unclosed
  deriving DecidableEq, Repr

/--
Looks for the quote that `hashes` many `#` follow. `done` holds the content so far,
last character first. The delimiter's length is held against the bytes that are left.
-/
def closeLiteral (hashes : Nat) (done : List Char) : List Char → Literal
  | [] => .unclosed
  | c :: cs =>
    if c = '\'' then
      if Text.bytes (cs.take hashes) < hashes then .cut
      else if cs.take hashes = List.replicate hashes '#' then
        .closed done.reverse (cs.drop hashes)
      else closeLiteral hashes (c :: done) cs
    else closeLiteral hashes (c :: done) cs

/-- Reads on from the `#` or quote that a literal starts with, if one starts here. -/
def literal? (cs : List Char) : Option Literal :=
  match cs.dropWhile (· == '#') with
  | '\'' :: body => some (closeLiteral (cs.takeWhile (· == '#')).length [] body)
  | _ => none

/--
The content of the literal at this place. Where none starts, or none closes, the
content is empty and the reader stays.
-/
def literal (r : Reader) : Except Failure (String × Reader) :=
  match literal? r.rest with
  | some (.closed content rest) => .ok (String.ofList content, r.withRest rest)
  | some .cut => .error ⟨.stringLiteral, r⟩
  | some .unclosed => .ok ("", r)
  | none => .ok ("", r)

/-- The content of the literal at this place, written for its setting in the markup. -/
def escapedLiteral (setting : Text.Setting) (r : Reader) : Except Failure (String × Reader) :=
  match r.literal with
  | .ok (text, s) => .ok (Text.escape setting text, s)
  | .error failure => .error failure

theorem length_of_closeLiteral {hashes : Nat} {done cs content rest : List Char}
    (h : closeLiteral hashes done cs = .closed content rest) : rest.length < cs.length := by
  fun_induction closeLiteral hashes done cs with
  | case1 => simp at h
  | case2 => simp at h
  | case3 done cs hb he =>
    simp only [Literal.closed.injEq] at h
    simp only [← h.2, List.length_drop, List.length_cons]
    omega
  | case4 done cs hb he ih => exact Nat.lt_succ_of_lt (ih h)
  | case5 done c cs hc ih => exact Nat.lt_succ_of_lt (ih h)

theorem length_of_literal? {cs content rest : List Char}
    (h : literal? cs = some (.closed content rest)) : rest.length < cs.length := by
  unfold literal? at h
  split at h
  · rename_i body hb
    simp only [Option.some.injEq] at h
    have hc := length_of_closeLiteral h
    have hd := (List.dropWhile_sublist (l := cs) (· == '#')).length_le
    simp only [hb, List.length_cons] at hd
    omega
  · simp at h

/-- Reading a literal does not move back. -/
theorem remaining_of_literal {r s : Reader} {text : String} (h : r.literal = .ok (text, s)) :
    s.remaining ≤ r.remaining := by
  unfold literal at h
  split at h <;> try simp at h
  · rename_i content rest hc
    refine remaining_le_of_length (by simp [← h.2, withRest]) ?_
    have := length_of_literal? hc
    simp only [← h.2, withRest]
    omega
  all_goals simp [h.2]

/-- Reading a literal with something in it moves forward. -/
theorem remaining_lt_of_literal {r s : Reader} {text : String} (h : r.literal = .ok (text, s))
    (ht : text ≠ "") : s.remaining < r.remaining := by
  unfold literal at h
  split at h <;> try simp at h
  · rename_i content rest hc
    exact remaining_lt_of_length (by simp [← h.2, withRest])
      (by simpa [← h.2, withRest] using length_of_literal? hc)
  all_goals simp_all

end Reader
end Stencil
