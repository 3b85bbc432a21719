import Stencil.Reader
import Stencil.Element.Basic

/-!
# The grammar of elements

An element is a tag, a class part, bindings, and content. What belongs to it is
decided by indentation alone: everything indented deeper than the element does.
A tag lifts the indentation to `inlineIndent`, so that what follows on its line counts as
deeper; on a line that is lifted already, each blank counts one more.

A binding or an item of content is tried only while the reader stands deeper than
the element. The first character that begins no binding ends the bindings and begins
the content. Where a literal would have to start, anything that reads as an empty
literal is followed by an element.

Nested elements are shown to `fits` as soon as they are complete, and one that does
not fit ends the reading there. That keeps the order of faults: an element that is
too large is reported before any fault in what comes after it.
-/

namespace Stencil

/-- The indentation of what follows on the line of a tag. -/
def inlineIndent : Nat := 65536

namespace Reader

/-- Lifts the indentation after a tag that stood at `base`. -/
def liftIndent (r : Reader) (base : Nat) : Reader :=
  if base < inlineIndent then { r with indent := inlineIndent } else r

@[simp] theorem remaining_liftIndent (r : Reader) (base : Nat) :
    (r.liftIndent base).remaining = r.remaining := by
  unfold liftIndent
  split <;> rfl

/-! ## The class part -/

/-- Class names, each after a point. -/
def classNames (r : Reader) : Except Failure (List String × Reader) :=
  match hr : r.rest with
  | '.' :: cs =>
    match hn : (r.withRest cs).name? with
    | none => .error ⟨.className, r.withRest cs⟩
    | some (name, s) =>
      have : s.remaining < r.remaining :=
        Nat.lt_trans (remaining_of_lexeme? hn) (remaining_withRest_lt hr)
      match s.classNames with
      | .error failure => .error failure
      | .ok (names, t) => .ok (name :: names, t)
  | _ => .ok ([], r)
termination_by r.remaining

/-- An expression right after the tag, or class names. -/
def classPart (r : Reader) : Except Failure (ClassPart × Reader) :=
  match r.takeExpr? with
  | some (i, s) => .ok (.expr i, s.ask i)
  | none =>
    match r.classNames with
    | .error failure => .error failure
    | .ok (names, s) => .ok (.names names, s)

theorem remaining_of_classNames {r s : Reader} {names : List String}
    (h : r.classNames = .ok (names, s)) : s.remaining ≤ r.remaining := by
  fun_induction classNames r generalizing names s with
  | case1 => simp at h
  | case2 => simp at h
  | case3 r cs hr name s₁ hn hlt names' t ht ih =>
    simp only [Except.ok.injEq, Prod.mk.injEq] at h
    have := ih ht
    rw [← h.2]
    omega
  | case4 =>
    simp only [Except.ok.injEq, Prod.mk.injEq] at h
    simp [h.2]

theorem remaining_of_classPart {r s : Reader} {cls : ClassPart} (h : r.classPart = .ok (cls, s)) :
    s.remaining ≤ r.remaining := by
  unfold classPart at h
  split at h
  · rename_i ht
    simp only [Except.ok.injEq, Prod.mk.injEq] at h
    rw [← h.2, remaining_ask]
    exact Nat.le_of_lt (remaining_of_takeExpr? ht)
  · split at h
    · simp at h
    · rename_i hn
      simp only [Except.ok.injEq, Prod.mk.injEq] at h
      rw [← h.2]
      exact remaining_of_classNames hn

/-! ## Bindings -/

/-- An attribute after its colon: a name, and a value if there is an equals sign. -/
def attrBinding (r : Reader) : Except Failure (Binding × Reader) :=
  match r.name? with
  | none => .error ⟨.attributeName, r⟩
  | some (name, s) =>
    match s.equals? with
    | none => .ok (.flag name, s)
    | some t =>
      match t.literal with
      | .error failure => .error failure
      | .ok (text, u) =>
        if text ≠ "" then .ok (.value name text, u)
        else
          match u.takeExpr? with
          | none => .error ⟨.attributeValue, u⟩
          | some (i, v) => .ok (.named .attr name i, v.ask i)

/-- A binding after its mark: a name, an equals sign and an expression. -/
def namedBinding (kind : NamedProp) (name? : Reader → Option (String × Reader)) (fault : Fault)
    (r : Reader) : Except Failure (Binding × Reader) :=
  match name? r with
  | none => .error ⟨fault, r⟩
  | some (name, s) =>
    match s.equals? with
    | none => .error ⟨.equals, s⟩
    | some t =>
      match t.takeExpr? with
      | none => .error ⟨.bindingValue, t⟩
      | some (i, u) => .ok (.named kind name i, u)

/-- A directive after its mark: an expression. -/
def directiveBinding (r : Reader) : Except Failure (Binding × Reader) :=
  match r.takeExpr? with
  | none => .error ⟨.directiveValue, r⟩
  | some (i, s) => .ok (.directive i, s)

/-- The binding that starts at this place, if its first character is a mark. -/
def binding? (r : Reader) : Option (Except Failure (Binding × Reader)) :=
  match r.rest with
  | ':' :: cs => some (r.withRest cs).attrBinding
  | '.' :: cs => some ((r.withRest cs).namedBinding .property propertyName? .propertyName)
  | '*' :: cs => some ((r.withRest cs).namedBinding .diffProperty propertyName? .propertyName)
  | '~' :: cs => some ((r.withRest cs).namedBinding .style name? .propertyName)
  | '@' :: cs => some ((r.withRest cs).namedBinding .event name? .eventName)
  | '$' :: cs => some (r.withRest cs).directiveBinding
  | _ => none

theorem remaining_of_attrBinding {r s : Reader} {b : Binding} (h : r.attrBinding = .ok (b, s)) :
    s.remaining < r.remaining := by
  unfold attrBinding at h
  split at h
  · simp at h
  · rename_i hn
    have hn := remaining_of_lexeme? hn
    split at h
    · simp only [Except.ok.injEq, Prod.mk.injEq] at h
      rwa [← h.2]
    · rename_i he
      have he := remaining_of_equals? he
      split at h
      · simp at h
      · rename_i hl
        have hl := remaining_of_literal hl
        split at h
        · simp only [Except.ok.injEq, Prod.mk.injEq] at h
          rw [← h.2]
          omega
        · split at h
          · simp at h
          · rename_i ht
            have ht := remaining_of_takeExpr? ht
            simp only [Except.ok.injEq, Prod.mk.injEq] at h
            rw [← h.2, remaining_ask]
            omega

theorem remaining_of_namedBinding {kind : NamedProp} {fault : Fault}
    {name? : Reader → Option (String × Reader)}
    (hname : ∀ {r s : Reader} {name : String}, name? r = some (name, s) → s.remaining < r.remaining)
    {r s : Reader} {b : Binding} (h : r.namedBinding kind name? fault = .ok (b, s)) :
    s.remaining < r.remaining := by
  unfold namedBinding at h
  split at h
  · simp at h
  · rename_i hn
    have hn := hname hn
    split at h
    · simp at h
    · rename_i he
      have he := remaining_of_equals? he
      split at h
      · simp at h
      · rename_i ht
        have ht := remaining_of_takeExpr? ht
        simp only [Except.ok.injEq, Prod.mk.injEq] at h
        rw [← h.2]
        omega

theorem remaining_of_directiveBinding {r s : Reader} {b : Binding}
    (h : r.directiveBinding = .ok (b, s)) : s.remaining < r.remaining := by
  unfold directiveBinding at h
  split at h
  · simp at h
  · rename_i ht
    simp only [Except.ok.injEq, Prod.mk.injEq] at h
    rw [← h.2]
    exact remaining_of_takeExpr? ht

/-- Reading a binding moves forward. -/
theorem remaining_of_binding? {r s : Reader} {b : Binding} (h : r.binding? = some (.ok (b, s))) :
    s.remaining < r.remaining := by
  unfold binding? at h
  split at h
  case h_7 => simp at h
  all_goals
    rename_i cs hr
    simp only [Option.some.injEq] at h
    refine Nat.lt_trans ?_ (remaining_withRest_lt hr)
  · exact remaining_of_attrBinding h
  · exact remaining_of_namedBinding remaining_of_lexeme? h
  · exact remaining_of_namedBinding remaining_of_lexeme? h
  · exact remaining_of_namedBinding remaining_of_lexeme? h
  · exact remaining_of_namedBinding remaining_of_lexeme? h
  · exact remaining_of_directiveBinding h

/-- The bindings of an element at `base`, with blank space after each. -/
def bindings (base : Nat) (r : Reader) : Except Failure (List Binding × Reader) :=
  if r.indent ≤ base then .ok ([], r)
  else
    match hb : r.binding? with
    | none => .ok ([], r)
    | some (.error failure) => .error failure
    | some (.ok (b, s)) =>
      have : s.skipBlank.remaining < r.remaining :=
        Nat.lt_of_le_of_lt (remaining_skipBlank_le s) (remaining_of_binding? hb)
      match s.skipBlank.bindings base with
      | .error failure => .error failure
      | .ok (bs, t) => .ok (b :: bs, t)
termination_by r.remaining

theorem remaining_of_bindings {base : Nat} {r s : Reader} {bs : List Binding}
    (h : r.bindings base = .ok (bs, s)) : s.remaining ≤ r.remaining := by
  fun_induction bindings base r generalizing bs s with
  | case1 => simp_all
  | case2 => simp_all
  | case3 => simp at h
  | case4 => simp at h
  | case5 r hi b t hb hlt bs' u hu ih =>
    simp only [Except.ok.injEq, Prod.mk.injEq] at h
    have := ih hu
    rw [← h.2]
    omega

/-! ## Elements -/

/-- The tag, the class part and the bindings of an element. -/
def head (r : Reader) : Except Failure (Head × Reader) :=
  match r.name? with
  | none => .error ⟨.tagName, r⟩
  | some (tag, s) =>
    match (s.liftIndent r.indent).classPart with
    | .error failure => .error failure
    | .ok (cls, t) =>
      match t.skipBlank.bindings r.indent with
      | .error failure => .error failure
      | .ok (bindings, u) => .ok ({ tag, cls, bindings }, u)

/-- Reading a head moves forward. -/
theorem remaining_of_head {r s : Reader} {head : Head} (h : r.head = .ok (head, s)) :
    s.remaining < r.remaining := by
  unfold Reader.head at h
  split at h
  · simp at h
  · rename_i hn
    have hn := remaining_of_lexeme? hn
    split at h
    · simp at h
    · rename_i t hc
      have hc := remaining_of_classPart hc
      have ht := remaining_skipBlank_le t
      split at h
      · simp at h
      · rename_i hb
        have hb := remaining_of_bindings hb
        simp only [Except.ok.injEq, Prod.mk.injEq] at h
        rw [remaining_liftIndent] at hc
        rw [← h.2]
        omega

/-- Something that was read, with fewer than `limit` symbols left after it. -/
structure Read (α : Type) (limit : Nat) where
  value : α
  next : Reader
  bound : next.remaining < limit

mutual

/-- An element, with the proof that reading it moved forward. -/
def elementBounded (fits : Element → Bool) (r : Reader) :
    Except Failure (Read Element r.remaining) :=
  match hh : r.head with
  | .error failure => .error failure
  | .ok (head, s) =>
    have hs := remaining_of_head hh
    if head.isVoid then .ok ⟨⟨head, .nil⟩, s, hs⟩
    else
      match s.contentBounded fits r.indent with
      | .error failure => .error failure
      | .ok body => .ok ⟨⟨head, body.value⟩, body.next, Nat.lt_of_lt_of_le body.bound hs⟩
termination_by 2 * r.remaining

/-- Content, with the proof that reading it did not move back. -/
def contentBounded (fits : Element → Bool) (base : Nat) (r : Reader) :
    Except Failure (Read Content (r.remaining + 1)) :=
  if r.indent ≤ base then .ok ⟨.nil, r, Nat.lt_succ_self _⟩
  else if r.atEnd then
    match he : r.takeExpr? with
    | none => .ok ⟨.nil, r, Nat.lt_succ_self _⟩
    | some (i, s) =>
      have hs : s.skipBlank.remaining < r.remaining :=
        Nat.lt_of_le_of_lt (remaining_skipBlank_le s) (remaining_of_takeExpr? he)
      match s.skipBlank.contentBounded fits base with
      | .error failure => .error failure
      | .ok more => .ok ⟨.expr i more.value, more.next, Nat.lt_of_lt_of_le more.bound (by omega)⟩
  else
    match hl : r.literal with
    | .error failure => .error failure
    | .ok (text, s) =>
      if ht : text ≠ "" then
        have hs : s.skipBlank.remaining < r.remaining :=
          Nat.lt_of_le_of_lt (remaining_skipBlank_le s) (remaining_lt_of_literal hl ht)
        match s.skipBlank.contentBounded fits base with
        | .error failure => .error failure
        | .ok more =>
          .ok ⟨.text text more.value, more.next, Nat.lt_of_lt_of_le more.bound (by omega)⟩
      else
        have hs := remaining_of_literal hl
        match s.elementBounded fits with
        | .error failure => .error failure
        | .ok child =>
          if fits child.value then
            have hc : child.next.skipBlank.remaining < r.remaining :=
              Nat.lt_of_le_of_lt (remaining_skipBlank_le _) (Nat.lt_of_lt_of_le child.bound hs)
            match child.next.skipBlank.contentBounded fits base with
            | .error failure => .error failure
            | .ok more =>
              .ok ⟨.element child.value.head child.value.content more.value, more.next,
                Nat.lt_of_lt_of_le more.bound (by omega)⟩
          else .error ⟨.templateSize, child.next⟩
termination_by 2 * r.remaining + 1

end

/-- An element with everything that is indented deeper. -/
def element (fits : Element → Bool) (r : Reader) : Except Failure (Element × Reader) :=
  (r.elementBounded fits).map fun e => (e.value, e.next)

/-- The content of an element at `base`, with blank space after each item. -/
def content (fits : Element → Bool) (base : Nat) (r : Reader) :
    Except Failure (Content × Reader) :=
  (r.contentBounded fits base).map fun c => (c.value, c.next)

/-- Reading an element moves forward. -/
theorem remaining_of_element {fits : Element → Bool} {r s : Reader} {e : Element}
    (h : r.element fits = .ok (e, s)) : s.remaining < r.remaining := by
  unfold element at h
  cases hb : r.elementBounded fits with
  | error failure => simp [hb, Except.map] at h
  | ok read =>
    simp only [hb, Except.map, Except.ok.injEq, Prod.mk.injEq] at h
    exact h.2 ▸ read.bound

/-- Reading content does not move back. -/
theorem remaining_of_content {fits : Element → Bool} {base : Nat} {r s : Reader} {c : Content}
    (h : r.content fits base = .ok (c, s)) : s.remaining ≤ r.remaining := by
  unfold content at h
  cases hb : r.contentBounded fits base with
  | error failure => simp [hb, Except.map] at h
  | ok read =>
    simp only [hb, Except.map, Except.ok.injEq, Prod.mk.injEq] at h
    exact Nat.le_of_lt_succ (h.2 ▸ read.bound)

/-- An element is a head and, unless it is void, the content deeper than the head. -/
theorem element_eq (fits : Element → Bool) (r : Reader) :
    r.element fits =
      match r.head with
      | .error failure => .error failure
      | .ok (head, s) =>
        if head.isVoid then .ok (⟨head, .nil⟩, s)
        else
          match s.content fits r.indent with
          | .error failure => .error failure
          | .ok (content, t) => .ok (⟨head, content⟩, t) := by
  rw [element, elementBounded]
  split
  · rename_i hh
    simp [hh, Except.map]
  · rename_i head s hh
    simp only [hh]
    split
    · rfl
    · simp only [content]
      cases s.contentBounded fits r.indent <;> rfl

/-- Content is empty, or an item and the content after it. -/
theorem content_eq (fits : Element → Bool) (base : Nat) (r : Reader) :
    r.content fits base =
      if r.indent ≤ base then .ok (.nil, r)
      else if r.atEnd then
        match r.takeExpr? with
        | none => .ok (.nil, r)
        | some (i, s) =>
          match s.skipBlank.content fits base with
          | .error failure => .error failure
          | .ok (more, t) => .ok (.expr i more, t)
      else
        match r.literal with
        | .error failure => .error failure
        | .ok (text, s) =>
          if text ≠ "" then
            match s.skipBlank.content fits base with
            | .error failure => .error failure
            | .ok (more, t) => .ok (.text text more, t)
          else
            match s.element fits with
            | .error failure => .error failure
            | .ok (child, t) =>
              if fits child then
                match t.skipBlank.content fits base with
                | .error failure => .error failure
                | .ok (more, u) => .ok (.element child.head child.content more, u)
              else .error ⟨.templateSize, t⟩ := by
  rw [content, contentBounded]
  split
  · rfl
  · split
    · split
      · rename_i he
        simp [he, Except.map]
      · rename_i i s he
        simp only [he, content]
        cases s.skipBlank.contentBounded fits base <;> rfl
    · split
      · rename_i hl
        simp [hl, Except.map]
      · rename_i text s hl
        simp only [hl]
        by_cases ht : text ≠ ""
        · simp only [dif_pos ht, if_pos ht, content]
          cases s.skipBlank.contentBounded fits base <;> rfl
        · simp only [dif_neg ht, if_neg ht, element]
          cases s.elementBounded fits with
          | error failure => rfl
          | ok child =>
            by_cases hf : fits child.value
            · simp only [hf, if_true, content, Except.map]
              cases child.next.skipBlank.contentBounded fits base <;> rfl
            · simp [hf, Except.map]

/-! ## Templates -/

/--
The options at the start of a template, which say whether cloning is off. A fragment
of a single character has none, and blank space in front of it is not skipped.
-/
def options (r : Reader) : Except Failure (Bool × Reader) :=
  match r.rest with
  | [] => .ok (false, r)
  | [_] => .ok (false, r)
  | '-' :: 'c' :: cs =>
    if (r.withRest cs).startsBlank then .ok (true, (r.withRest cs).skipBlank)
    else .error ⟨.optionBlank, r.withRest cs⟩
  | '-' :: _ => .error ⟨.optionFlag, r⟩
  | _ => .ok (false, r.skipBlank)

end Reader

/-- What a template says. -/
structure Template where
  disableCloning : Bool
  root : Element
  deriving DecidableEq, Repr

namespace Template

/-- Reads a template. What stands after its root element is left unread. -/
def read (fits : Element → Bool) (r : Reader) : Except Failure (Template × Reader) :=
  match r.options with
  | .error failure => .error failure
  | .ok (disableCloning, s) =>
    match s.element fits with
    | .error failure => .error failure
    | .ok (root, t) => .ok ({ disableCloning, root }, t)

end Template
end Stencil
