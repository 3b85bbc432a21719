import Mathlib.Data.Prod.Lex
import Stencil.Proofs.Positions
import Stencil.Proofs.Rules

/-!
# Reading ends and only moves forward

Three loops and a recursion read an element: class names, bindings, and content, which may hold
elements. None of them is told how often it may run. They go on as long as something fits, and the
indentation that keeps the last two going says nothing about how much is left.

What ends them is the place of the reader, a fragment and a byte in it. `Moves` lists all that can
happen to a reader, with or without a fault at the end, and none of it leads to an earlier place.
A turn of a loop is either the last one, or it leads to a later place. So there are no more turns
and no more elements inside each other than symbols are left, and the same loops with a limit
above that number, which give nothing when the limit is reached, give what is read.
-/

namespace Stencil

namespace Text

theorem bytes_le_of_suffix {cs ds : List Char} (h : cs <:+ ds) : bytes cs ≤ bytes ds := by
  obtain ⟨front, rfl⟩ := h
  rw [bytes_append]
  omega

theorem bytes_lt_of_suffix {cs ds : List Char} (h : cs <:+ ds) (hlt : cs.length < ds.length) :
    bytes cs < bytes ds := by
  obtain ⟨front, rfl⟩ := h
  have hfront := Reader.length_le_bytes front
  rw [List.length_append] at hlt
  rw [bytes_append]
  omega

end Text

namespace Reader

/-! ## Places -/

/-- The place of a reader: its fragment, and the byte it stands at. -/
def cursor (r : Reader) (fragments : List String) : Nat ×ₗ Nat :=
  toLex (r.index, r.byte fragments)

/-- A reader stands in a template: in one of its fragments, with the ones after it still to come. -/
structure StandsIn (fragments : List String) (r : Reader) : Prop where
  index_lt : r.index < fragments.length
  rest : r.rest <:+ fragmentText fragments r.index
  later : r.later = (fragments.drop (r.index + 1)).map String.toList

variable {fragments : List String} {r s t : Reader} {exprs asks : List Nat}

theorem standsIn_ofFragments (h : fragments ≠ []) : (ofFragments fragments).StandsIn fragments := by
  cases fragments with
  | nil => exact absurd rfl h
  | cons f fs => exact ⟨Nat.zero_lt_succ _, List.suffix_rfl, rfl⟩

theorem Reads.standsIn (h : Reads r s exprs asks) (hr : r.StandsIn fragments) :
    s.StandsIn fragments := by
  obtain ⟨f, hf, hs⟩ := h.rest
  have hlater : s.later = (fragments.drop (s.index + 1)).map String.toList := by
    rw [h.later, hr.later, ← List.map_drop, List.drop_drop, h.index]
    congr 2
    omega
  -- past the first expression, the fragment is one of those that were still to come
  cases hlength : exprs.length with
  | zero =>
    have hindex : s.index = r.index := by rw [h.index, hlength, Nat.add_zero]
    rw [hlength] at hf
    obtain rfl := Option.some.inj hf
    exact ⟨hindex ▸ hr.index_lt, hindex ▸ hs.trans hr.rest, hlater⟩
  | succ n =>
    have hindex : s.index = r.index + 1 + n := by rw [h.index, hlength]; omega
    rw [hlength, List.getElem?_cons_succ, hr.later, List.map_drop, List.getElem?_drop,
      ← hindex] at hf
    obtain ⟨hlt, _⟩ := List.getElem?_eq_some_iff.mp hf
    rw [List.length_map] at hlt
    exact ⟨hlt, (fragmentText_of_getElem? hf).symm ▸ hs, hlater⟩

/-- What is left of a fragment is no more than the fragment. -/
theorem StandsIn.bytes_rest_le (h : r.StandsIn fragments) :
    Text.bytes r.rest ≤ Text.bytes (fragmentText fragments r.index) :=
  Text.bytes_le_of_suffix h.rest

/-- Reading leads to the same fragment with less of it left, or to a later one. -/
theorem Reads.suffix_or_lt (h : Reads r s exprs asks) :
    s.index = r.index ∧ s.later = r.later ∧ s.rest <:+ r.rest ∨ r.index < s.index := by
  cases hlength : exprs.length with
  | zero =>
    obtain ⟨f, hf, hs⟩ := h.rest
    rw [hlength] at hf
    obtain rfl := Option.some.inj hf
    refine .inl ⟨?_, ?_, hs⟩
    · rw [h.index, hlength, Nat.add_zero]
    · rw [h.later, hlength, List.drop_zero]
  | succ n =>
    refine .inr ?_
    rw [h.index, hlength]
    omega

theorem Reads.cursor_le (h : Reads r s exprs asks) (fragments : List String) :
    r.cursor fragments ≤ s.cursor fragments := by
  refine Prod.Lex.toLex_le_toLex.mpr ?_
  rcases h.suffix_or_lt with ⟨hindex, _, hsuffix⟩ | hlt
  · refine .inr ⟨hindex.symm, ?_⟩
    have hbytes := Text.bytes_le_of_suffix hsuffix
    simp only [byte, hindex]
    omega
  · exact .inl hlt

/-- The reader has moved from `r` to `s`, and less is left there. -/
def Ahead (r s : Reader) : Prop :=
  (∃ exprs asks, Reads r s exprs asks) ∧ s.remaining < r.remaining

theorem Ahead.cursor_lt (h : r.Ahead s) (hr : r.StandsIn fragments) :
    r.cursor fragments < s.cursor fragments := by
  obtain ⟨⟨_, _, hreads⟩, hremaining⟩ := h
  refine Prod.Lex.toLex_lt_toLex.mpr ?_
  rcases hreads.suffix_or_lt with ⟨hindex, hlater, hsuffix⟩ | hlt
  · refine .inr ⟨hindex.symm, ?_⟩
    have hlength : s.rest.length < r.rest.length := by
      simp only [remaining, hlater] at hremaining
      omega
    have hbytes := Text.bytes_lt_of_suffix hsuffix hlength
    have hrest := hr.bytes_rest_le
    simp only [byte, hindex]
    omega
  · exact .inl hlt

theorem Reads.ahead (h : Reads r s exprs asks) (hlt : s.remaining < r.remaining) : r.Ahead s :=
  ⟨⟨exprs, asks, h⟩, hlt⟩

theorem Ahead.skipBlank (h : r.Ahead s) : r.Ahead s.skipBlank := by
  obtain ⟨⟨_, _, hreads⟩, hlt⟩ := h
  exact (hreads.trans (reads_skipBlank s)).ahead
    (Nat.lt_of_le_of_lt (remaining_skipBlank_le s) hlt)

/-! ## Everything that moves a reader -/

/--
All that happens to a reader: the steps it takes itself, and what is read by the rules of the
grammar, where it stands at the end of what was read or at a fault.
-/
inductive Moves (fits : Element → Bool) (r : Reader) : Reader → Prop where
  | mark {c : Char} {cs : List Char} (h : r.rest = c :: cs) : Moves fits r (r.withRest cs)
  | lexeme {first more : Char → Bool} {name : String} {s : Reader}
      (h : r.lexeme? first more = some (name, s)) : Moves fits r s
  | equals {s : Reader} (h : r.equals? = some s) : Moves fits r s
  | blank : Moves fits r r.skipBlank
  | lift (base : Nat) : Moves fits r (r.liftIndent base)
  | expr {i : Nat} {s : Reader} (h : r.takeExpr? = some (i, s)) : Moves fits r s
  | literal : Moves fits r (last r.literal)
  | options : Moves fits r (last r.options)
  | classPart : Moves fits r (last r.classPart)
  | binding {result : Except Failure (Binding × Reader)} (h : r.binding? = some result) :
      Moves fits r (last result)
  | bindings (base : Nat) : Moves fits r (last (r.bindings base))
  | head : Moves fits r (last r.head)
  | content (base : Nat) : Moves fits r (last (r.content fits base))
  | element : Moves fits r (last (r.element fits))

theorem Moves.exists_reads {fits : Element → Bool} (h : Moves fits r s) :
    ∃ exprs asks, Reads r s exprs asks := by
  cases h with
  | mark h => exact ⟨_, _, reads_mark h⟩
  | lexeme h => exact ⟨_, _, reads_of_lexeme? h⟩
  | equals h => exact ⟨_, _, reads_of_equals? h⟩
  | blank => exact ⟨_, _, reads_skipBlank r⟩
  | lift base => exact ⟨_, _, reads_liftIndent r base⟩
  | expr h => exact ⟨_, _, reads_of_takeExpr? h⟩
  | literal => exact (literal_promises r).reads_last
  | options => exact (options_promises r).reads_last
  | classPart => exact (classPart_promises r).reads_last
  | binding h => exact (binding?_promises h).reads_last
  | bindings base => exact (bindings_promises base r).reads_last
  | head => exact (head_promises r).reads_last
  | content base => exact ((element_content_promises fits).2 base r).reads_last
  | element => exact (element_promises fits r).reads_last

end Reader

/-! ## Loops turn by turn -/

/-- An item of content. -/
inductive Content.Item where
  | text (text : String)
  | expr (index : Nat)
  | element (element : Element)
  deriving DecidableEq, Repr

namespace Content

/-- Content from its items. -/
def ofItems : List Item → Content
  | [] => nil
  | .text s :: items => text s (ofItems items)
  | .expr i :: items => expr i (ofItems items)
  | .element e :: items => element e.head e.content (ofItems items)

def items : Content → List Item
  | nil => []
  | text s next => .text s :: next.items
  | expr i next => .expr i :: next.items
  | element head inner next => .element ⟨head, inner⟩ :: next.items

theorem ofItems_items (c : Content) : ofItems c.items = c := by
  induction c with
  | nil => rfl
  | text s next ih => rw [items, ofItems, ih]
  | expr i next ih => rw [items, ofItems, ih]
  | element head inner next _ ih => rw [items, ofItems, ih]

end Content

namespace Reader

variable {α β : Type}

/-- What comes of reading under a limit: nothing if the limit was reached. -/
abbrev Limited (α : Type) : Type := Option (Except Failure α)

/-- Goes on with what was read, unless there was a fault or the limit was reached. -/
def andThen (x : Limited α) (next : α → Limited β) : Limited β :=
  match x with
  | none => none
  | some (.error failure) => some (.error failure)
  | some (.ok a) => next a

/-- One turn of a loop: it is the last one, or an item was read and the loop goes on. -/
inductive Turn (α : Type) where
  | leave
  | item (value : α) (next : Reader)

/-- A class name after a point. -/
def classTurn (r : Reader) : Except Failure (Turn String) :=
  match r.rest with
  | '.' :: cs =>
    match (r.withRest cs).name? with
    | none => .error ⟨.className, r.withRest cs⟩
    | some (name, s) => .ok (.item name s)
  | _ => .ok .leave

/-- A binding of an element at `base`, with the blank space after it. -/
def bindingTurn (base : Nat) (r : Reader) : Except Failure (Turn Binding) :=
  if r.indent ≤ base then .ok .leave
  else
    match r.binding? with
    | none => .ok .leave
    | some (.error failure) => .error failure
    | some (.ok (b, s)) => .ok (.item b s.skipBlank)

/--
An item of the content of an element at `base`, with the blank space after it. Elements inside are
read by `nested`.
-/
def contentTurn (nested : Reader → Limited (Element × Reader)) (fits : Element → Bool) (base : Nat)
    (r : Reader) : Limited (Turn Content.Item) :=
  if r.indent ≤ base then some (.ok .leave)
  else if r.atEnd then
    match r.takeExpr? with
    | none => some (.ok .leave)
    | some (i, s) => some (.ok (.item (.expr i) s.skipBlank))
  else
    match r.literal with
    | .error failure => some (.error failure)
    | .ok (text, s) =>
      if text ≠ "" then some (.ok (.item (.text text) s.skipBlank))
      else
        andThen (nested s) fun child =>
          if fits child.1 then some (.ok (.item (.element child.1) child.2.skipBlank))
          else some (.error ⟨.templateSize, child.2⟩)

/-- Runs a loop for at most so many turns. -/
def loopWithin (turn : Reader → Limited (Turn α)) : Nat → Reader → Limited (List α × Reader)
  | 0, _ => none
  | turns + 1, r =>
    andThen (turn r) fun
      | .leave => some (.ok ([], r))
      | .item x s => andThen (loopWithin turn turns s) fun more => some (.ok (x :: more.1, more.2))

/-- An expression right after the tag, or class names in at most so many turns. -/
def classPartWithin (turns : Nat) (r : Reader) : Limited (ClassPart × Reader) :=
  match r.takeExpr? with
  | some (i, s) => some (.ok (.expr i, s.ask i))
  | none =>
    andThen (loopWithin (fun s => some s.classTurn) turns r) fun found =>
      some (.ok (.names found.1, found.2))

/-- An element, with at most so many turns of each loop and elements inside each other. -/
def elementWithin (fits : Element → Bool) (turns : Nat) : Nat → Reader → Limited (Element × Reader)
  | 0, _ => none
  | depth + 1, r =>
    match r.name? with
    | none => some (.error ⟨.tagName, r⟩)
    | some (tag, s) =>
      andThen ((s.liftIndent r.indent).classPartWithin turns) fun cls =>
        andThen (loopWithin (fun t => some (t.bindingTurn r.indent)) turns cls.2.skipBlank)
          fun bindings =>
            let head : Head := { tag, cls := cls.1, bindings := bindings.1 }
            if head.isVoid then some (.ok (⟨head, .nil⟩, bindings.2))
            else
              andThen (loopWithin (contentTurn (elementWithin fits turns depth) fits r.indent) turns
                bindings.2) fun content =>
                  some (.ok (⟨head, .ofItems content.1⟩, content.2))

/-! ## The loops of the grammar -/

/-- A loop after one of its turns. -/
def follow (loop : Reader → Except Failure (List α × Reader)) (r : Reader) :
    Except Failure (Turn α) → Except Failure (List α × Reader)
  | .error failure => .error failure
  | .ok .leave => .ok ([], r)
  | .ok (.item x s) => (loop s).map fun more => (x :: more.1, more.2)

/-- The loop at `r` is this turn and the loop after it, which is further ahead. -/
structure IsTurn (loop : Reader → Except Failure (List α × Reader)) (r : Reader)
    (turn : Except Failure (Turn α)) : Prop where
  loop_eq : loop r = follow loop r turn
  ahead : ∀ {x s}, turn = .ok (.item x s) → r.Ahead s

theorem andThen_some {x : Except Failure α} {next : α → Limited β} {f : α → Except Failure β}
    (h : ∀ a, x = .ok a → next a = some (f a)) : andThen (some x) next = some (x.bind f) := by
  cases x with
  | error failure => rfl
  | ok a => exact h a rfl

/-- **A loop ends if its turns do.** Each turn but the last leaves less, so there cannot be more of
them than there is left. -/
theorem loopWithin_eq {turn : Reader → Limited (Turn α)}
    {loop : Reader → Except Failure (List α × Reader)} {bound turns : Nat} {r : Reader}
    (hturn : ∀ s : Reader, s.remaining ≤ bound →
      ∃ result, turn s = some result ∧ IsTurn loop s result)
    (hbound : r.remaining ≤ bound) (hturns : r.remaining < turns) :
    loopWithin turn turns r = some (loop r) := by
  -- `bound` stays as it is: all readers of the loop are below the first
  induction turns generalizing r with
  | zero => omega
  | succ turns ih =>
    obtain ⟨result, hresult, hloop⟩ := hturn r hbound
    rw [loopWithin, hresult, hloop.loop_eq]
    match result, hloop with
    | .error failure, _ => rfl
    | .ok .leave, _ => rfl
    | .ok (.item x s), hloop =>
      have hlt := (hloop.ahead rfl).2
      dsimp only [andThen, follow]
      rw [ih (by omega) (by omega)]
      cases loop s <;> rfl

theorem isTurn_classTurn (r : Reader) : IsTurn classNames r r.classTurn where
  loop_eq := by
    rw [classNames]
    split
    · rename_i cs hr
      split
      · rename_i hname
        have hturn : r.classTurn = .error ⟨.className, r.withRest cs⟩ := by
          simp [classTurn, hr, hname]
        rw [hturn]
        rfl
      · rename_i name s hname
        have hturn : r.classTurn = .ok (.item name s) := by
          simp [classTurn, hr, hname]
        rw [hturn]
        dsimp only [follow]
        cases s.classNames <;> rfl
    · rename_i hpoint
      unfold classTurn
      split
      · rename_i cs hr
        exact absurd hr (hpoint cs)
      · rfl
  ahead := by
    intro name s h
    unfold classTurn at h
    split at h
    · rename_i cs hr
      split at h
      · cases h
      · rename_i hname
        cases h
        exact ((reads_mark hr).trans (reads_of_lexeme? hname)).ahead
          (Nat.lt_trans (remaining_of_lexeme? hname) (remaining_withRest_lt hr))
    · cases h

theorem isTurn_bindingTurn (base : Nat) (r : Reader) :
    IsTurn (bindings base) r (r.bindingTurn base) where
  loop_eq := by
    rw [bindings_eq, bindingTurn]
    by_cases hindent : r.indent ≤ base
    · rw [if_pos hindent, if_pos hindent]
      rfl
    · rw [if_neg hindent, if_neg hindent]
      match r.binding? with
      | none => rfl
      | some (.error failure) => rfl
      | some (.ok (b, s)) =>
        dsimp only [follow]
        cases s.skipBlank.bindings base <;> rfl
  ahead := by
    intro b s h
    unfold bindingTurn at h
    split at h
    · cases h
    · split at h
      · cases h
      · cases h
      · rename_i hbinding
        cases h
        exact ((binding?_promises hbinding).1.ahead (remaining_of_binding? hbinding)).skipBlank

/-- Content as the items that its loop collects. -/
def contentItems (fits : Element → Bool) (base : Nat) (r : Reader) :
    Except Failure (List Content.Item × Reader) :=
  (r.content fits base).map fun c => (c.1.items, c.2)

variable {fragments : List String} {fits : Element → Bool} {base : Nat} {r s : Reader}

theorem isTurn_content_error {failure : Failure} (h : r.content fits base = .error failure) :
    IsTurn (contentItems fits base) r (.error failure) where
  loop_eq := by
    rw [contentItems, h]
    rfl
  ahead := fun hturn => by cases hturn

theorem isTurn_content_leave (h : r.content fits base = .ok (.nil, r)) :
    IsTurn (contentItems fits base) r (.ok .leave) where
  loop_eq := by
    rw [contentItems, h]
    rfl
  ahead := fun hturn => by cases hturn

theorem isTurn_content_item {item : Content.Item} {build : Content → Content}
    (hbuild : ∀ c, (build c).items = item :: c.items)
    (h : r.content fits base = (s.content fits base).map fun more => (build more.1, more.2))
    (hahead : r.Ahead s) : IsTurn (contentItems fits base) r (.ok (.item item s)) where
  loop_eq := by
    rw [contentItems, h]
    dsimp only [follow, contentItems]
    cases s.content fits base with
    | error failure => rfl
    | ok more =>
      dsimp only [Except.map]
      rw [hbuild]
  ahead := fun hturn => by
    cases hturn
    exact hahead

theorem exists_contentTurn (fits : Element → Bool) (base : Nat) (r : Reader) :
    ∃ result, r.contentTurn (fun s => some (s.element fits)) fits base = some result
      ∧ IsTurn (contentItems fits base) r result := by
  unfold contentTurn
  by_cases hindent : r.indent ≤ base
  · rw [if_pos hindent]
    refine ⟨_, rfl, isTurn_content_leave ?_⟩
    rw [content_eq, if_pos hindent]
  rw [if_neg hindent]
  have hdeeper : base < r.indent := Nat.lt_of_not_le hindent
  by_cases hend : r.atEnd = true
  · rw [if_pos hend]
    cases htake : r.takeExpr? with
    | none =>
      refine ⟨_, rfl, isTurn_content_leave ?_⟩
      rw [content_eq, if_neg hindent, if_pos hend, htake]
    | some found =>
      refine ⟨_, rfl, isTurn_content_item (fun _ => rfl) (content_of_takeExpr? hdeeper htake) ?_⟩
      exact ((reads_of_takeExpr? htake).ahead (remaining_of_takeExpr? htake)).skipBlank
  rw [if_neg hend]
  have hrest : r.rest ≠ [] := fun hnil => hend (List.isEmpty_iff.mpr hnil)
  have hpromises := literal_promises r
  cases hliteral : r.literal with
  | error failure =>
    refine ⟨_, rfl, isTurn_content_error ?_⟩
    rw [content_eq, if_neg hindent, if_neg hend, hliteral]
  | ok found =>
    obtain ⟨text, s⟩ := found
    rw [hliteral] at hpromises
    dsimp only
    by_cases htext : text ≠ ""
    · rw [if_pos htext]
      refine ⟨_, rfl, isTurn_content_item (fun _ => rfl)
        (content_of_literal hdeeper hliteral htext) ?_⟩
      exact (hpromises.1.ahead (remaining_lt_of_literal hliteral htext)).skipBlank
    rw [if_neg htext]
    obtain rfl := Decidable.not_not.mp htext
    have hcontent : r.content fits base = _ := content_of_element hdeeper hliteral hrest
    have helement := element_promises fits s
    cases hchild : s.element fits with
    | error failure =>
      refine ⟨_, rfl, isTurn_content_error ?_⟩
      rw [hcontent, hchild]
      rfl
    | ok child =>
      rw [hchild, Except.bind] at hcontent
      rw [hchild] at helement
      dsimp only [andThen]
      by_cases hfits : fits child.1 = true
      · rw [if_pos hfits] at hcontent ⊢
        refine ⟨_, rfl, isTurn_content_item (fun _ => rfl) hcontent ?_⟩
        -- a literal without content may have moved the reader too; the element always does
        exact ((hpromises.1.trans helement.1).ahead (Nat.lt_of_lt_of_le
          (remaining_of_element hchild) (remaining_of_literal hliteral))).skipBlank
      · rw [if_neg hfits] at hcontent ⊢
        exact ⟨_, rfl, isTurn_content_error hcontent⟩

/-- A turn of content does not see elements beyond what is left. -/
theorem contentTurn_congr {nested nested' : Reader → Limited (Element × Reader)}
    (h : ∀ s : Reader, s.remaining ≤ r.remaining → nested s = nested' s) :
    r.contentTurn nested fits base = r.contentTurn nested' fits base := by
  unfold contentTurn
  cases hliteral : r.literal with
  | error failure => rfl
  | ok found =>
    dsimp only
    rw [h found.2 (remaining_of_literal hliteral)]

/-! ## Elements -/

theorem classPartWithin_eq {turns : Nat} (h : r.remaining < turns) :
    r.classPartWithin turns = some r.classPart := by
  unfold classPartWithin classPart
  cases r.takeExpr? with
  | some found => rfl
  | none =>
    have hloop : loopWithin (fun s => some s.classTurn) turns r = some r.classNames :=
      loopWithin_eq (fun s _ => ⟨_, rfl, isTurn_classTurn s⟩) (Nat.le_refl _) h
    dsimp only
    rw [hloop]
    cases r.classNames <;> rfl

theorem element_of_name {tag : String} (h : r.name? = some (tag, s)) :
    r.element fits =
      (s.liftIndent r.indent).classPart.bind fun cls =>
        (cls.2.skipBlank.bindings r.indent).bind fun bindings =>
          if Head.isVoid ⟨tag, cls.1, bindings.1⟩ then
            .ok (⟨⟨tag, cls.1, bindings.1⟩, .nil⟩, bindings.2)
          else
            (bindings.2.content fits r.indent).bind fun content =>
              .ok (⟨⟨tag, cls.1, bindings.1⟩, content.1⟩, content.2) := by
  rw [element_eq, Reader.head, h]
  dsimp only
  cases (s.liftIndent r.indent).classPart with
  | error failure => rfl
  | ok cls =>
    dsimp only [Except.bind]
    cases cls.2.skipBlank.bindings r.indent with
    | error failure => rfl
    | ok bindings =>
      dsimp only
      split
      · rfl
      · cases bindings.2.content fits r.indent <;> rfl

/-- **Reading an element ends.** Limits above what is left are never reached. -/
theorem elementWithin_eq {turns depth : Nat} (hturns : r.remaining < turns)
    (hdepth : r.remaining < depth) :
    r.elementWithin fits turns depth = some (r.element fits) := by
  induction depth generalizing r with
  | zero => omega
  | succ depth ih =>
    rw [elementWithin]
    cases hname : r.name? with
    | none =>
      rw [element_eq, Reader.head, hname]
    | some found =>
      obtain ⟨tag, s⟩ := found
      have hs : (s.liftIndent r.indent).remaining < r.remaining := by
        rw [remaining_liftIndent]
        exact remaining_of_lexeme? hname
      rw [element_of_name hname]
      dsimp only
      rw [classPartWithin_eq (by omega)]
      refine andThen_some fun cls hcls => ?_
      have hcls := remaining_of_classPart hcls
      have hblank := remaining_skipBlank_le cls.2
      have hloop : loopWithin (fun t => some (t.bindingTurn r.indent)) turns cls.2.skipBlank =
          some (cls.2.skipBlank.bindings r.indent) :=
        loopWithin_eq (fun t _ => ⟨_, rfl, isTurn_bindingTurn r.indent t⟩) (Nat.le_refl _)
          (by omega)
      rw [hloop]
      refine andThen_some fun bindings hbindings => ?_
      have hbindings := remaining_of_bindings hbindings
      split
      · rfl
      · -- the elements inside start behind the tag, so there is room for them
        have hnested : ∀ t : Reader, t.remaining ≤ bindings.2.remaining →
            ∃ result, t.contentTurn (elementWithin fits turns depth) fits r.indent = some result
              ∧ IsTurn (contentItems fits r.indent) t result := by
          intro t ht
          obtain ⟨result, hresult, hturn⟩ := exists_contentTurn fits r.indent t
          refine ⟨result, ?_, hturn⟩
          rw [← hresult]
          exact contentTurn_congr fun u hu => ih (by omega) (by omega)
        rw [loopWithin_eq hnested (Nat.le_refl _) (by omega), contentItems]
        cases bindings.2.content fits r.indent with
        | error failure => rfl
        | ok content =>
          show some (Except.ok _) = some (Except.ok _)
          rw [Content.ofItems_items]

/--
What is to be said of reading at `r`, by the places in a template: it ends, an element that was
read and every turn of a loop that goes on have moved the reader forward, and nothing moves it
back.
-/
structure Progresses (fragments : List String) (fits : Element → Bool) (r : Reader) : Prop where
  ends : ∀ limit, r.remaining < limit → r.elementWithin fits limit limit = some (r.element fits)
  element : ∀ {e s}, r.element fits = .ok (e, s) → r.cursor fragments < s.cursor fragments
  classes : ∀ {name s}, r.classTurn = .ok (.item name s) →
    r.cursor fragments < s.cursor fragments
  bindings : ∀ {base b s}, r.bindingTurn base = .ok (.item b s) →
    r.cursor fragments < s.cursor fragments
  content : ∀ {base item s},
    r.contentTurn (fun t => some (t.element fits)) fits base = some (.ok (.item item s)) →
    r.cursor fragments < s.cursor fragments
  /-- Wherever the reader comes to, it is still in the template and not further back. -/
  moves : ∀ {s}, r.Moves fits s → r.cursor fragments ≤ s.cursor fragments ∧ s.StandsIn fragments

/--
**Reading a template ends and only moves forward.** A reader stands in the template at the start,
and wherever it stands, reading makes progress.
-/
theorem progresses (oracle : Oracle) (h : fragments ≠ []) :
    (ofFragments fragments).StandsIn fragments
      ∧ ∀ r : Reader, r.StandsIn fragments → r.Progresses fragments (Element.fits oracle) := by
  refine ⟨standsIn_ofFragments h, fun r hr => ?_⟩
  exact {
    ends := fun limit hlimit => elementWithin_eq hlimit hlimit
    element := fun helement => by
      have hreads := element_promises (Element.fits oracle) r
      rw [helement] at hreads
      exact (hreads.1.ahead (remaining_of_element helement)).cursor_lt hr
    classes := fun hturn => ((isTurn_classTurn r).ahead hturn).cursor_lt hr
    bindings := fun hturn => ((isTurn_bindingTurn _ r).ahead hturn).cursor_lt hr
    content := fun hturn => by
      obtain ⟨result, hresult, hcontent⟩ := exists_contentTurn (Element.fits oracle) _ r
      exact (hcontent.ahead (Option.some.inj (hresult.symm.trans hturn))).cursor_lt hr
    moves := fun hmoves => by
      obtain ⟨_, _, hreads⟩ := hmoves.exists_reads
      exact ⟨hreads.cursor_le fragments, hreads.standsIn hr⟩ }

/-- Two class names, an expression and an element with a text, with one more than the symbols that
are left as the limit. -/
theorem progresses_inside :
    ∃ e s, (ofFragments ["p.a.b", " i 'é'"]).element (Element.fits fun _ => false) = .ok (e, s)
      ∧ (ofFragments ["p.a.b", " i 'é'"]).elementWithin (Element.fits fun _ => false) 13 13 =
        some (.ok (e, s))
      ∧ s.cursor ["p.a.b", " i 'é'"] = toLex (1, 7)
      ∧ (ofFragments ["p.a.b", " i 'é'"]).cursor ["p.a.b", " i 'é'"]
        < s.cursor ["p.a.b", " i 'é'"] := by
  generalize hf : ["p.a.b", " i 'é'"] = fragments
  have hne : fragments ≠ [] := by
    rw [← hf]
    exact List.cons_ne_nil _ _
  have hplace : ((ofFragments fragments).element (Element.fits fun _ => false)).toOption.map
      (fun found => (found.2.index, found.2.byte fragments)) = some (1, 7) := by
    rw [← hf]
    decide +kernel
  have hremaining : (ofFragments fragments).remaining < 13 := by
    rw [← hf]
    decide +kernel
  obtain ⟨⟨e, s⟩, helement, hcursor⟩ := exists_of_toOption_map hplace
  obtain ⟨hstart, hall⟩ := progresses (fun _ => false) hne
  have hprogress := hall _ hstart
  refine ⟨e, s, helement, ?_, congrArg toLex hcursor, hprogress.element helement⟩
  rw [hprogress.ends 13 hremaining, helement]

end Reader
end Stencil
