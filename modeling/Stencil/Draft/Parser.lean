import Stencil.Draft.Basic
import Stencil.Element.Parser

/-!
# Reading into the tables

The grammar is that of elements. What is read is written into the tables at once, so a
fault leaves there what was written before it.

An element knows the number of its step of the walk, unless it is the root. Reading it
gives the number of its record, if it has one; reading content gives what is placed
among the children of the element around, and the records of the elements in it.
-/

namespace Stencil

/-- What came of reading, and the tables after it. -/
structure Drafted (α : Type) where
  result : Except Failure α
  draft : Draft

namespace Drafted

def map {α β : Type} (f : α → β) (x : Drafted α) : Drafted β :=
  { x with result := x.result.map f }

end Drafted

namespace Reader

/-- The bindings of an element at `base`, and the updates that they ask for. -/
def bindingsInto (oracle : Oracle) (base : Nat) (r : Reader) (d : Draft) :
    Drafted (List PropOp × Reader) :=
  if r.indent ≤ base then ⟨.ok ([], r), d⟩
  else
    match hb : r.binding? with
    | none => ⟨.ok ([], r), d⟩
    | some (.error failure) => ⟨.error failure, d⟩
    | some (.ok (b, s)) =>
      have : s.skipBlank.remaining < r.remaining :=
        Nat.lt_of_le_of_lt (remaining_skipBlank_le s) (remaining_of_binding? hb)
      (s.skipBlank.bindingsInto oracle base
          (d.say (b.markup oracle) (b.exprs oracle) (b.data oracle))).map
        fun (more, t) => (b.props oracle d.exprs.size d.data.size ++ more, t)
termination_by r.remaining

theorem bindingsInto_eq (oracle : Oracle) (base : Nat) (r : Reader) (d : Draft) :
    r.bindingsInto oracle base d =
      if r.indent ≤ base then ⟨.ok ([], r), d⟩
      else
        match r.binding? with
        | none => ⟨.ok ([], r), d⟩
        | some (.error failure) => ⟨.error failure, d⟩
        | some (.ok (b, s)) =>
          (s.skipBlank.bindingsInto oracle base
              (d.say (b.markup oracle) (b.exprs oracle) (b.data oracle))).map
            fun (more, t) => (b.props oracle d.exprs.size d.data.size ++ more, t) := by
  rw [bindingsInto]
  split
  · rfl
  · split <;> rename_i hb <;> simp only [hb]

/-- What is known of an element whose opening tag was written. -/
structure Opened where
  tag : String
  props : List PropOp

/-- The opening tag of an element. -/
def headInto (oracle : Oracle) (step : Option Nat) (r : Reader) (d : Draft) :
    Drafted (Opened × Reader) :=
  match r.name? with
  | none => ⟨.error ⟨.tagName, r⟩, d⟩
  | some (tag, s) =>
    let d := (d.name step tag).write [.text ("<" ++ tag)]
    match (s.liftIndent r.indent).classPart with
    | .error failure => ⟨.error failure, d⟩
    | .ok (cls, t) =>
      let props := cls.props oracle d.exprs.size
      let said := d.say (cls.markup oracle) (cls.exprs oracle) []
      let rest := t.skipBlank.bindingsInto oracle r.indent said
      match rest.result with
      | .error failure => ⟨.error failure, rest.draft⟩
      | .ok (more, u) => ⟨.ok (⟨tag, props ++ more⟩, u), rest.draft.write [.text ">"]⟩

theorem remaining_of_bindingsInto {oracle : Oracle} {base : Nat} {r s : Reader} {d : Draft}
    {props : List PropOp} (h : (r.bindingsInto oracle base d).result = .ok (props, s)) :
    s.remaining ≤ r.remaining := by
  fun_induction bindingsInto oracle base r d generalizing props s with
  | case1 => simp_all
  | case2 => simp_all
  | case3 => simp at h
  | case4 r d hi b t hb hlt ih =>
    unfold Drafted.map at h
    dsimp only at h
    generalize bindingsInto oracle base _ _ = rest at h ih
    cases hrest : rest.result with
    | error failure => simp [hrest, Except.map] at h
    | ok found =>
      simp only [hrest, Except.map, Except.ok.injEq, Prod.mk.injEq] at h
      have := ih hrest
      rw [← h.2]
      omega

/-- Reading an opening tag moves forward. -/
theorem remaining_of_headInto {oracle : Oracle} {step : Option Nat} {r s : Reader} {d : Draft}
    {opened : Opened} (h : (r.headInto oracle step d).result = .ok (opened, s)) :
    s.remaining < r.remaining := by
  unfold headInto at h
  split at h
  · simp at h
  · rename_i hn
    have hn := remaining_of_lexeme? hn
    dsimp only at h
    split at h
    · simp at h
    · rename_i t hc
      have hc := remaining_of_classPart hc
      have ht := remaining_skipBlank_le t
      split at h
      · simp at h
      · rename_i hb
        have hb := remaining_of_bindingsInto hb
        simp only [Except.ok.injEq, Prod.mk.injEq] at h
        rw [remaining_liftIndent] at hc
        rw [← h.2]
        omega

/-- What stands among the children of an element: placements, and records of elements. -/
structure Within where
  inserts : List Insert := []
  inner : List Nat := []

/-! ## What is left after an item -/

theorem remaining_after_expr {r s : Reader} {i : Nat} (h : r.takeExpr? = some (i, s)) :
    s.skipBlank.remaining < r.remaining :=
  Nat.lt_of_le_of_lt (remaining_skipBlank_le s) (remaining_of_takeExpr? h)

theorem remaining_after_text {r s : Reader} {text : String} (h : r.literal = .ok (text, s))
    (htext : text ≠ "") : s.skipBlank.remaining < r.remaining :=
  Nat.lt_of_le_of_lt (remaining_skipBlank_le s) (remaining_lt_of_literal h htext)

theorem Read.remaining_after {α : Type} {r s : Reader} (child : Read α s.remaining)
    (h : s.remaining ≤ r.remaining) : child.next.skipBlank.remaining < r.remaining :=
  Nat.lt_of_le_of_lt (remaining_skipBlank_le _) (Nat.lt_of_lt_of_le child.bound h)

theorem Read.bound_after_item {α : Type} {r s : Reader}
    (more : Read α (s.skipBlank.remaining + 1)) (h : s.skipBlank.remaining < r.remaining) :
    more.next.remaining < r.remaining + 1 := by
  have hbound := more.bound
  omega

mutual

/-- An element, with the proof that reading it moved forward. -/
def elementIntoBounded (oracle : Oracle) (step : Option Nat) (r : Reader) (d : Draft) :
    Drafted (Read (Option Nat) r.remaining) :=
  let opened := r.headInto oracle step d
  match hh : opened.result with
  | .error failure => ⟨.error failure, opened.draft⟩
  | .ok (⟨tag, props⟩, s) =>
    have hs := remaining_of_headInto hh
    if voidTags.contains tag then
      let closed := opened.draft.close step props [] []
      ⟨.ok ⟨closed.1, s, hs⟩, closed.2⟩
    else
      let body := s.contentIntoBounded oracle r.indent .nothing opened.draft
      match body.result with
      | .error failure => ⟨.error failure, body.draft⟩
      | .ok within =>
        let written := body.draft.write [.text ("</" ++ tag ++ ">")]
        let closed := (written.trim step).close step props within.value.inserts within.value.inner
        ⟨.ok ⟨closed.1, within.next, Nat.lt_of_lt_of_le within.bound hs⟩, closed.2⟩
termination_by 2 * r.remaining

/-- Content, with the proof that reading it did not move back. -/
def contentIntoBounded (oracle : Oracle) (base : Nat) (before : Before) (r : Reader) (d : Draft) :
    Drafted (Read Within (r.remaining + 1)) :=
  if r.indent ≤ base then ⟨.ok ⟨{}, r, Nat.lt_succ_self _⟩, d⟩
  else if r.atEnd then
    match he : r.takeExpr? with
    | none => ⟨.ok ⟨{}, r, Nat.lt_succ_self _⟩, d⟩
    | some (i, s) =>
      have hs := remaining_after_expr he
      let input := d.exprs.size
      (s.skipBlank.contentIntoBounded oracle base before.afterExpr (d.addChild i)).map fun more =>
        ⟨{ more.value with inserts := .child input :: more.value.inserts }, more.next,
          more.bound_after_item hs⟩
  else
    let pos := d.walk.size
    let point := before.insertPoint pos
    let d := d.beginNode before
    match hl : r.literal with
    | .error failure => ⟨.error failure, d⟩
    | .ok (text, s) =>
      if ht : text ≠ "" then
        have hs := remaining_after_text hl ht
        (s.skipBlank.contentIntoBounded oracle base .afterText (d.addText before text)).map
          fun more =>
            ⟨{ more.value with inserts := point ++ more.value.inserts }, more.next,
              more.bound_after_item hs⟩
      else
        have hs := remaining_of_literal hl
        let item := s.elementIntoBounded oracle (some pos) d
        match item.result with
        | .error failure => ⟨.error failure, item.draft⟩
        | .ok child =>
          if item.draft.walk.size - (pos + 1) ≤ StateOp.maxCount then
            have hc := child.remaining_after hs
            (child.next.skipBlank.contentIntoBounded oracle base .nothing
                (item.draft.leave pos)).map
              fun more =>
                ⟨{ inserts := point ++ more.value.inserts
                   inner := child.value.toList ++ more.value.inner }, more.next,
                  more.bound_after_item hc⟩
          else ⟨.error ⟨.templateSize, child.next⟩, item.draft⟩
termination_by 2 * r.remaining + 1

end

/-- An element: the number of its record, if it has one. -/
def elementInto (oracle : Oracle) (step : Option Nat) (r : Reader) (d : Draft) :
    Drafted (Option Nat × Reader) :=
  (r.elementIntoBounded oracle step d).map fun e => (e.value, e.next)

/-- The content of an element at `base`. -/
def contentInto (oracle : Oracle) (base : Nat) (before : Before) (r : Reader) (d : Draft) :
    Drafted (Within × Reader) :=
  (r.contentIntoBounded oracle base before d).map fun c => (c.value, c.next)

/-- An element is a head and, unless it is void, the content deeper than the head. -/
theorem elementInto_eq (oracle : Oracle) (step : Option Nat) (r : Reader) (d : Draft) :
    r.elementInto oracle step d =
      let opened := r.headInto oracle step d
      match opened.result with
      | .error failure => ⟨.error failure, opened.draft⟩
      | .ok (⟨tag, props⟩, s) =>
        if voidTags.contains tag then
          let closed := opened.draft.close step props [] []
          ⟨.ok (closed.1, s), closed.2⟩
        else
          let body := s.contentInto oracle r.indent .nothing opened.draft
          match body.result with
          | .error failure => ⟨.error failure, body.draft⟩
          | .ok (within, t) =>
            let written := body.draft.write [.text ("</" ++ tag ++ ">")]
            let closed := (written.trim step).close step props within.inserts within.inner
            ⟨.ok (closed.1, t), closed.2⟩ := by
  rw [elementInto, elementIntoBounded]
  dsimp only
  split
  · rename_i hh
    simp [hh, Drafted.map, Except.map]
  · rename_i tag props s hh
    simp only [hh]
    split
    · rfl
    · simp only [contentInto, Drafted.map]
      cases (s.contentIntoBounded oracle r.indent .nothing _).result <;> rfl

/-- Content is empty, or an item and the content after it. -/
theorem contentInto_eq (oracle : Oracle) (base : Nat) (before : Before) (r : Reader) (d : Draft) :
    r.contentInto oracle base before d =
      if r.indent ≤ base then ⟨.ok ({}, r), d⟩
      else if r.atEnd then
        match r.takeExpr? with
        | none => ⟨.ok ({}, r), d⟩
        | some (i, s) =>
          (s.skipBlank.contentInto oracle base before.afterExpr (d.addChild i)).map
            fun (more, t) =>
              ({ more with inserts := .child d.exprs.size :: more.inserts }, t)
      else
        let point := before.insertPoint d.walk.size
        match r.literal with
        | .error failure => ⟨.error failure, d.beginNode before⟩
        | .ok (text, s) =>
          if text ≠ "" then
            (s.skipBlank.contentInto oracle base .afterText
                ((d.beginNode before).addText before text)).map
              fun (more, t) => ({ more with inserts := point ++ more.inserts }, t)
          else
            let item := s.elementInto oracle (some d.walk.size) (d.beginNode before)
            match item.result with
            | .error failure => ⟨.error failure, item.draft⟩
            | .ok (child, t) =>
              if item.draft.walk.size - (d.walk.size + 1) ≤ StateOp.maxCount then
                (t.skipBlank.contentInto oracle base .nothing
                    (item.draft.leave d.walk.size)).map
                  fun (more, u) =>
                    ({ inserts := point ++ more.inserts, inner := child.toList ++ more.inner }, u)
              else ⟨.error ⟨.templateSize, t⟩, item.draft⟩ := by
  rw [contentInto, contentIntoBounded]
  split
  · rfl
  · split
    · split
      · rename_i he
        simp only [he]
        rfl
      · rename_i i s he
        simp only [he, contentInto, Drafted.map]
        cases (s.skipBlank.contentIntoBounded oracle base _ _).result <;> rfl
    · dsimp only
      split
      · rename_i hl
        simp only [hl]
        rfl
      · rename_i text s hl
        simp only [hl]
        split
        · simp only [contentInto, Drafted.map]
          cases (s.skipBlank.contentIntoBounded oracle base _ _).result <;> rfl
        · simp only [elementInto, Drafted.map]
          cases (s.elementIntoBounded oracle _ _).result with
          | error failure => rfl
          | ok child =>
            dsimp only [Except.map]
            by_cases hsize : (s.elementIntoBounded oracle (some d.walk.size)
                (d.beginNode before)).draft.walk.size - (d.walk.size + 1) ≤ StateOp.maxCount
            · simp only [hsize, ↓reduceIte, contentInto, Drafted.map]
              cases (child.next.skipBlank.contentIntoBounded oracle base _ _).result <;> rfl
            · simp only [hsize, ↓reduceIte]

end Reader
end Stencil
