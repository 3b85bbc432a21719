import Stencil.Proofs.Literals
import Stencil.Proofs.Lockstep

/-!
# What reads as an empty literal

A literal reads as empty in several cases: there is none, it does not close, or it closes and has
no content. An attribute and the content of an element look at the empty text only and go on from
wherever the literal left the reader: the attribute with an expression, the content with an
element.

In the first cases the reader has not moved, and they go on where the literal would have started.
A literal without content is different. It has been read, so they go on behind it: an attribute
does not get the empty value but takes an expression after the quotes, and an element after the
quotes is read as if they were not there.
-/

namespace Stencil

namespace Reader

/-- A literal stands here: a text in quotes that enclose it. -/
def HasLiteral (r : Reader) : Prop :=
  ∃ hashes content rest, Text.Encloses hashes content
    ∧ r.rest = Text.quoted hashes content ++ rest

/-- A literal starts here that has a quote with less text after it than its delimiter is long. -/
def HasCut (r : Reader) : Prop :=
  ∃ body p, r.rest.drop r.hashes = '\'' :: body ∧ Text.CutAt r.hashes body p

/-- A literal without content stands at `r`, and `s` is right behind it. -/
def PassesEmpty (r s : Reader) : Prop :=
  ∃ hashes, r.rest = Text.quoted hashes [] ++ s.rest ∧ s = r.withRest s.rest

/-- After `r` was tried for a literal, its attribute or its content goes on at `s`. -/
structure GoesOnAt (r s : Reader) : Prop where
  attr : ∀ {p q : Reader} {name : String}, p.name? = some (name, q) → q.equals? = some r →
    p.attrBinding =
      match s.takeExpr? with
      | none => .error ⟨.attributeValue, s⟩
      | some (i, t) => .ok (.named .attr name i, t.ask i)
  content : ∀ (fits : Element → Bool) (base : Nat), base < r.indent → r.rest ≠ [] →
    r.content fits base = (s.element fits).bind fun child =>
      if fits child.1 then
        (child.2.skipBlank.content fits base).map fun more =>
          (.element child.1.head child.1.content more.1, more.2)
      else .error ⟨.templateSize, child.2⟩

variable {r s : Reader}

/-! ## The ways a scan ends -/

theorem hasLiteral_iff :
    r.HasLiteral ↔ ∃ content rest, literal? r.rest = some (.closed content rest) := by
  constructor
  · rintro ⟨hashes, content, rest, hencloses, hrest⟩
    exact ⟨content, rest, literal?_eq_closed_iff.mpr ⟨hashes, hencloses, hrest⟩⟩
  · rintro ⟨content, rest, hclosed⟩
    obtain ⟨hashes, hencloses, hrest⟩ := literal?_eq_closed_iff.mp hclosed
    exact ⟨hashes, content, rest, hencloses, hrest⟩

theorem passesEmpty_iff :
    r.PassesEmpty s ↔ literal? r.rest = some (.closed [] s.rest) ∧ s = r.withRest s.rest := by
  constructor
  · rintro ⟨hashes, hrest, hs⟩
    -- a delimiter has at least its quote, so it is not inside of nothing
    have hencloses : Text.Encloses hashes [] := fun hinside => by
      cases List.infix_nil.mp hinside
    exact ⟨literal?_eq_closed_iff.mpr ⟨hashes, hencloses, hrest⟩, hs⟩
  · rintro ⟨hclosed, hs⟩
    obtain ⟨hashes, _, hrest⟩ := literal?_eq_closed_iff.mp hclosed
    exact ⟨hashes, hrest, hs⟩

/-- Where an opening quote is read, it stands after the `#`. -/
theorem exists_body {literal : Literal} (h : literal? r.rest = some literal) :
    ∃ body, r.rest.drop r.hashes = '\'' :: body ∧ closeLiteral r.hashes [] body = literal := by
  unfold literal? at h
  split at h
  · rename_i body hbody
    exact ⟨body, (drop_hashes r).trans hbody, Option.some.inj h⟩
  · cases h

theorem hasCut_of_literal? (h : literal? r.rest = some .cut) : r.HasCut := by
  obtain ⟨body, hbody, hclose⟩ := exists_body h
  obtain ⟨p, hp⟩ := exists_cutAt hclose
  exact ⟨body, p, hbody, hp⟩

theorem not_hasCut_of_literal? (h : literal? r.rest = some .unclosed) : ¬r.HasCut := by
  rintro ⟨body, p, hbody, hp⟩
  have hclose := (literal?_of_quote hbody).symm.trans h
  exact not_cutAt (Option.some.inj hclose) p hp

theorem not_hasCut_of_none (h : literal? r.rest = none) : ¬r.HasCut := by
  rintro ⟨body, p, hbody, _⟩
  cases (literal?_of_quote hbody).symm.trans h

/-- **A literal reads as empty if there is none, if it does not close, or if it is empty.** -/
theorem literal_eq_empty_iff :
    r.literal = .ok ("", s) ↔ (s = r ∧ ¬r.HasLiteral ∧ ¬r.HasCut) ∨ r.PassesEmpty s := by
  rw [hasLiteral_iff, passesEmpty_iff, literal]
  cases hscan : literal? r.rest with
  | none =>
    have hcut := not_hasCut_of_none hscan
    simp [hcut, eq_comm]
  | some found =>
    cases found with
    | closed content rest =>
      simp only [Except.ok.injEq, Prod.mk.injEq, Option.some.injEq, Literal.closed.injEq]
      constructor
      · rintro ⟨hcontent, rfl⟩
        exact .inr ⟨⟨String.ofList_eq_empty_iff.mp hcontent, rfl⟩, rfl⟩
      · rintro (⟨_, hnone, _⟩ | ⟨⟨rfl, rfl⟩, hs⟩)
        · exact absurd ⟨content, rest, rfl, rfl⟩ hnone
        · exact ⟨rfl, hs.symm⟩
    | cut =>
      have hcut := hasCut_of_literal? hscan
      simp [hcut]
    | unclosed =>
      have hcut := not_hasCut_of_literal? hscan
      simp [hcut, eq_comm]

/-- Writing a content for its setting makes it neither empty nor full. -/
theorem escapedLiteral_eq_empty_iff {setting : Text.Setting} :
    r.escapedLiteral setting = .ok ("", s) ↔ r.literal = .ok ("", s) := by
  unfold escapedLiteral
  split
  · rename_i text t hliteral
    rw [hliteral]
    simp only [Except.ok.injEq, Prod.mk.injEq, and_congr_left_iff]
    intro _
    constructor
    · intro hescape
      by_contra hne
      exact Text.escape_ne_nil hne (by rw [hescape]; rfl)
    · rintro rfl
      rfl
  · rename_i hliteral
    rw [hliteral]

/-! ## Where reading goes on -/

theorem PassesEmpty.remaining_lt (h : r.PassesEmpty s) : s.remaining < r.remaining := by
  obtain ⟨hclosed, hs⟩ := passesEmpty_iff.mp h
  refine remaining_lt_of_length ?_ (length_of_literal? hclosed)
  rw [hs]
  rfl

theorem goesOnAt (h : r.literal = .ok ("", s)) : r.GoesOnAt s where
  attr := by
    intro p q name hname hequals
    rw [attrBinding, hname]
    dsimp only
    rw [hequals]
    dsimp only
    rw [h]
    rfl
  content := fun fits base hindent hrest => content_of_element hindent h hrest

/-- An element behind an empty literal is read as if the literal was not there. -/
theorem PassesEmpty.content_eq (h : r.PassesEmpty s) {tag : String} {t : Reader}
    (htag : s.name? = some (tag, t)) (fits : Element → Bool) {base : Nat}
    (hindent : base < r.indent) : r.content fits base = s.content fits base := by
  obtain ⟨c, cs, hcs, hc⟩ := exists_of_name? htag
  have hsame : s.indent = r.indent := by
    obtain ⟨_, _, hs⟩ := h
    rw [hs]
    rfl
  -- at the tag there is no literal, so `s` goes on where it stands, as `r` does
  have hliteral : s.literal = .ok ("", s) := by
    refine literal_of_not_opens ?_
    rw [hcs]
    exact not_opensLiteral_of_isNameStart hc
  have hrest : r.rest ≠ [] := by
    intro hnil
    obtain ⟨hashes, hquoted, _⟩ := h
    rw [hnil] at hquoted
    simp [Text.quoted] at hquoted
  rw [content_of_element hindent (literal_eq_empty_iff.mpr (.inr h)) hrest,
    content_of_element (hsame ▸ hindent) hliteral (by rw [hcs]; exact List.cons_ne_nil c cs)]

/--
**What reads as empty has moved the reader exactly if it is a literal without content.** In every
case the attribute or content goes on from where the literal left the reader, so an empty literal
in front of an element is lost.
-/
theorem escapedLiteral_empty (setting : Text.Setting) (r s : Reader) :
    (r.escapedLiteral setting = .ok ("", s) ↔
        (s = r ∧ ¬r.HasLiteral ∧ ¬r.HasCut) ∨ r.PassesEmpty s)
      ∧ (r.escapedLiteral setting = .ok ("", s) → r.GoesOnAt s)
      ∧ (r.PassesEmpty s → s.remaining < r.remaining
        ∧ ∀ tag t, s.name? = some (tag, t) → ∀ fits base, base < r.indent →
          r.content fits base = s.content fits base) := by
  refine ⟨escapedLiteral_eq_empty_iff.trans literal_eq_empty_iff, ?_, ?_⟩
  · intro h
    exact goesOnAt (escapedLiteral_eq_empty_iff.mp h)
  · intro h
    exact ⟨h.remaining_lt, fun tag t htag fits base hindent => h.content_eq htag fits hindent⟩

/-- Two quotes in front of a tag, and two quotes with a `#` on either side where an expression
follows. -/
theorem escapedLiteral_empty_dropped :
    escapedLiteral .running ⟨0, "''b".toList, [], 3, []⟩ = .ok ("", ⟨0, "b".toList, [], 3, []⟩)
      ∧ content (fun _ => true) 2 ⟨0, "''b".toList, [], 3, []⟩ =
        content (fun _ => true) 2 ⟨0, "b".toList, [], 3, []⟩
      ∧ attrBinding ⟨0, "a=#''#".toList, [[]], 3, []⟩ =
        .ok (.named .attr "a" 0, ⟨1, [], [], 3, [0]⟩) := by
  have hpasses : PassesEmpty ⟨0, "''b".toList, [], 3, []⟩ ⟨0, "b".toList, [], 3, []⟩ :=
    ⟨0, rfl, rfl⟩
  have hhash : PassesEmpty ⟨0, "#''#".toList, [[]], 3, []⟩ ⟨0, [], [[]], 3, []⟩ := ⟨1, rfl, rfl⟩
  obtain ⟨hread, _, hdropped⟩ := escapedLiteral_empty .running ⟨0, "''b".toList, [], 3, []⟩
    ⟨0, "b".toList, [], 3, []⟩
  obtain ⟨hread', hgoes, _⟩ := escapedLiteral_empty .attributeValue
    ⟨0, "#''#".toList, [[]], 3, []⟩ ⟨0, [], [[]], 3, []⟩
  refine ⟨hread.mpr (.inr hpasses), ?_, ?_⟩
  · exact (hdropped hpasses).2 "b" ⟨0, [], [], 3, []⟩ (by decide) _ 2 (by decide)
  · exact (hgoes (hread'.mpr (.inr hhash))).attr (q := ⟨0, "=#''#".toList, [[]], 3, []⟩)
      (by decide) (by decide)

end Reader
end Stencil
