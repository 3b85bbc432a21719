import Stencil.Proofs.Positions
import Stencil.Proofs.Rules

/-!
# Where a literal ends and what is read of it

A literal is scanned from quote to quote, and its content written character by character. Both
are stated here by places alone. A quote closes the literal if enough `#` follow it, and the
first such quote does; the scan can also stop before, at a quote with less text after it than
the delimiter is long, but only where no quote closes at all.

What is read of a closed literal is its content with the replacements of its setting made one
after the other, and no two contents are written alike, because `unescape` gives them back.
-/

namespace Stencil

namespace Text

/-! ## Replacements -/

/-- A text with `entity` for each `c` in it. -/
def replace (c : Char) (entity : String) (cs : List Char) : List Char :=
  cs.flatMap fun d => if d = c then entity.toList else [d]

/-- A text with the replacements of a setting made, those of ampersands first. -/
def replaced : Setting → List Char → List Char
  | .attributeValue, cs => replace '"' "&quot;" (replace '&' "&amp;" cs)
  | .running, cs => replace '<' "&lt;" (replace '&' "&amp;" cs)

/-- A text with each of the three entities turned back into its character. -/
def unescape : List Char → List Char
  | '&' :: 'a' :: 'm' :: 'p' :: ';' :: cs => '&' :: unescape cs
  | '&' :: 'q' :: 'u' :: 'o' :: 't' :: ';' :: cs => '"' :: unescape cs
  | '&' :: 'l' :: 't' :: ';' :: cs => '<' :: unescape cs
  | c :: cs => c :: unescape cs
  | [] => []

theorem replace_of_ne {c d : Char} {entity : String} (h : d ≠ c) : replace c entity [d] = [d] := by
  rw [replace, List.flatMap_singleton, if_neg h]

theorem replace_append (c : Char) (entity : String) (a b : List Char) :
    replace c entity (a ++ b) = replace c entity a ++ replace c entity b :=
  List.flatMap_append

theorem replaced_append (setting : Setting) (a b : List Char) :
    replaced setting (a ++ b) = replaced setting a ++ replaced setting b := by
  cases setting <;> rw [replaced, replace_append, replace_append] <;> rfl

/-- The ampersand of an entity is not replaced again. -/
theorem escapeChar_eq_replaced (setting : Setting) (c : Char) :
    escapeChar setting c = replaced setting [c] := by
  unfold escapeChar
  split
  · cases setting <;> decide
  · decide
  · decide
  · next hamp hquote hlt =>
    cases setting with
    | attributeValue => rw [replaced, replace_of_ne hamp, replace_of_ne (hquote rfl)]
    | running => rw [replaced, replace_of_ne hamp, replace_of_ne (hlt rfl)]

theorem flatMap_escapeChar (setting : Setting) (cs : List Char) :
    cs.flatMap (escapeChar setting) = replaced setting cs := by
  induction cs with
  | nil => cases setting <;> rfl
  | cons c cs ih =>
    rw [List.flatMap_cons, escapeChar_eq_replaced, ih, ← replaced_append]
    rfl

theorem toList_escape_eq_replaced (setting : Setting) (s : String) :
    (escape setting s).toList = replaced setting s.toList := by
  rw [toList_escape, flatMap_escapeChar]

theorem escape_eq_ofList_replaced (setting : Setting) (s : String) :
    escape setting s = String.ofList (replaced setting s.toList) := by
  rw [← toList_escape_eq_replaced, String.ofList_toList]

theorem unescape_cons {c : Char} (h : c ≠ '&') (cs : List Char) :
    unescape (c :: cs) = c :: unescape cs := by
  rw [unescape]
  all_goals
    intros
    contradiction

theorem unescape_escapeChar (setting : Setting) (c : Char) (cs : List Char) :
    unescape (escapeChar setting c ++ cs) = c :: unescape cs := by
  unfold escapeChar
  split
  · rfl
  · rfl
  · rfl
  · next hamp _ _ => exact unescape_cons hamp cs

theorem unescape_replaced (setting : Setting) (cs : List Char) :
    unescape (replaced setting cs) = cs := by
  rw [← flatMap_escapeChar]
  induction cs with
  | nil => rfl
  | cons c cs ih => rw [List.flatMap_cons, unescape_escapeChar, ih]

/-! ## Places of quotes -/

/-- The character at `q` is a quote that at least `hashes` many `#` follow. -/
def ClosesAt (hashes : Nat) (cs : List Char) (q : Nat) : Prop :=
  cs[q]? = some '\'' ∧ List.replicate hashes '#' <+: cs.drop (q + 1)

/-- The character at `p` is a quote that fewer than `hashes` bytes follow. -/
def CutAt (hashes : Nat) (cs : List Char) (p : Nat) : Prop :=
  cs[p]? = some '\'' ∧ bytes (cs.drop (p + 1)) < hashes

instance (hashes : Nat) (cs : List Char) (q : Nat) : Decidable (ClosesAt hashes cs q) :=
  inferInstanceAs (Decidable (_ ∧ _))

instance (hashes : Nat) (cs : List Char) (p : Nat) : Decidable (CutAt hashes cs p) :=
  inferInstanceAs (Decidable (_ ∧ _))

variable {hashes q : Nat} {cs : List Char}

theorem ClosesAt.lt_length (h : ClosesAt hashes cs q) : q < cs.length := by
  obtain ⟨hlt, _⟩ := List.getElem?_eq_some_iff.mp h.1
  exact hlt

theorem ClosesAt.eq_append (h : ClosesAt hashes cs q) :
    cs = cs.take q ++ '\'' :: (List.replicate hashes '#' ++ cs.drop (q + 1 + hashes)) := by
  obtain ⟨hlt, hquote⟩ := List.getElem?_eq_some_iff.mp h.1
  obtain ⟨tail, htail⟩ := h.2
  have hafter : cs.drop (q + 1 + hashes) = tail := by
    rw [← List.drop_drop, ← htail]
    exact List.drop_left' List.length_replicate
  calc cs = cs.take q ++ cs.drop q := (List.take_append_drop q cs).symm
    _ = cs.take q ++ '\'' :: cs.drop (q + 1) := by rw [List.drop_eq_getElem_cons hlt, hquote]
    _ = _ := by rw [hafter, htail]

theorem closesAt_append (front tail : List Char) :
    ClosesAt hashes (front ++ '\'' :: (List.replicate hashes '#' ++ tail)) front.length := by
  constructor
  · rw [List.getElem?_append_right (Nat.le_refl _), Nat.sub_self]
    rfl
  · rw [← List.drop_drop, List.drop_left]
    exact List.prefix_append _ _

/-- Before the first quote that closes, no delimiter stands. -/
theorem encloses_take (h : ∀ p < q, ¬ClosesAt hashes cs p) : Encloses hashes (cs.take q) := by
  rintro ⟨front, back, hinside⟩
  have hcs : cs = front ++ '\'' :: (List.replicate hashes '#' ++ (back ++ cs.drop q)) := by
    calc cs = cs.take q ++ cs.drop q := (List.take_append_drop q cs).symm
      _ = _ := by
        rw [← hinside]
        simp
  have hlt : front.length < q := by
    have hlength := congrArg List.length hinside
    simp only [List.length_append, List.length_cons, List.length_take] at hlength
    omega
  refine h front.length hlt ?_
  rw [hcs]
  exact closesAt_append front _

/-- Too few bytes are in the next characters only if too few are left at all. -/
theorem bytes_take_lt_iff {n : Nat} (cs : List Char) : bytes (cs.take n) < n ↔ bytes cs < n := by
  have hsplit : bytes (cs.take n) + bytes (cs.drop n) = bytes cs := by
    rw [← bytes_append, List.take_append_drop]
  constructor
  · intro h
    -- a character has a byte at least, so there are fewer than `n` of them
    have hlength := Reader.length_le_bytes (cs.take n)
    rw [List.length_take] at hlength
    have hall : cs.take n = cs := List.take_of_length_le (by omega)
    rwa [hall] at h
  · intro h
    omega

end Text

namespace Reader

/-! ## The scan -/

section Scan

variable {hashes : Nat} {done body : List Char}

theorem closeLiteral_of_closesAt {q : Nat} (hq : Text.ClosesAt hashes body q)
    (hfirst : ∀ p < q, ¬Text.ClosesAt hashes body p) :
    closeLiteral hashes [] body = .closed (body.take q) (body.drop (q + 1 + hashes)) := by
  have hclose := closeLiteral_enclosed (Text.encloses_take hfirst) [] (body.drop (q + 1 + hashes))
  rw [← hq.eq_append] at hclose
  exact hclose

theorem exists_closesAt {content rest : List Char}
    (h : closeLiteral hashes done body = .closed content rest) :
    ∃ q, Text.ClosesAt hashes body q := by
  obtain ⟨text, _, _, rfl⟩ := exists_enclosed h
  exact ⟨text.length, Text.closesAt_append text rest⟩

theorem exists_cutAt (h : closeLiteral hashes done body = .cut) :
    ∃ p, Text.CutAt hashes body p := by
  fun_induction closeLiteral hashes done body with
  | case1 => cases h
  | case2 done cs hbytes => exact ⟨0, rfl, (Text.bytes_take_lt_iff cs).mp hbytes⟩
  | case3 => cases h
  | case4 done cs hbytes hne ih =>
    obtain ⟨p, hp⟩ := ih h
    exact ⟨p + 1, hp⟩
  | case5 done c cs hc ih =>
    obtain ⟨p, hp⟩ := ih h
    exact ⟨p + 1, hp⟩

theorem not_cutAt (h : closeLiteral hashes done body = .unclosed) (p : Nat) :
    ¬Text.CutAt hashes body p := by
  -- the scan has passed every quote, so each of them had enough text after it
  fun_induction closeLiteral hashes done body generalizing p with
  | case1 =>
    rintro ⟨hquote, _⟩
    cases hquote
  | case2 => cases h
  | case3 => cases h
  | case4 done cs hbytes hne ih =>
    cases p with
    | zero => exact fun hcut => hbytes ((Text.bytes_take_lt_iff cs).mpr hcut.2)
    | succ p => exact ih h p
  | case5 done c cs hc ih =>
    cases p with
    | zero => exact fun hcut => hc (Option.some.inj hcut.1)
    | succ p => exact ih h p

/-- Where no quote closes, the scan stops early exactly if some quote is near the end. -/
theorem closeLiteral_of_not_closesAt (h : ∀ q, ¬Text.ClosesAt hashes body q) :
    closeLiteral hashes [] body = .cut ∧ (∃ p, Text.CutAt hashes body p)
      ∨ closeLiteral hashes [] body = .unclosed ∧ ∀ p, ¬Text.CutAt hashes body p := by
  cases hclose : closeLiteral hashes [] body with
  | closed content rest =>
    obtain ⟨q, hq⟩ := exists_closesAt hclose
    exact absurd hq (h q)
  | cut => exact .inl ⟨rfl, exists_cutAt hclose⟩
  | unclosed => exact .inr ⟨rfl, not_cutAt hclose⟩

end Scan

/-! ## Reading a literal -/

/-- How many `#` stand right ahead. -/
def hashes (r : Reader) : Nat :=
  (r.rest.takeWhile (· == '#')).length

theorem drop_hashes (r : Reader) : r.rest.drop r.hashes = r.rest.dropWhile (· == '#') := by
  have hsplit : r.rest = r.rest.takeWhile (· == '#') ++ r.rest.dropWhile (· == '#') :=
    List.takeWhile_append_dropWhile.symm
  calc r.rest.drop r.hashes
      = (r.rest.takeWhile (· == '#') ++ r.rest.dropWhile (· == '#')).drop r.hashes := by
        rw [← hsplit]
    _ = _ := List.drop_left

theorem literal?_of_quote {r : Reader} {body : List Char}
    (h : r.rest.drop r.hashes = '\'' :: body) :
    literal? r.rest = some (closeLiteral r.hashes [] body) := by
  rw [drop_hashes] at h
  rw [literal?, h]
  rfl

theorem literal?_of_no_quote {r : Reader} (h : (r.rest.drop r.hashes).head? ≠ some '\'') :
    literal? r.rest = none := by
  rw [drop_hashes] at h
  unfold literal?
  split
  · next body hbody =>
    rw [hbody] at h
    exact absurd rfl h
  · rfl

/--
What is read of a literal at `r`, which has read `front` of its fragment. `body` stands for the
text after the opening quote, and places are counted from there.
-/
structure ScansLiteral (fragments : List String) (front : List Char) (setting : Text.Setting)
    (r : Reader) : Prop where
  /-- Where no quote stands after the `#`, there is no literal. -/
  absent : (r.rest.drop r.hashes).head? ≠ some '\'' → r.escapedLiteral setting = .ok ("", r)
  /-- The first quote with as many `#` after it closes the literal. -/
  closed : ∀ body q, r.rest.drop r.hashes = '\'' :: body → Text.ClosesAt r.hashes body q →
    (∀ p < q, ¬Text.ClosesAt r.hashes body p) →
    ∃ text, r.escapedLiteral setting = .ok (text, r.withRest (body.drop (q + 1 + r.hashes)))
      ∧ text.toList = Text.replaced setting (body.take q)
      ∧ Text.unescape text.toList = body.take q
  /-- If no quote closes, one that is too near the end is a fault of the literal as a whole. -/
  cut : ∀ body, r.rest.drop r.hashes = '\'' :: body →
    (∀ q, ¬Text.ClosesAt r.hashes body q) → (∃ p, Text.CutAt r.hashes body p) →
    r.escapedLiteral setting = .error ⟨.stringLiteral, r⟩
      ∧ Failure.diagnostic ⟨.stringLiteral, r⟩ fragments =
        .place "E-STRING" "invalid string" r.index (Text.units front)
  /-- If there is none such either, the literal is left where it stands. -/
  unclosed : ∀ body, r.rest.drop r.hashes = '\'' :: body →
    (∀ q, ¬Text.ClosesAt r.hashes body q) → (∀ p, ¬Text.CutAt r.hashes body p) →
    r.escapedLiteral setting = .ok ("", r)

theorem escapedLiteral_closed {r : Reader} {content rest : List Char} (setting : Text.Setting)
    (h : literal? r.rest = some (.closed content rest)) :
    ∃ text, r.escapedLiteral setting = .ok (text, r.withRest rest)
      ∧ text.toList = Text.replaced setting content := by
  refine ⟨Text.escape setting (String.ofList content), ?_, ?_⟩
  · rw [escapedLiteral, literal, h]
  · rw [Text.toList_escape_eq_replaced, String.toList_ofList]

/-- **A literal is read exactly:** what is given back and where reading goes on depend on the
places of quotes and `#` ahead in this way and no other. -/
theorem scansLiteral {fragments : List String} {front : List Char} (setting : Text.Setting)
    (r : Reader) (h : fragmentText fragments r.index = front ++ r.rest) :
    r.ScansLiteral fragments front setting where
  absent := by
    intro hquote
    rw [escapedLiteral, literal, literal?_of_no_quote hquote]
    rfl
  closed := by
    intro body q hbody hq hfirst
    have hclosed := literal?_of_quote hbody
    rw [closeLiteral_of_closesAt hq hfirst] at hclosed
    obtain ⟨text, hread, htext⟩ := escapedLiteral_closed setting hclosed
    refine ⟨text, hread, htext, ?_⟩
    rw [htext, Text.unescape_replaced]
  cut := by
    intro body hbody hnone hcut
    rcases closeLiteral_of_not_closesAt hnone with ⟨hclose, _⟩ | ⟨_, huncut⟩
    · refine ⟨?_, place_eq _ _ h⟩
      rw [escapedLiteral, literal, literal?_of_quote hbody, hclose]
    · obtain ⟨p, hp⟩ := hcut
      exact absurd hp (huncut p)
  unclosed := by
    intro body hbody hnone huncut
    rcases closeLiteral_of_not_closesAt hnone with ⟨_, p, hp⟩ | ⟨hclose, _⟩
    · exact absurd hp (huncut p)
    · rw [escapedLiteral, literal, literal?_of_quote hbody, hclose]
      rfl

/-- A quote inside, with one `#` after it, where two are asked for; and a quote that has only
one byte after it. -/
theorem scansLiteral_two_hashes :
    fragmentText ["p\n  ##'it's <'#> & \"'## x"] 0 =
        "p\n  ".toList ++ "##'it's <'#> & \"'## x".toList
      ∧ (∃ text, escapedLiteral .running ⟨0, "##'it's <'#> & \"'## x".toList, [], 2, []⟩ =
          .ok (text, ⟨0, " x".toList, [], 2, []⟩)
        ∧ text.toList = "it's &lt;'#> &amp; \"".toList
        ∧ Text.unescape text.toList = "it's <'#> & \"".toList)
      ∧ fragmentText ["p", "é##'it's'#"] 1 = "é".toList ++ "##'it's'#".toList
      ∧ escapedLiteral .running ⟨1, "##'it's'#".toList, [], 0, []⟩ =
          .error ⟨.stringLiteral, ⟨1, "##'it's'#".toList, [], 0, []⟩⟩
      ∧ Failure.diagnostic ⟨.stringLiteral, ⟨1, "##'it's'#".toList, [], 0, []⟩⟩
          ["p", "é##'it's'#"] = .place "E-STRING" "invalid string" 1 1 := by
  have hclosed : fragmentText ["p\n  ##'it's <'#> & \"'## x"] 0 =
      "p\n  ".toList ++ "##'it's <'#> & \"'## x".toList := by decide +kernel
  have hcut : fragmentText ["p", "é##'it's'#"] 1 = "é".toList ++ "##'it's'#".toList := by
    decide +kernel
  have hbefore : ∀ q < 6, ¬Text.ClosesAt 2 "it's'#".toList q := by decide +kernel
  have hnone : ∀ q, ¬Text.ClosesAt 2 "it's'#".toList q :=
    fun q hq => hbefore q hq.lt_length hq
  refine ⟨hclosed, ?_, hcut, ?_⟩
  · exact (scansLiteral .running ⟨0, "##'it's <'#> & \"'## x".toList, [], 2, []⟩ hclosed).closed
      "it's <'#> & \"'## x".toList 13 (by decide +kernel) (by decide +kernel) (by decide +kernel)
  · exact (scansLiteral .running ⟨1, "##'it's'#".toList, [], 0, []⟩ hcut).cut "it's'#".toList
      (by decide +kernel) hnone ⟨4, by decide +kernel⟩

end Reader

end Stencil
