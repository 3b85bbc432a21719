import Stencil.Proofs.Columns
import Stencil.Proofs.Fork
import Stencil.Proofs.Printed
import Stencil.Proofs.SplitTexts
import Stencil.Proofs.Storage

/-!
# A text in two literals

Two literals with a space between them are shown as one text. A template can therefore have a
text in one literal or in two, and only the walk tells which (`compile_split`): it takes a step
for each literal, although there is one node for both. The step shows if a node after the text
is saved in the same element.

The two templates part at the literal. Reading comes to it by a path of whole items and of
heads (`Reaches`), which both readers take together. After it they face the same text with the
second one a column further in. That this makes no difference to what is read there is a
premise, since otherwise the templates have different elements; a template that has a second
space after the one literal needs no premise, since it makes up for the column
(`compile_split_spaced`). From the end of the element on they are one reader again.
-/

namespace Stencil

/-- A text that is not empty, in quotes that enclose it. -/
structure Text.Quote where
  text : String
  hashes : Nat
  nonempty : text ≠ ""
  encloses : Text.Encloses hashes text.toList

namespace Text.Quote

/-- A text without quotes needs no `#`. -/
def plain (text : String) (hne : text ≠ "") (hquote : '\'' ∉ text.toList) : Text.Quote :=
  ⟨text, 0, hne, Text.encloses_zero hquote⟩

/-- How the literal is written. -/
def spelling (q : Text.Quote) : String :=
  String.ofList (Text.quoted q.hashes q.text.toList)

theorem spelling_plain {text : String} (hne : text ≠ "") (hquote : '\'' ∉ text.toList) :
    (plain text hne hquote).spelling = "'" ++ text ++ "'" := by
  refine String.toList_inj.mp ?_
  rw [spelling, String.toList_ofList]
  simp [plain, Text.quoted]

theorem literal_eq (q : Text.Quote) {r : Reader} {cs : List Char}
    (h : r.rest = q.spelling.toList ++ cs) : r.literal = .ok (q.text, r.withRest cs) := by
  have hclosed : Reader.literal? r.rest = some (.closed q.text.toList cs) := by
    rw [h, spelling, String.toList_ofList]
    exact Reader.literal?_eq_closed_iff.mpr ⟨q.hashes, q.encloses, rfl⟩
  rw [Reader.literal, hclosed]
  dsimp only
  rw [String.ofList_toList]

/-- In content the literal is a text, and content goes on after it. -/
theorem content_eq (q : Text.Quote) {fits : Element → Bool} {base : Nat} {r : Reader}
    {cs : List Char} (hindent : base < r.indent) (h : r.rest = q.spelling.toList ++ cs) :
    r.content fits base =
      ((r.withRest cs).skipBlank.content fits base).map fun more => (.text q.text more.1, more.2) :=
  Reader.content_of_literal hindent (q.literal_eq h) q.nonempty

theorem opensLiteral (q : Text.Quote) (cs : List Char) :
    Reader.OpensLiteral (q.spelling.toList ++ cs) := by
  rw [spelling, String.toList_ofList, Text.quoted]
  cases q.hashes with
  | zero => exact .inr rfl
  | succ n => exact .inl rfl

end Text.Quote

namespace Reader

variable {fits : Element → Bool} {r r' s t u : Reader} {outer base : Nat}

/-! ## The way to a place in content -/

/-- Content of an element at `outer` is read from `r`, and of one at `base` from `s` on. -/
inductive Reaches (fits : Element → Bool) : Nat → Reader → Nat → Reader → Prop where
  | here (base : Nat) (r : Reader) : Reaches fits base r base r
  | pastExpr {outer base i : Nat} {r s t : Reader} (hindent : outer < r.indent)
      (hexpr : r.takeExpr? = some (i, t)) (h : Reaches fits outer t.skipBlank base s) :
      Reaches fits outer r base s
  | pastText {outer base : Nat} {r s t : Reader} {text : String} (hindent : outer < r.indent)
      (hliteral : r.literal = .ok (text, t)) (htext : text ≠ "")
      (h : Reaches fits outer t.skipBlank base s) : Reaches fits outer r base s
  | pastElement {outer base : Nat} {r s t u : Reader} {e : Element} (hindent : outer < r.indent)
      (hliteral : r.literal = .ok ("", t)) (helement : t.element fits = .ok (e, u))
      (hfits : fits e = true) (h : Reaches fits outer u.skipBlank base s) :
      Reaches fits outer r base s
  | inside {outer base : Nat} {r s t u : Reader} {head : Head} (hindent : outer < r.indent)
      (hliteral : r.literal = .ok ("", t)) (hhead : t.head = .ok (head, u))
      (hvoid : head.isVoid = false) (h : Reaches fits t.indent u base s) :
      Reaches fits outer r base s

theorem Reaches.remaining_le (h : Reaches fits outer r base s) : s.remaining ≤ r.remaining := by
  induction h with
  | here => exact Nat.le_refl _
  | @pastExpr _ _ _ _ _ t _ hexpr _ ih =>
    have hblank := remaining_skipBlank_le t
    have hlt := remaining_of_takeExpr? hexpr
    omega
  | @pastText _ _ _ _ t _ _ hliteral _ _ ih =>
    have hblank := remaining_skipBlank_le t
    have hle := remaining_of_literal hliteral
    omega
  | @pastElement _ _ _ _ _ u _ _ hliteral helement _ _ ih =>
    have hblank := remaining_skipBlank_le u
    have hle := remaining_of_literal hliteral
    have hlt := remaining_of_element helement
    omega
  | inside _ hliteral hhead _ _ ih =>
    have hle := remaining_of_literal hliteral
    have hlt := remaining_of_head hhead
    omega

/--
The reader stands at a literal in the content of an element at `base`, with `tail` and the
fragments `later` after it. In the element comes `more`, also for a reader that is one column
further in.
-/
structure TextAt (fits : Element → Bool) (base : Nat) (literal : Text.Quote) (tail : List Char)
    (later : List (List Char)) (more : Content) (s : Reader) : Prop where
  rest : s.rest = literal.spelling.toList ++ tail
  later : s.later = later
  indent : base < s.indent
  more : ∀ extra ≤ 1, ∃ v,
    content fits base (skipBlank { s with rest := tail, indent := s.indent + extra }) =
      .ok (more, v)

/-- A literal that ends its line has no column that matters. -/
theorem textAt_of_line_end {literal : Text.Quote} {tail : List Char} {more : Content}
    (hrest : s.rest = literal.spelling.toList ++ tail) (hindent : base < s.indent)
    (hline : '\n' ∈ tail.takeWhile isBlank)
    (hmore : (s.withRest tail).skipBlank.content fits base = .ok (more, t)) :
    TextAt fits base literal tail s.later more s where
  rest := hrest
  later := rfl
  indent := hindent
  more extra _ := by
    refine ⟨t, ?_⟩
    rw [← hmore, skipBlank, skipBlank]
    dsimp only [withRest]
    rw [measure_of_line_end hline (s.indent + extra) s.indent]

/-! ## Splitting the text -/

/--
The reader stands at a literal as in `TextAt`, with `more` after it in the element. After two
literals, a column further in and before `tail'`, another reader is at the same place as this
one after its literal, and it reads `more` too.
-/
structure SplitAt (fits : Element → Bool) (base : Nat) (literal : Text.Quote)
    (tail tail' : List Char) (later : List (List Char)) (more : Content) (s : Reader) : Prop where
  rest : s.rest = literal.spelling.toList ++ tail
  later : s.later = later
  indent : base < s.indent
  place : SamePlace base (s.withRest tail).skipBlank
    (skipBlank { s with rest := tail', indent := s.indent + 1 })
  reads : ∃ v, (s.withRest tail).skipBlank.content fits base = .ok (more, v)
  reads' : ∃ v, content fits base (skipBlank { s with rest := tail', indent := s.indent + 1 }) =
    .ok (more, v)

theorem TextAt.splitAt {literal : Text.Quote} {tail : List Char} {later : List (List Char)}
    {more : Content} (h : TextAt fits base literal tail later more s) :
    SplitAt fits base literal tail tail later more s where
  rest := h.rest
  later := h.later
  indent := h.indent
  place := (SamePlace.deeper _ _ _ _ h.indent (Nat.lt_succ_of_lt h.indent)).skipBlank
  reads := h.more 0 (Nat.zero_le 1)
  reads' := h.more 1 (Nat.le_refl 1)

/-- A space is a column. -/
theorem skipBlank_withRest_space (r : Reader) (tail : List Char) :
    (r.withRest (' ' :: tail)).skipBlank =
      skipBlank { r with rest := tail, indent := r.indent + 1 } := by
  have hmeasure : measure r.indent (' ' :: tail) = measure (r.indent + 1) tail := by
    rw [measure, if_pos (.inl rfl)]
  unfold skipBlank withRest
  dsimp only
  rw [hmeasure]

/-- The space that is left out between the literals comes after the text. -/
theorem splitAt_of_space {literal : Text.Quote} {tail : List Char} {more : Content}
    (hrest : s.rest = literal.spelling.toList ++ ' ' :: tail) (hindent : base < s.indent)
    (hmore : (s.withRest (' ' :: tail)).skipBlank.content fits base = .ok (more, t)) :
    SplitAt fits base literal (' ' :: tail) tail s.later more s where
  rest := hrest
  later := rfl
  indent := hindent
  place := by
    rw [skipBlank_withRest_space]
    exact .same _
  reads := ⟨t, hmore⟩
  reads' := ⟨t, by rwa [skipBlank_withRest_space] at hmore⟩

/-- A text in one literal with `tail` after it, or in two with a space between them. -/
def splitFork (index : Nat) (whole first second : Text.Quote) (tail tail' : List Char)
    (later : List (List Char)) : Fork where
  index := index
  tail := whole.spelling.toList ++ tail
  later := later
  tail' := first.spelling.toList ++ ' ' :: (second.spelling.toList ++ tail')
  later' := later

/--
What is read instead of `c`, as far as `v`. One text is split, unless an element gets too large.
-/
def Splits (fits : Element → Bool) (more c : Content) (v : Reader)
    (result : Except Failure (Content × Reader)) : Prop :=
  ∃ c', Content.SplitsAt more c c' ∧
    ((∃ v', result = .ok (c', v') ∧ Rejoins v v') ∨
      ¬ c'.AllFit fits ∧ ∃ u, result = .error ⟨.templateSize, u⟩)

section Split

variable {index : Nat} {whole first second : Text.Quote} {tail tail' : List Char}
variable {later : List (List Char)} {more c : Content} {v : Reader}

theorem exists_of_map_eq_ok {α β : Type} {x : Except Failure α} {f : α → β} {b : β}
    (h : x.map f = .ok b) : ∃ a, x = .ok a ∧ f a = b := by
  cases x with
  | error failure => cases h
  | ok a => exact ⟨a, rfl, Except.ok.inj h⟩

theorem splitFork_alike (index : Nat) (whole first second : Text.Quote) (tail tail' : List Char)
    (later : List (List Char)) : (splitFork index whole first second tail tail' later).Alike :=
  .inr ⟨whole.opensLiteral tail, first.opensLiteral _⟩

/-- An item that is read before the text is the same in both. -/
theorem Splits.map {result : Except Failure (Content × Reader)} {item : Content → Content}
    (h : Splits fits more c v result)
    (hitem : ∀ {c'}, Content.SplitsAt more c c' → Content.SplitsAt more (item c) (item c'))
    (hfit : ∀ {c'}, (item c').AllFit fits → c'.AllFit fits) :
    Splits fits more (item c) v (result.map fun more => (item more.1, more.2)) := by
  obtain ⟨c', hsplits, ⟨v', rfl, hjoin⟩ | ⟨hunfit, w, rfl⟩⟩ := h
  · exact ⟨item c', hitem hsplits, .inl ⟨v', rfl, hjoin⟩⟩
  · exact ⟨item c', hitem hsplits, .inr ⟨fun h => hunfit (hfit h), w, rfl⟩⟩

/-- An element around the text has the content after it as before, or it gets too large. -/
theorem Splits.inside {result : Except Failure (Content × Reader)} {next : Content} {w : Reader}
    (head : Head) (h : Splits fits more c v result)
    (hnext : v.skipBlank.content fits outer = .ok (next, w)) :
    Splits fits more (.element head c next) w
      ((result.map fun inner => ((⟨head, inner.1⟩ : Element), inner.2)).bind fun child =>
        if fits child.1 then
          (child.2.skipBlank.content fits outer).map fun more =>
            (.element child.1.head child.1.content more.1, more.2)
        else .error ⟨.templateSize, child.2⟩) := by
  obtain ⟨c', hsplits, ⟨v', rfl, hjoin⟩ | ⟨hunfit, u, rfl⟩⟩ := h
  · refine ⟨.element head c' next, .inside head next hsplits, ?_⟩
    rw [Except.map, Except.bind]
    dsimp only
    split
    · obtain ⟨w', hnext', hjoin'⟩ := hjoin.skipBlank.content hnext
      rw [hnext']
      exact .inl ⟨w', rfl, hjoin'⟩
    · rename_i hunfit
      exact .inr ⟨fun hfit => hunfit hfit.1, v', rfl⟩
  · exact ⟨.element head c' next, .inside head next hsplits,
      .inr ⟨fun hfit => hunfit hfit.2.1, u, rfl⟩⟩

/-- The space between the literals is one column. -/
theorem skipBlank_space (q : Text.Quote) (r : Reader) (tail : List Char) :
    (r.withRest (' ' :: (q.spelling.toList ++ tail))).skipBlank =
      { r with rest := q.spelling.toList ++ tail, indent := r.indent + 1 } := by
  have hstop : (q.spelling.toList ++ tail).takeWhile isBlank = [] := by
    rcases q.opensLiteral tail with hopens | hopens
    all_goals
      obtain ⟨cs, hcs⟩ := List.head?_eq_some_iff.mp hopens
      rw [hcs]
      rfl
  rw [skipBlank_withRest_space, skipBlank]
  dsimp only
  rw [measure_stops hstop]

/-- Both read the text itself, and `more` after it. -/
theorem SplitAt.splits (htext : whole.text = first.text ++ second.text)
    (h : SplitAt fits base whole tail tail' later more r) (hc : r.content fits base = .ok (c, v)) :
    Splits fits more c v (content fits base
      (r.withRest (first.spelling.toList ++ ' ' :: (second.spelling.toList ++ tail')))) := by
  obtain ⟨w, hw⟩ := h.reads
  obtain ⟨w', hw'⟩ := h.reads'
  have hdeeper : base < r.indent + 1 := Nat.lt_succ_of_lt h.indent
  rw [whole.content_eq h.indent h.rest, hw] at hc
  cases hc
  have hjoin : Rejoins w w' :=
    (content_eq_ok_iff.mp hw).rejoins (content_eq_ok_iff.mp hw') h.place
  refine ⟨.text first.text (.text second.text more), ?_, .inl ⟨w', ?_, hjoin⟩⟩
  · rw [htext]
    exact .here first.text second.text
  · have hsecond : content fits base
        { r with rest := second.spelling.toList ++ tail', indent := r.indent + 1 } =
          .ok (.text second.text more, w') :=
      (second.content_eq hdeeper rfl).trans (congrArg _ hw')
    calc content fits base
          (r.withRest (first.spelling.toList ++ ' ' :: (second.spelling.toList ++ tail')))
        = (content fits base
            (r.withRest (' ' :: (second.spelling.toList ++ tail'))).skipBlank).map
              fun more => (.text first.text more.1, more.2) := first.content_eq h.indent rfl
      _ = .ok (.text first.text (.text second.text more), w') := by
          rw [skipBlank_space, hsecond]
          rfl

theorem SplitAt.bound_eq (h : SplitAt fits base whole tail tail' later more s) :
    (splitFork index whole first second tail tail' later).bound = s.remaining := by
  rw [Fork.bound, remaining, remaining, h.later, h.rest]
  rfl

/-- **On every way to the text,** what is read around it is the same in both. -/
theorem Reaches.splits (htext : whole.text = first.text ++ second.text)
    (hreach : Reaches fits outer r base s) (hs : SplitAt fits base whole tail tail' later more s)
    (h : (splitFork index whole first second tail tail' later).Before r r')
    (hc : r.content fits outer = .ok (c, v)) :
    Splits fits more c v (r'.content fits outer) := by
  have halike := splitFork_alike index whole first second tail tail' later
  have hR := Fork.inStep halike fun i _ => Eq.refl i
  have hbound : (splitFork index whole first second tail tail' later).bound = s.remaining :=
    hs.bound_eq
  -- along the way both readers stand before the text, so they read each item together
  induction hreach generalizing r' c v with
  | here base r =>
    have hr' := h.eq_of_rest hs.rest hs.later
    rw [hr', splitFork]
    dsimp only
    rw [← hs.later]
    exact hs.splits htext hc
  | @pastExpr outer base i r s t houter hexpr hreach ih =>
    obtain ⟨_, t', hexpr', rfl, ht, _⟩ := hR.expr h hexpr
    have houter' : outer < r'.indent := by rwa [hR.indent h]
    rw [content_of_takeExpr? houter hexpr] at hc
    rw [content_of_takeExpr? houter' hexpr']
    obtain ⟨⟨next, w⟩, hnext, hc⟩ := exists_of_map_eq_ok hc
    cases hc
    exact (ih hs (hR.skipBlank ht) hnext hbound).map (.pastExpr i) id
  | @pastText outer base r s t text houter hliteral hne hreach ih =>
    have hle := hreach.remaining_le
    have hblank := remaining_skipBlank_le t
    obtain ⟨t', hliteral', ht⟩ := hR.tokens.literal h hliteral (by omega) (.inl hne)
    have houter' : outer < r'.indent := by rwa [hR.indent h]
    rw [content_of_literal houter hliteral hne] at hc
    rw [content_of_literal houter' hliteral' hne]
    obtain ⟨⟨next, w⟩, hnext, hc⟩ := exists_of_map_eq_ok hc
    cases hc
    exact (ih hs (hR.skipBlank ht) hnext hbound).map (.pastText text) id
  | @pastElement outer base r s t u e houter hliteral helement hfits hreach ih =>
    have hle := hreach.remaining_le
    have hblank := remaining_skipBlank_le u
    have hlt := remaining_of_element helement
    obtain ⟨_, hhead, _⟩ := element_eq_ok_iff.mp helement
    obtain ⟨t', hliteral', ht⟩ :=
      hR.tokens.literal h hliteral (by omega) (.inr (not_opensLiteral_of_head hhead))
    obtain ⟨u', helement', hu⟩ := ht.element halike helement (by omega)
    have houter' : outer < r'.indent := by rwa [hR.indent h]
    have hrest := rest_ne_nil_of_element hliteral hhead
    rw [content_of_element houter hliteral hrest, helement, Except.bind, if_pos hfits] at hc
    rw [content_of_element houter' hliteral' (hR.rest_ne_nil h hrest), helement', Except.bind,
      if_pos hfits]
    obtain ⟨⟨next, w⟩, hnext, hc⟩ := exists_of_map_eq_ok hc
    cases hc
    exact (ih hs (hR.skipBlank hu) hnext hbound).map
      (.pastElement e.head e.content) fun hfit => hfit.2.2
  | @inside outer base r s t u head houter hliteral hhead hvoid hreach ih =>
    have hle := hreach.remaining_le
    have hlt := remaining_of_head hhead
    obtain ⟨t', hliteral', ht⟩ :=
      hR.tokens.literal h hliteral (by omega) (.inr (not_opensLiteral_of_head hhead))
    obtain ⟨u', hhead', hu⟩ := ht.head halike hhead (by omega)
    have houter' : outer < r'.indent := by rwa [hR.indent h]
    have hrest := rest_ne_nil_of_element hliteral hhead
    rw [content_of_element houter hliteral hrest, element_of_head hhead hvoid] at hc
    rw [content_of_element houter' hliteral' (hR.rest_ne_nil h hrest),
      element_of_head hhead' hvoid, hR.indent ht]
    cases hinner : u.content fits t.indent with
    | error failure =>
      rw [hinner] at hc
      cases hc
    | ok found =>
      obtain ⟨inner, w⟩ := found
      rw [hinner, Except.map, Except.bind] at hc
      split at hc
      case isFalse => cases hc
      obtain ⟨⟨next, x⟩, hnext, hc⟩ := exists_of_map_eq_ok hc
      cases hc
      exact (ih hs hu hinner hbound).inside head hnext

end Split

end Reader

/-! ## Templates -/

/-- A template that is read from `start` has content of an element at `base` from `s` on. -/
def Template.Reaches (fits : Element → Bool) (start : Reader) (base : Nat) (s : Reader) : Prop :=
  ∃ flag head t u, start.options = .ok (flag, t) ∧ t.head = .ok (head, u)
    ∧ head.isVoid = false ∧ Reader.Reaches fits t.indent u base s

theorem Template.Reaches.splits {fits : Element → Bool} {r r' s v : Reader} {base index : Nat}
    {whole first second : Text.Quote} {tail tail' : List Char} {later : List (List Char)}
    {more : Content} {t : Template} (htext : whole.text = first.text ++ second.text)
    (hreach : Template.Reaches fits r base s) (hs : s.SplitAt fits base whole tail tail' later more)
    (h : (Reader.splitFork index whole first second tail tail' later).Before r r')
    (hread : Template.read fits r = .ok (t, v)) :
    ∃ c', Content.SplitsAt more t.root.content c' ∧
      ((∃ v', Template.read fits r' = .ok (⟨t.disableCloning, t.root.head, c'⟩, v')) ∨
        ¬ c'.AllFit fits ∧ ∃ u, Template.read fits r' = .error ⟨.templateSize, u⟩) := by
  obtain ⟨flag, head, w, u, hoptions, hhead, hvoid, hpath⟩ := hreach
  have halike := Reader.splitFork_alike index whole first second tail tail' later
  have hR := Reader.Fork.inStep halike fun i _ => Eq.refl i
  have hbound : (Reader.splitFork index whole first second tail tail' later).bound ≤
      u.remaining := by
    rw [hs.bound_eq]
    exact hpath.remaining_le
  obtain ⟨w', hoptions', hw⟩ := hR.options h hoptions hhead
  obtain ⟨u', hhead', hu⟩ := hw.head halike hhead hbound
  rw [Template.read_of_options hoptions, Reader.element_of_head hhead hvoid] at hread
  obtain ⟨⟨root, v⟩, hroot, hread⟩ := Reader.exists_of_map_eq_ok hread
  cases hread
  obtain ⟨⟨c, v⟩, hcontent, hroot⟩ := Reader.exists_of_map_eq_ok hroot
  cases hroot
  obtain ⟨c', hsplits, hresult⟩ := hpath.splits htext hs hu hcontent
  refine ⟨c', hsplits, ?_⟩
  rw [Template.read_of_options hoptions', Reader.element_of_head hhead' hvoid, hR.indent hw]
  rcases hresult with ⟨v', hcontent', _⟩ | ⟨hunfit, x, hcontent'⟩
  · rw [hcontent']
    exact .inl ⟨v', rfl⟩
  · rw [hcontent']
    exact .inr ⟨hunfit, x, rfl⟩

/--
What the template with two literals compiles to, where the one with one literal compiles to `a`
and `more` comes after the text.
-/
def Artifact.SplitsInto (oracle : Oracle) (more : Content) (a : Artifact)
    (result : Except Diagnostic Artifact) : Prop :=
  (more.span oracle .afterText = 0 → result = .ok a) ∧
  (more.span oracle .afterText ≠ 0 →
    (∃ ops, result = .ok { a with stateOps := ops }
      ∧ StateOp.Detour a.stateOps ops ∧ ops ≠ a.stateOps) ∨
    (∃ d, result = .error d ∧ d.code = "E-SIZE")
      ∧ ∃ saves, .enter StateOp.maxCount saves ∈ a.stateOps)

section Split

variable {oracle : Oracle} {svg : Bool} {before after fragments split : List String}
variable {front tail : String} {whole first second : Text.Quote} {base : Nat} {s : Reader}
variable {more : Content} {a : Artifact}

theorem splitsInto_of_splitAt {gap : String} (htext : whole.text = first.text ++ second.text)
    (hwhole : fragments = before ++ (front ++ whole.spelling ++ gap ++ tail) :: after)
    (hsplit : split =
      before ++ (front ++ first.spelling ++ " " ++ second.spelling ++ tail) :: after)
    (hreach : Template.Reaches (Element.fits oracle) (Reader.ofFragments fragments) base s)
    (hs : s.SplitAt (Element.fits oracle) base whole (gap.toList ++ tail.toList) tail.toList
      (after.map String.toList) more)
    (h : (compile oracle svg fragments).result = .ok a) :
    a.SplitsInto oracle more (compile oracle svg split).result := by
  obtain ⟨_, ⟨flag, head, c⟩, r, hread, rfl, _⟩ := compile_eq_ok h
  have hfit := fits_of_compile h
  have hne : split ≠ [] := by simp [hsplit]
  have hstart : (Reader.splitFork before.length whole first second (gap.toList ++ tail.toList)
      tail.toList (after.map String.toList)).Before (Reader.ofFragments fragments)
        (Reader.ofFragments split) := by
    have hindex : before.length = (before.map String.toList).length := by simp
    have hchars : fragments.map String.toList = before.map String.toList ++
        (front.toList ++ (whole.spelling.toList ++ (gap.toList ++ tail.toList))) ::
          after.map String.toList := by
      simp [hwhole]
    have hchars' : split.map String.toList = before.map String.toList ++ (front.toList ++
        (first.spelling.toList ++ ' ' :: (second.spelling.toList ++ tail.toList))) ::
          after.map String.toList := by
      simp [hsplit]
    exact Reader.Fork.before_ofFragments hindex hchars hchars'
  have hallFit : c.AllFit (Element.fits oracle) := by
    have hpromises :=
      Template.read_promises (Element.fits oracle) (Reader.ofFragments fragments)
    rw [hread] at hpromises
    exact hpromises.2.2
  obtain ⟨c', hsplits, ⟨v', hread'⟩ | ⟨hunfit, u, hread'⟩⟩ := hreach.splits htext hs hstart hread
  · have hcompiled := Template.compiled_of_respells hsplits.respells oracle svg flag head
    have hresult := compile_of_read svg hne hread'
    dsimp only at hresult
    rw [hcompiled] at hresult
    have hresult := (if_pos hfit).mp hresult
    refine ⟨fun hnone => ?_, fun hsome => .inl ?_⟩
    · have hwalk : c'.walk oracle = c.walk oracle := hsplits.trim_steps_eq hnone .nothing
      rwa [hwalk] at hresult
    · obtain ⟨_, hdetour⟩ := hsplits.detour hsome .nothing
      exact ⟨_, hresult, hdetour, hdetour.ne⟩
  · refine ⟨fun hnone => absurd (hsplits.allFit hnone hallFit) hunfit, fun hsome => .inr ?_⟩
    exact ⟨compile_of_read_size hne hread',
      hsplits.mem_of_not_allFit hsome hallFit hunfit .nothing⟩

/--
**A space more makes up for the split.** Whatever comes after the text, also where the space
between the literals moves it out of an element, the template with two literals compiles as the
one that has a text in one literal and the space after it.
-/
theorem compile_split_spaced {t : Reader} (htext : whole.text = first.text ++ second.text)
    (hwhole : fragments = before ++ (front ++ whole.spelling ++ " " ++ tail) :: after)
    (hsplit : split =
      before ++ (front ++ first.spelling ++ " " ++ second.spelling ++ tail) :: after)
    (hreach : Template.Reaches (Element.fits oracle) (Reader.ofFragments fragments) base s)
    (hrest : s.rest = whole.spelling.toList ++ ' ' :: tail.toList)
    (hlater : s.later = after.map String.toList) (hindent : base < s.indent)
    (hmore : (s.withRest (' ' :: tail.toList)).skipBlank.content (Element.fits oracle) base =
      .ok (more, t))
    (h : (compile oracle svg fragments).result = .ok a) :
    a.SplitsInto oracle more (compile oracle svg split).result := by
  refine splitsInto_of_splitAt htext hwhole hsplit hreach ?_ h
  rw [← hlater]
  exact Reader.splitAt_of_space hrest hindent hmore

-- only in the last template is the `'x'` deeper than the `i`
example :
    let result text := (compile (fun _ => false) false [text]).result
    result "div\n 'a' 'b' i\n   'x'" = result "div\n 'ab'  i\n   'x'"
      ∧ result "div\n 'a' 'b' i\n   'x'" ≠ result "div\n 'ab' i\n   'x'" := by
  decide +kernel

end Split

/--
**A text in two literals is walked over twice.** In a template that compiles, take a text in
the content of an element, and write it as two literals with a space between them, which moves
nothing that comes after it on its line into another element. If no node after the text is saved
in the same element, then the artifact is the same. If one is, the artifact only has another
walk, with one step more on the way to that node; and an element that had as many steps
inside as can be counted gets too large.
-/
theorem compile_split {oracle : Oracle} {svg : Bool} {before after fragments split : List String}
    {front tail : String} {whole first second : Text.Quote} {base : Nat} {s : Reader}
    {more : Content} {a : Artifact} (htext : whole.text = first.text ++ second.text)
    (hwhole : fragments = before ++ (front ++ whole.spelling ++ tail) :: after)
    (hsplit : split =
      before ++ (front ++ first.spelling ++ " " ++ second.spelling ++ tail) :: after)
    (hreach : Template.Reaches (Element.fits oracle) (Reader.ofFragments fragments) base s)
    (hs : s.TextAt (Element.fits oracle) base whole tail.toList (after.map String.toList) more)
    (h : (compile oracle svg fragments).result = .ok a) :
    (more.span oracle .afterText = 0 → (compile oracle svg split).result = .ok a) ∧
    (more.span oracle .afterText ≠ 0 →
      (∃ ops, (compile oracle svg split).result = .ok { a with stateOps := ops }
        ∧ StateOp.Detour a.stateOps ops ∧ ops ≠ a.stateOps) ∨
      (∃ d, (compile oracle svg split).result = .error d ∧ d.code = "E-SIZE")
        ∧ ∃ saves, .enter StateOp.maxCount saves ∈ a.stateOps) := by
  have hwhole : fragments = before ++ (front ++ whole.spelling ++ "" ++ tail) :: after := by
    rw [hwhole, String.append_empty]
  exact splitsInto_of_splitAt htext hwhole hsplit hreach hs.splitAt h

/-- The node of `b` is the second one, but the walk has come to a third. -/
theorem compile_split_saved :
    ∃ a, (compile (fun _ => false) false ["div\n  'ab'\n  b :x=", ""]).result = .ok a
      ∧ a.stateOps = [.next false, .save]
      ∧ (compile (fun _ => false) false ["div\n  'a' 'b'\n  b :x=", ""]).result =
        .ok { a with stateOps := [.next false, .next false, .save] } := by
  have hab : "ab" ≠ "" ∧ '\'' ∉ "ab".toList := by decide
  have ha : "a" ≠ "" ∧ '\'' ∉ "a".toList := by decide
  have hb : "b" ≠ "" ∧ '\'' ∉ "b".toList := by decide
  generalize hf : ["div\n  'ab'\n  b :x=", ""] = fragments
  generalize hf' : ["div\n  'a' 'b'\n  b :x=", ""] = split
  have hwhole : fragments =
      [] ++ ("div\n  " ++ (Text.Quote.plain "ab" hab.1 hab.2).spelling ++ "\n  b :x=") :: [""] := by
    rw [Text.Quote.spelling_plain, ← hf]
    decide
  have hsplit : split =
      [] ++ ("div\n  " ++ (Text.Quote.plain "a" ha.1 ha.2).spelling ++ " "
        ++ (Text.Quote.plain "b" hb.1 hb.2).spelling ++ "\n  b :x=") :: [""] := by
    rw [Text.Quote.spelling_plain, Text.Quote.spelling_plain, ← hf']
    decide
  have hreach : Template.Reaches (Element.fits fun _ => false) (Reader.ofFragments fragments) 0
      { rest := "'ab'\n  b :x=".toList, later := [[]], indent := 2 } := by
    rw [← hf]
    refine ⟨false, ⟨"div", .names [], []⟩, _, _, rfl, ?_, rfl, .here 0 _⟩
    decide +kernel
  have hs : Reader.TextAt (Element.fits fun _ => false) 0 (Text.Quote.plain "ab" hab.1 hab.2)
      "\n  b :x=".toList [[]] (.element ⟨"b", .names [], [.named .attr "x" 0]⟩ .nil .nil)
      { rest := "'ab'\n  b :x=".toList, later := [[]], indent := 2 } := by
    have hmore : Reader.content (Element.fits fun _ => false) 0
        (Reader.withRest { rest := "'ab'\n  b :x=".toList, later := [[]], indent := 2 }
          "\n  b :x=".toList).skipBlank =
          .ok (.element ⟨"b", .names [], [.named .attr "x" 0]⟩ .nil .nil,
            { index := 1, rest := [], later := [], indent := 65537, asked := [0] }) := by
      decide +kernel
    refine Reader.textAt_of_line_end ?_ ?_ ?_ hmore
    · rw [Text.Quote.spelling_plain]
      decide
    · decide
    · decide
  have hwalk : (compile (fun _ => false) false fragments).result.toOption.map (·.stateOps) =
      some [.next false, .save] := by
    rw [← hf]
    decide +kernel
  have hwalk' : (compile (fun _ => false) false split).result.toOption.map (·.stateOps) =
      some [.next false, .next false, .save] := by
    rw [← hf']
    decide +kernel
  obtain ⟨a, hresult, hops⟩ := exists_of_toOption_map hwalk
  refine ⟨a, hresult, hops, ?_⟩
  have hsaved := (compile_split rfl hwhole hsplit hreach hs hresult).2 (by decide)
  rcases hsaved with ⟨ops, hresult', _⟩ | ⟨_, saves, hmem⟩
  · obtain rfl : ops = [.next false, .next false, .save] := by
      rw [hresult'] at hwalk'
      exact Option.some.inj hwalk'
    exact hresult'
  · rw [hops] at hmem
    simp at hmem

end Stencil
