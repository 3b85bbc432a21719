import Stencil.Proofs.AroundRoot
import Stencil.Proofs.Columns
import Stencil.Proofs.StaticTree

/-!
# Nesting on one line

On one line it is the blanks that nest. The tag of a root lifts the indentation to
`inlineIndent`, so whatever follows it is deeper, with or without a blank. The tag of an element
inside that line does not: what comes after it counts as deeper only if a blank comes first.

So a template on one line is put inside another element by writing a tag and a blank in front of
it, if its own tag is followed by a blank or by nothing. Without the blank its content is left
beside its tag, and bindings there cannot be read at all (`compile_inline`).

The proof compares readers of the two templates. They are at the same symbols, and one is in the
column after the other's (`Shifted`), which is a lockstep as long as no line ends.
-/

namespace Stencil

namespace Reader

/-! ## One column on -/

/-- There are no line ends in the text. -/
def Flat (cs : List Char) : Prop :=
  '\n' ∉ cs ∧ '\r' ∉ cs

theorem Flat.mono {cs ds : List Char} (h : Flat ds) (hsub : cs ⊆ ds) : Flat cs :=
  ⟨fun hmem => h.1 (hsub hmem), fun hmem => h.2 (hsub hmem)⟩

/-- On one line every blank adds one to the indentation. -/
theorem Flat.measure_eq {cs : List Char} (h : Flat cs) (indent : Nat) :
    measure indent cs = (indent + (cs.takeWhile isBlank).length, cs.dropWhile isBlank) := by
  induction cs generalizing indent with
  | nil => rfl
  | cons c cs ih =>
    have hcs : Flat cs := h.mono (List.subset_cons_self c cs)
    by_cases hspace : c = ' ' ∨ c = '\t'
    · have hblank : isBlank c = true := by
        rcases hspace with rfl | rfl <;> rfl
      rw [measure, if_pos hspace, ih hcs, List.takeWhile_cons_of_pos hblank,
        List.dropWhile_cons_of_pos hblank, List.length_cons]
      congr 1
      omega
    · have hline : ¬ (c = '\n' ∨ c = '\r') := by
        rintro (rfl | rfl)
        · exact h.1 List.mem_cons_self
        · exact h.2 List.mem_cons_self
      have hblank : ¬ isBlank c = true := by
        simp only [not_or] at hspace hline
        simp [isBlank, hspace, hline]
      rw [measure, if_neg hspace, if_neg hline, List.takeWhile_cons_of_neg hblank,
        List.dropWhile_cons_of_neg hblank]
      rfl

/-- The second reader is the first one in the next column, on a line indented by `n` at least. -/
structure Shifted (n : Nat) (r r' : Reader) : Prop where
  eq : r' = { r with indent := r.indent + 1 }
  flat : ∀ f ∈ r.rest :: r.later, Flat f
  le : n ≤ r.indent

/-- Behind indentation `n`, what is deeper than the one is a column before what is deeper than the
other. -/
def SameDepth (n base base' : Nat) : Prop :=
  ∀ i, n ≤ i → (base < i ↔ base' < i + 1)

variable {n : Nat} {r r' s u u' : Reader}

theorem Shifted.withRest {cs : List Char} (h : Shifted n r r') (hsub : cs ⊆ r.rest) :
    Shifted n (r.withRest cs) (r'.withRest cs) := by
  obtain ⟨rfl, hflat, hle⟩ := h
  refine ⟨rfl, ?_, hle⟩
  rw [List.forall_mem_cons] at hflat ⊢
  exact ⟨hflat.1.mono hsub, hflat.2⟩

theorem Shifted.skipBlank (h : Shifted n r r') : Shifted n r.skipBlank r'.skipBlank := by
  obtain ⟨rfl, hflat, hle⟩ := h
  rw [List.forall_mem_cons] at hflat
  have hrest : Flat (r.rest.dropWhile isBlank) :=
    hflat.1.mono (List.dropWhile_sublist isBlank).subset
  refine ⟨?_, ?_, ?_⟩
  · unfold Reader.skipBlank
    dsimp only
    rw [hflat.1.measure_eq, hflat.1.measure_eq]
    congr 1
    omega
  · rw [Reader.skipBlank, hflat.1.measure_eq, List.forall_mem_cons]
    exact ⟨hrest, hflat.2⟩
  · rw [Reader.skipBlank, hflat.1.measure_eq]
    exact Nat.le_trans hle (Nat.le_add_right _ _)

/-- **Two columns of one line are in lockstep,** once the line is lifted. -/
theorem shifted_lockstep (hn : inlineIndent ≤ n) :
    Lockstep 0 Eq (Shifted n) (Shifted n) (SameDepth n) where
  sees h _ := by
    rw [h.eq]
  opens h hopens := by
    rwa [h.eq] at hopens
  char {r r' c cs} h _ hcs := by
    refine ⟨cs, ?_, h.withRest ?_⟩
    · rw [h.eq, hcs]
    · rw [hcs]
      exact List.subset_cons_self c cs
  expr {r r' s i} h hexpr := by
    obtain ⟨rfl, hflat, hle⟩ := h
    obtain ⟨index, rest, later, indent, asked⟩ := r
    obtain rfl : rest = [] := rest_of_takeExpr? hexpr
    cases later with
    | nil => cases hexpr
    | cons f later =>
      cases hexpr
      have hlater := (List.forall_mem_cons.mp hflat).2
      exact ⟨_, _, rfl, rfl, ⟨rfl, hlater, hle⟩, ⟨rfl, hlater, hle⟩⟩
  noExpr {r r'} h hnone := by
    rw [h.eq]
    obtain ⟨index, rest, later, indent, asked⟩ := r
    cases rest with
    | nil =>
      cases later with
      | nil => rfl
      | cons f later => cases hnone
    | cons c rest => rfl
  closed {r r' content rest} h hclosed _ := by
    refine ⟨rest, ?_, h.withRest (suffix_of_literal? hclosed).subset⟩
    rw [h.eq]
    exact hclosed
  indent h := by
    intro i _
    rw [h.eq]
    exact Nat.succ_lt_succ_iff.symm
  liftIndent h hs := by
    have hle := h.le
    rw [liftIndent, if_neg (by omega), liftIndent, if_neg (by rw [h.eq]; dsimp only; omega)]
    exact hs
  skipBlank := Shifted.skipBlank
  skipAgain := Shifted.skipBlank
  ended h hbase hend := by
    have hdepth := hbase _ h.le
    rw [h.eq]
    rcases hend with hindent | hdone
    · refine .inl ?_
      dsimp only
      omega
    · exact .inr hdone
  goesOn h hbase hend := by
    have hdepth := hbase _ h.le
    refine ⟨?_, h⟩
    rw [h.eq]
    exact hdepth.mp (Nat.lt_of_not_le fun hle => hend (.inl hle))

theorem shifted_equals : EqualsInStep 0 (Shifted n) := by
  intro r r' s h hequals _
  obtain ⟨cs, hcs, rfl⟩ := exists_of_equals? hequals
  have hsub : cs ⊆ r.rest := by
    rw [hcs]
    exact List.subset_cons_self _ _
  refine ⟨r'.withRest cs, ?_, h.withRest hsub⟩
  simp only [h.eq, equals?, hcs]

/-- A blank that is skipped lifts both above the column they started from. -/
theorem Shifted.skipBlank_of_startsBlank (h : Shifted n r r') (hblank : r.startsBlank = true) :
    Shifted (n + 1) r.skipBlank r'.skipBlank := by
  obtain ⟨heq, hflat, _⟩ := h.skipBlank
  refine ⟨heq, hflat, ?_⟩
  have hrest : Flat r.rest := h.flat _ List.mem_cons_self
  have hpos : 0 < (r.rest.takeWhile isBlank).length := by
    unfold startsBlank at hblank
    cases hcs : r.rest with
    | nil =>
      rw [hcs] at hblank
      cases hblank
    | cons c cs =>
      rw [hcs] at hblank
      have hc : isBlank c = true := hblank
      rw [List.takeWhile_cons_of_pos hc]
      exact Nat.succ_pos _
  have hle := h.le
  rw [Reader.skipBlank, hrest.measure_eq]
  dsimp only
  omega

/-! ## A tag and its class -/

theorem indent_of_classNames {names : List String} (h : r.classNames = .ok (names, s)) :
    s.indent = r.indent := by
  fun_induction classNames r generalizing names s with
  | case1 => cases h
  | case2 => cases h
  | case3 r cs hcs name t hname _ names u hu ih =>
    cases h
    rw [ih hu, indent_of_name? hname]
    rfl
  | case4 =>
    cases h
    rfl

theorem indent_of_classPart {cls : ClassPart} (h : r.classPart = .ok (cls, s)) :
    s.indent = r.indent := by
  unfold classPart at h
  split at h
  · rename_i i t ht
    cases h
    unfold takeExpr? at ht
    split at ht
    · cases ht
      rfl
    · cases ht
  · split at h
    · cases h
    · rename_i names t ht
      cases h
      exact indent_of_classNames ht

/-- A tag is read alike in any column. -/
theorem name?_withIndent {tag : String} (h : r.name? = some (tag, s)) (indent : Nat) :
    ({ r with indent } : Reader).name? = some (tag, { s with indent }) := by
  unfold name? lexeme? at h ⊢
  dsimp only
  split at h
  · rename_i c cs hcs
    rw [hcs]
    split at h
    · rename_i hc
      cases h
      exact if_pos hc
    · cases h
  · cases h

/-- The tag and the class of an element at `r` end at `u`. -/
def TagEnds (r : Reader) (tag : String) (u : Reader) : Prop :=
  ∃ s cls, r.name? = some (tag, s) ∧ (s.liftIndent r.indent).classPart = .ok (cls, u)

/-- Something follows without a blank. -/
def Glued (u : Reader) : Prop :=
  u.startsBlank = false ∧ ¬ (u.rest = [] ∧ u.later = [])

section Inner

variable {fits : Element → Bool} {tag : String} {cls : ClassPart}

/-- The same reader inside a line, in the column after a tag and a blank. -/
def inside (r : Reader) : Reader :=
  { r with indent := inlineIndent + 1 }

/-- Inside a line, the tag and the class are read like those of a root, one column on. -/
theorem exists_classPart_inside (hroot : r.indent = 0) (hflat : ∀ f ∈ r.rest :: r.later, Flat f)
    (hname : r.name? = some (tag, s)) (hcls : (s.liftIndent r.indent).classPart = .ok (cls, u)) :
    ∃ s' u', r.inside.name? = some (tag, s')
      ∧ (s'.liftIndent r.inside.indent).classPart = .ok (cls, u') ∧ Shifted inlineIndent u u' := by
  have hlift : s.liftIndent r.indent = { s with indent := inlineIndent } := by
    rw [liftIndent, hroot]
    exact if_pos (by decide)
  have hstay : ({ s with indent := inlineIndent + 1 } : Reader).liftIndent r.inside.indent =
      { s with indent := inlineIndent + 1 } := if_neg (by simp [inside])
  have hflat' : ∀ f ∈ s.rest :: s.later, Flat f := by
    have hreads := reads_of_lexeme? hname
    rw [List.forall_mem_cons] at hflat ⊢
    obtain ⟨f, hf, hsuffix⟩ := hreads.rest
    obtain rfl : r.rest = f := Option.some.inj hf
    have hlater : s.later = r.later := hreads.later
    rw [hlater]
    exact ⟨hflat.1.mono hsuffix.subset, hflat.2⟩
  have hshifted : Shifted inlineIndent (s.liftIndent r.indent)
      (({ s with indent := inlineIndent + 1 } : Reader).liftIndent r.inside.indent) := by
    rw [hlift, hstay]
    exact ⟨rfl, hflat', Nat.le_refl _⟩
  obtain ⟨cls', u', hcls', hmatch, hu⟩ :=
    (shifted_lockstep (Nat.le_refl inlineIndent)).classPart hshifted hcls
  obtain rfl : cls = cls' := hmatch.eq
  exact ⟨_, u', name?_withIndent hname _, hcls', hu⟩

/-- With a blank after its tag, an element can be moved into a line. -/
theorem element_inside_of_blank {e : Element} (hroot : r.indent = 0)
    (hflat : ∀ f ∈ r.rest :: r.later, Flat f) (hname : r.name? = some (tag, s))
    (hcls : (s.liftIndent r.indent).classPart = .ok (cls, u)) (hblank : u.startsBlank = true)
    (helement : r.element fits = .ok (e, r')) (hvoid : e.head.isVoid = false) :
    ∃ s', r.inside.element fits = .ok (e, s') ∧ s'.rest = [] ∧ s'.later = [] := by
  obtain ⟨t, hhead, hcontent⟩ := element_eq_ok_iff.mp helement
  obtain ⟨_, _, hname₁, hcls₁, hbs⟩ := head_eq_ok_iff.mp hhead
  obtain ⟨_, rfl⟩ := Prod.mk.inj (Option.some.inj (hname₁.symm.trans hname))
  obtain ⟨_, rfl⟩ := Prod.mk.inj (Except.ok.inj (hcls₁.symm.trans hcls))
  have hL := shifted_lockstep (n := inlineIndent + 1) (Nat.le_succ _)
  obtain ⟨v', u', hname', hcls', hu⟩ := exists_classPart_inside hroot hflat hname₁ hcls₁
  -- the root is less deep than anything on the line, and so is the column of the tag
  have hdepth : SameDepth (inlineIndent + 1) r.indent r.inside.indent := by
    intro i hi
    rw [hroot]
    simp only [inside]
    omega
  obtain ⟨t', hbs', ht⟩ := hL.same_bindings shifted_equals
    (hu.skipBlank_of_startsBlank hblank) hdepth hbs (Nat.zero_le _)
  have hhead' : r.inside.head = .ok (e.head, t') :=
    head_eq_ok_iff.mpr ⟨v', u', hname', hcls', hbs'⟩
  rcases hcontent with ⟨htrue, _⟩ | ⟨hfalse, hcontent⟩
  · exact Bool.noConfusion (hvoid.symm.trans htrue)
  · have hyields := content_eq_ok_iff.mp hcontent
    obtain ⟨s', hyields', hs⟩ :=
      hL.same_yields shifted_equals hyields (Nat.zero_le _) ht hdepth
    have hdone : r'.rest = [] ∧ r'.later = [] := by
      refine hyields.ends.resolve_left ?_
      have hle := hs.le
      omega
    refine ⟨s', element_eq_ok_iff.mpr ⟨t', hhead', .inr ⟨hfalse, hyields'.content_eq⟩⟩, ?_⟩
    rw [hs.eq]
    exact hdone

variable (fits) in
/-- Without a blank after its tag, an element in a line has nothing but its tag and class. -/
theorem element_inside_of_not_blank (hroot : r.indent = 0)
    (hflat : ∀ f ∈ r.rest :: r.later, Flat f) (hname : r.name? = some (tag, s))
    (hcls : (s.liftIndent r.indent).classPart = .ok (cls, u))
    (hvoid : tag ∉ voidTags) (hblank : u.startsBlank = false) :
    ∃ u', r.inside.element fits = .ok (⟨⟨tag, cls, []⟩, .nil⟩, u')
      ∧ Shifted inlineIndent u u' ∧ u'.skipBlank = u' := by
  obtain ⟨s', u', hname', hcls', hu⟩ := exists_classPart_inside hroot hflat hname hcls
  have hindent : u'.indent = inlineIndent + 1 := by
    rw [hu.eq, indent_of_classPart hcls, liftIndent, hroot]
    rfl
  have hskip : u'.skipBlank = u' := by
    refine skipBlank_of_not_startsBlank ?_
    rw [hu.eq]
    exact hblank
  have hended : u'.indent ≤ r.inside.indent := Nat.le_of_eq hindent
  have hhead : r.inside.head = .ok (⟨tag, cls, []⟩, u') := by
    refine head_eq_ok_iff.mpr ⟨s', u', hname', hcls', ?_⟩
    rw [hskip]
    exact bindings_nil (.inl hended)
  have hcontent : u'.content fits r.inside.indent = .ok (.nil, u') :=
    (Yields.ended (.inl hended)).content_eq
  exact ⟨u', element_eq_ok_iff.mpr ⟨u', hhead, .inr ⟨by simpa [Head.isVoid], hcontent⟩⟩, hu,
    hskip⟩

end Inner

/-! ## The element around -/

theorem ruleOf?_of_isNameStart {c : Char} (hc : isNameStart c = true) : ruleOf? c = none := by
  unfold ruleOf?
  split
  case h_7 => rfl
  all_goals cases hc

/-- The element that is written in front, up to where the template begins. -/
theorem head_div {c : Char} {cs : List Char} (hroot : r.indent = 0)
    (hrest : r.rest = "div ".toList ++ c :: cs) (hc : isNameStart c = true) :
    r.head = .ok (⟨"div", .names [], []⟩, (r.withRest (c :: cs)).inside) := by
  have hname : r.name? = some ("div", r.withRest (' ' :: c :: cs)) := by
    rw [name?, lexeme?, hrest]
    rfl
  have hlift : (r.withRest (' ' :: c :: cs)).liftIndent r.indent =
      { r.withRest (' ' :: c :: cs) with indent := inlineIndent } := by
    rw [liftIndent, hroot]
    exact if_pos (by decide)
  have hcls : ((r.withRest (' ' :: c :: cs)).liftIndent r.indent).classPart =
      .ok (.names [], { r.withRest (' ' :: c :: cs) with indent := inlineIndent }) := by
    rw [hlift, classPart, classNames_nil (by simp [withRest])]
    rfl
  have hstop : (c :: cs).takeWhile isBlank = [] := by
    refine List.takeWhile_cons_of_neg fun hblank => ?_
    exact Bool.noConfusion (hc.symm.trans (isNameStart_of_isBlank hblank))
  have hskip : ({ r.withRest (' ' :: c :: cs) with indent := inlineIndent } : Reader).skipBlank =
      (r.withRest (c :: cs)).inside := by
    have hmeasure : measure inlineIndent (' ' :: c :: cs) = (inlineIndent + 1, c :: cs) := by
      rw [measure, if_pos (.inl rfl), measure_stops hstop]
    simp only [skipBlank, withRest, hmeasure, inside]
  refine head_eq_ok_iff.mpr ⟨_, _, hname, hcls, ?_⟩
  rw [hskip]
  have hfirst : (r.withRest (c :: cs)).inside.rest = c :: cs := rfl
  refine bindings_nil (.inr ?_)
  rw [binding?_cons hfirst, ruleOf?_of_isNameStart hc]
  rfl

section Around

variable {fits : Element → Bool} {tag : String} {cls : ClassPart} {e : Element}

/-- A template in a line is the first thing in it. -/
theorem content_inside {c : Char} {cs : List Char} (hcs : r.rest = c :: cs)
    (hc : isNameStart c = true) :
    r.inside.content fits 0 = (r.inside.element fits).bind fun child =>
      if fits child.1 then
        (child.2.skipBlank.content fits 0).map fun more =>
          (.element child.1.head child.1.content more.1, more.2)
      else .error ⟨.templateSize, child.2⟩ := by
  have hrest : r.inside.rest = c :: cs := hcs
  refine content_of_element (Nat.succ_pos _) (literal_of_not_opens ?_) ?_
  · rw [hrest]
    exact not_opensLiteral_of_isNameStart hc
  · rw [hrest]
    exact List.cons_ne_nil c cs

variable (hroot : r.indent = 0) (hflat : ∀ f ∈ r.rest :: r.later, Flat f)
  (hname : r.name? = some (tag, s)) (hcls : (s.liftIndent r.indent).classPart = .ok (cls, u))
include hroot hflat hname hcls

/-- With a blank after the tag, all of the template is in one element. -/
theorem content_inside_of_blank (hblank : u.startsBlank = true)
    (helement : r.element fits = .ok (e, r')) (hvoid : e.head.isVoid = false) :
    (∃ s', r.inside.content fits 0 = .ok (.element e.head e.content .nil, s'))
      ∨ ∃ s', r.inside.content fits 0 = .error ⟨.templateSize, s'⟩ := by
  obtain ⟨c, cs, hcs, hc⟩ := exists_of_name? hname
  obtain ⟨t, hinside, hrest, hlater⟩ :=
    element_inside_of_blank hroot hflat hname hcls hblank helement hvoid
  rw [content_inside hcs hc, hinside, Except.bind]
  dsimp only
  by_cases hfits : fits e = true
  · have hend : t.skipBlank.rest = [] ∧ t.skipBlank.later = [] := by
      refine ⟨?_, hlater⟩
      rw [skipBlank, hrest]
      rfl
    rw [if_pos hfits, (Yields.ended (.inr hend)).content_eq]
    exact .inl ⟨_, rfl⟩
  · rw [if_neg hfits]
    exact .inr ⟨t, rfl⟩

/-- Without it, and with no binding next, the content of the template comes after its tag. -/
theorem content_inside_of_not_blank (hblank : u.startsBlank = false) (hbinding : u.binding? = none)
    (helement : r.element fits = .ok (e, r')) (hvoid : tag ∉ voidTags)
    (hfits : fits ⟨⟨tag, cls, []⟩, .nil⟩ = true) :
    e.head = ⟨tag, cls, []⟩ ∧ u.content fits 0 = .ok (e.content, r')
      ∧ ∃ s', r.inside.content fits 0 = .ok (.element e.head .nil e.content, s') := by
  obtain ⟨c, cs, hcs, hc⟩ := exists_of_name? hname
  obtain ⟨t, hhead, hcontent⟩ := element_eq_ok_iff.mp helement
  have hhead' : r.head = .ok (⟨tag, cls, []⟩, u) := by
    refine head_eq_ok_iff.mpr ⟨s, u, hname, hcls, ?_⟩
    rw [skipBlank_of_not_startsBlank hblank]
    exact bindings_nil (.inr hbinding)
  obtain ⟨hheads, rfl⟩ := Prod.mk.inj (Except.ok.inj (hhead.symm.trans hhead'))
  obtain ⟨u', hinside, hu, hskip⟩ :=
    element_inside_of_not_blank fits hroot hflat hname hcls hvoid hblank
  rcases hcontent with ⟨htrue, _⟩ | ⟨_, hcontent⟩
  · rw [hheads] at htrue
    exact absurd htrue (by simpa [Head.isVoid])
  · rw [hroot] at hcontent
    have hdepth : SameDepth inlineIndent 0 0 := fun i _ => by
      simp only [inlineIndent] at *
      omega
    obtain ⟨s', hyields, _⟩ := (shifted_lockstep (Nat.le_refl inlineIndent)).same_yields
      shifted_equals (content_eq_ok_iff.mp hcontent) (Nat.zero_le _) hu hdepth
    refine ⟨hheads, hcontent, s', ?_⟩
    rw [content_inside hcs hc, hinside, Except.bind]
    dsimp only
    rw [if_pos hfits, hskip, hyields.content_eq, hheads]
    rfl

/-- Where nothing follows the tag, it does not matter. -/
theorem content_inside_of_not_glued (hglued : ¬ u.Glued) (helement : r.element fits = .ok (e, r'))
    (hvoid : tag ∉ voidTags) (hfits : fits ⟨⟨tag, cls, []⟩, .nil⟩ = true) :
    (∃ s', r.inside.content fits 0 = .ok (.element e.head e.content .nil, s'))
      ∨ ∃ s', r.inside.content fits 0 = .error ⟨.templateSize, s'⟩ := by
  by_cases hblank : u.startsBlank = true
  · refine content_inside_of_blank hroot hflat hname hcls hblank helement ?_
    obtain ⟨_, hhead, _⟩ := element_eq_ok_iff.mp helement
    obtain ⟨_, _, hname', _⟩ := head_eq_ok_iff.mp hhead
    obtain ⟨htag, _⟩ := Prod.mk.inj (Option.some.inj (hname'.symm.trans hname))
    simpa [Head.isVoid, htag]
  · have hblank : u.startsBlank = false := by simpa using hblank
    have hend : u.rest = [] ∧ u.later = [] := by
      by_contra hmore
      exact hglued ⟨hblank, hmore⟩
    obtain ⟨_, hcontent, s', hinside⟩ := content_inside_of_not_blank hroot hflat hname hcls hblank
      (binding?_nil hend.1) helement hvoid hfits
    have hnil : e.content = .nil := by
      rw [(Yields.ended (.inr hend)).content_eq] at hcontent
      exact (Prod.mk.inj (Except.ok.inj hcontent)).1.symm
    rw [hnil] at hinside ⊢
    exact .inl ⟨s', hinside⟩

/-- A binding there is taken for an element, which it is not. -/
theorem content_inside_of_binding (hblank : u.startsBlank = false) (hbinding : u.binding? ≠ none)
    (hvoid : tag ∉ voidTags) (hfits : fits ⟨⟨tag, cls, []⟩, .nil⟩ = true) :
    ∃ s', r.inside.content fits 0 = .error ⟨.tagName, s'⟩ := by
  obtain ⟨c, cs, hcs, hc⟩ := exists_of_name? hname
  obtain ⟨u', hinside, hu, hskip⟩ :=
    element_inside_of_not_blank fits hroot hflat hname hcls hvoid hblank
  cases hds : u.rest with
  | nil => exact absurd (binding?_nil hds) hbinding
  | cons d ds =>
    rw [binding?_cons hds] at hbinding
    obtain ⟨rule, hrule⟩ : ∃ rule, ruleOf? d = some rule := by
      rw [← Option.ne_none_iff_exists']
      intro hnone
      exact hbinding (by rw [hnone]; rfl)
    have hrest : u'.rest = d :: ds := by
      rw [hu.eq]
      exact hds
    have hopens : ¬ OpensLiteral u'.rest := by
      obtain ⟨⟨_, hhash⟩, hquote⟩ := ne_of_isPlain (isPlain_and_isSign_of_ruleOf? hrule).1
      rw [hrest]
      rintro (hopens | hopens)
      · exact hhash (Option.some.inj hopens)
      · exact hquote (Option.some.inj hopens)
    have hstart : ∀ c ∈ u'.rest.head?, isNameStart c = false := by
      intro c hmem
      rw [hrest] at hmem
      obtain rfl : d = c := Option.some.inj hmem
      by_contra hc
      rw [ruleOf?_of_isNameStart (by simpa using hc)] at hrule
      cases hrule
    have hindent : 0 < u'.indent := by
      rw [hu.eq]
      exact Nat.succ_pos _
    refine ⟨u', ?_⟩
    rw [content_inside hcs hc, hinside, Except.bind]
    dsimp only
    rw [if_pos hfits, hskip,
      content_of_element hindent (literal_of_not_opens hopens) (by simp [hrest]),
      element_of_not_tag hstart]
    rfl

end Around

end Reader

/-! ## The markup -/

theorem Nodes.symbols_div (nodes : Nodes) :
    (element "div" [] nodes nil).symbols =
      Symbol.ofChars "<div>".toList ++ nodes.symbols ++ Symbol.ofChars "</div>".toList := by
  have hvoid : "div" ∉ voidTags := by decide
  simp [symbols, tokens, hvoid, Token.symbols, Token.body, Symbol.ofChars]

/-- The artifact has this markup, unless the template is too large. -/
def Outcome.Spells (outcome : Outcome) (symbols : List Symbol) : Prop :=
  (∃ a, outcome.result = .ok a ∧ a.template.symbols = symbols)
    ∨ ∃ d, outcome.result = .error d ∧ d.code = "E-SIZE"

theorem compile_spells {oracle : Oracle} (svg : Bool) {fragments : List String} {t : Template}
    {s : Reader} (hne : fragments ≠ [])
    (h : Template.read (Element.fits oracle) (Reader.ofFragments fragments) = .ok (t, s)) :
    (compile oracle svg fragments).Spells (t.root.tree oracle).symbols := by
  have hcompile := compile_of_read svg hne h
  split at hcompile
  · exact .inl ⟨_, hcompile, Element.symbols_skeleton oracle t.root⟩
  · exact .inr hcompile

section Around

variable {oracle : Oracle} {first : String} {more : List String}

/-- What is read of a template with a tag and a blank in front. -/
theorem Template.read_div (fits : Element → Bool) {tag : String} {s : Reader}
    (hname : (Reader.ofFragments (first :: more)).name? = some (tag, s)) :
    Template.read fits (Reader.ofFragments (("div " ++ first) :: more)) =
      ((Reader.ofFragments (first :: more)).inside.content fits 0).map fun c =>
        (⟨false, ⟨⟨"div", .names [], []⟩, c.1⟩⟩, c.2) := by
  obtain ⟨c, cs, hcs, hc⟩ := Reader.exists_of_name? hname
  have hrest : (Reader.ofFragments (("div " ++ first) :: more)).rest =
      "div ".toList ++ c :: cs := by
    rw [← hcs]
    exact String.toList_append
  have hinside : (Reader.ofFragments (("div " ++ first) :: more)).withRest (c :: cs) =
      Reader.ofFragments (first :: more) := by
    rw [← hcs]
    rfl
  have hroot : (Reader.ofFragments (("div " ++ first) :: more)).indent = 0 := rfl
  have hhead := Reader.head_div hroot hrest hc
  rw [hinside] at hhead
  rw [Template.read_of_options (Reader.options_of_rest hrest rfl (by decide)),
    Reader.element_of_head hhead (by decide), hroot]
  cases (Reader.ofFragments (first :: more)).inside.content fits 0 <;> rfl

/-- The new element has no markup of its own besides its tag. -/
theorem compile_div_of_ok (svg : Bool) {tag : String} {s s' : Reader} {c : Content}
    (hname : (Reader.ofFragments (first :: more)).name? = some (tag, s))
    (hcontent : (Reader.ofFragments (first :: more)).inside.content (Element.fits oracle) 0 =
      .ok (c, s')) :
    (compile oracle svg (("div " ++ first) :: more)).Spells
      (Nodes.element "div" [] (c.nodes oracle .nothing) .nil).symbols := by
  have hread : Template.read (Element.fits oracle)
      (Reader.ofFragments (("div " ++ first) :: more)) =
        .ok (⟨false, ⟨⟨"div", .names [], []⟩, c⟩⟩, s') := by
    rw [Template.read_div _ hname, hcontent]
    rfl
  have htree : Element.tree oracle ⟨⟨"div", .names [], []⟩, c⟩ =
      .element "div" [] (c.nodes oracle .nothing) .nil := rfl
  have hspells := compile_spells svg (List.cons_ne_nil _ _) hread
  rw [← htree]
  exact hspells

theorem compile_div_of_error (svg : Bool) {tag : String} {s : Reader} {failure : Failure}
    (hname : (Reader.ofFragments (first :: more)).name? = some (tag, s))
    (hcontent : (Reader.ofFragments (first :: more)).inside.content (Element.fits oracle) 0 =
      .error failure) :
    (compile oracle svg (("div " ++ first) :: more)).result =
      .error (failure.diagnostic (("div " ++ first) :: more)) := by
  refine compile_of_read_error svg (List.cons_ne_nil _ _) ?_
  rw [Template.read_div _ hname, hcontent]
  rfl

/-- A template that begins with its tag is read from there. -/
theorem Template.element_of_read {fits : Element → Bool} {r s u : Reader} {t : Template}
    {tag : String} (hname : r.name? = some (tag, s)) (hread : Template.read fits r = .ok (t, u)) :
    r.element fits = .ok (t.root, u) := by
  obtain ⟨c, cs, hcs, hc⟩ := Reader.exists_of_name? hname
  obtain ⟨v, hoptions, helement⟩ := Template.read_eq_ok_iff.mp hread
  have hblank : Reader.isBlank c = false := by
    by_contra hblank
    have hnot := Reader.isNameStart_of_isBlank (by simpa using hblank)
    exact Bool.noConfusion (hc.symm.trans hnot)
  have hminus : c ≠ '-' := by
    rintro rfl
    cases hc
  rw [Reader.options_of_rest hcs hblank hminus] at hoptions
  obtain ⟨_, rfl⟩ := Prod.mk.inj (Except.ok.inj hoptions)
  exact helement

end Around

/--
**On one line a blank nests.** A template on one line, with `div` and a blank in front of it,
becomes the content of the new element, if its own tag is followed by a blank or by nothing. If
something follows the tag without a blank, bindings are refused, and content comes after the tag
and not in it.
-/
theorem compile_inline {oracle : Oracle} {svg : Bool} {first : String} {more : List String}
    {tag : String} {u : Reader} {a : Artifact}
    (hflat : ∀ f ∈ first :: more, '\n' ∉ f.toList ∧ '\r' ∉ f.toList)
    (htag : (Reader.ofFragments (first :: more)).TagEnds tag u) (hvoid : tag ∉ voidTags)
    (h : (compile oracle svg (first :: more)).result = .ok a) :
    (¬ u.Glued → (compile oracle svg (("div " ++ first) :: more)).Spells
        (Symbol.ofChars "<div>".toList ++ a.template.symbols ++ Symbol.ofChars "</div>".toList))
      ∧ (u.Glued → u.binding? ≠ none →
        ∃ d, (compile oracle svg (("div " ++ first) :: more)).result = .error d ∧ d.code = "E-TAG")
      ∧ (u.Glued → u.binding? = none →
        ∃ attrs inner, a.template.symbols = (Nodes.element tag attrs inner .nil).symbols
          ∧ (compile oracle svg (("div " ++ first) :: more)).Spells
            (Nodes.element "div" [] (.element tag attrs .nil inner) .nil).symbols) := by
  obtain ⟨s, cls, hname, hcls⟩ := htag
  obtain ⟨_, t, r', hread, rfl, _⟩ := compile_eq_ok h
  have helement := Template.element_of_read hname hread
  have hflat' : ∀ f ∈ (Reader.ofFragments (first :: more)).rest ::
      (Reader.ofFragments (first :: more)).later, Reader.Flat f := by
    show ∀ f ∈ (first :: more).map String.toList, Reader.Flat f
    exact List.forall_mem_map.mpr hflat
  have hfits : Element.fits oracle ⟨⟨tag, cls, []⟩, .nil⟩ = true := rfl
  have hsymbols : (t.compiled oracle svg).template.symbols = (t.root.tree oracle).symbols :=
    Element.symbols_skeleton oracle t.root
  rw [hsymbols]
  refine ⟨fun hglued => ?_, fun hglued hbinding => ?_, fun hglued hbinding => ?_⟩
  · rw [← Nodes.symbols_div]
    rcases Reader.content_inside_of_not_glued rfl hflat' hname hcls hglued helement hvoid hfits with
      ⟨s', hcontent⟩ | ⟨s', hcontent⟩
    · exact compile_div_of_ok svg hname hcontent
    · exact .inr ⟨_, compile_div_of_error svg hname hcontent, rfl⟩
  · obtain ⟨s', hcontent⟩ :=
      Reader.content_inside_of_binding rfl hflat' hname hcls hglued.1 hbinding hvoid hfits
    exact ⟨_, compile_div_of_error svg hname hcontent, rfl⟩
  · obtain ⟨hhead, _, s', hcontent⟩ := Reader.content_inside_of_not_blank rfl hflat' hname hcls
      hglued.1 hbinding helement hvoid hfits
    obtain rfl : t.root.head.tag = tag := by rw [hhead]
    exact ⟨_, _, rfl, compile_div_of_ok svg hname hcontent⟩

/-- A text right after its tag is in it as long as the tag is the root, and beside it in a line. -/
theorem compile_inline_glued :
    ∃ u a, ((∀ f ∈ ["span'a'"], '\n' ∉ f.toList ∧ '\r' ∉ f.toList)
        ∧ (Reader.ofFragments ["span'a'"]).TagEnds "span" u ∧ "span" ∉ voidTags
        ∧ u.Glued ∧ u.binding? = none)
      ∧ (compile (fun _ => false) false ["span'a'"]).result = .ok a
      ∧ a.template.symbols = Symbol.ofChars "<span>a</span>".toList
      ∧ (compile (fun _ => false) false ["div span'a'"]).result.toOption.map (·.template.symbols) =
        some (Symbol.ofChars "<div><span></span>a</div>".toList)
      ∧ ∃ attrs inner, a.template.symbols = (Nodes.element "span" attrs inner .nil).symbols
        ∧ (compile (fun _ => false) false ["div span'a'"]).Spells
          (Nodes.element "div" [] (.element "span" attrs .nil inner) .nil).symbols := by
  generalize hu : ({ rest := "'a'".toList, later := [], indent := inlineIndent } : Reader) = u
  have hflat : ∀ f ∈ ["span'a'"], '\n' ∉ f.toList ∧ '\r' ∉ f.toList := by
    rw [List.forall_mem_singleton]
    decide
  have htag : (Reader.ofFragments ["span'a'"]).TagEnds "span" u := by
    refine ⟨{ rest := "'a'".toList, later := [] }, .names [], rfl, ?_⟩
    rw [← hu]
    decide +kernel
  have hvoid : "span" ∉ voidTags := by decide
  have hglued : u.Glued := by
    rw [← hu]
    exact ⟨rfl, by simp⟩
  have hbinding : u.binding? = none := by
    rw [← hu]
    rfl
  have hspan : (compile (fun _ => false) false ["span'a'"]).result.toOption.map
      (·.template.symbols) = some (Symbol.ofChars "<span>a</span>".toList) := by
    decide +kernel
  have hdiv : (compile (fun _ => false) false ["div span'a'"]).result.toOption.map
      (·.template.symbols) = some (Symbol.ofChars "<div><span></span>a</div>".toList) := by
    decide +kernel
  obtain ⟨a, ha, hspan⟩ := exists_of_toOption_map hspan
  exact ⟨u, a, ⟨hflat, htag, hvoid, hglued, hbinding⟩, ha, hspan, hdiv,
    (compile_inline hflat htag hvoid ha).2.2 hglued hbinding⟩

end Stencil
