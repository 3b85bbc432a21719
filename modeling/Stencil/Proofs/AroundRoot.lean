import Stencil.Proofs.Answers
import Stencil.Proofs.Fork
import Stencil.Proofs.SizeTest

/-!
# What stands around the root element

A template is its root element. In front of it there can be blank space and the option that
turns cloning off, and behind it anything at all.

The option changes one field of the artifact. Past the option and the blank space the reader is
the one that would stand there without the option (`Reader.options_flag`).

What comes after the root on a line of its own is not read. Two readers are compared, one in the
template that ends with its root and one in a template that goes on behind it. Before the end
nothing tells them apart (`Fork.Before`). Once blank space has been skipped at the end, the first
reader has nothing left to read and the second stands on a line that is not indented: content
ends there for both.
-/

namespace Stencil

namespace Reader

/-! ## In front of the root -/

theorem skipBlank_of_not_startsBlank {r : Reader} (h : r.startsBlank = false) :
    r.skipBlank = r := by
  have hstop : r.rest.takeWhile isBlank = [] := by
    refine (takeWhile_stops fun c hc => ?_).1
    rw [startsBlank, hc] at h
    simpa using h
  rw [skipBlank, measure_stops hstop]

theorem options_single {r : Reader} {c : Char} (h : r.rest = [c]) : r.options = .ok (false, r) := by
  rw [options, h]

/-- Without a minus sign there are no options, and blank space in front is skipped. -/
theorem options_of_ne_minus {r : Reader} {c d : Char} {cs : List Char} (h : r.rest = c :: d :: cs)
    (hminus : c ≠ '-') : r.options = .ok (false, r.skipBlank) := by
  rw [options, h]
  split
  · next heq => cases heq
  · next heq => cases heq
  · next heq => exact absurd (List.cons.inj heq).1 hminus
  · next heq => exact absurd (List.cons.inj heq).1 hminus
  · rfl

/-- Where the root begins right away, the reader stays. -/
theorem options_of_rest {r : Reader} {c : Char} {cs : List Char} (h : r.rest = c :: cs)
    (hblank : isBlank c = false) (hminus : c ≠ '-') : r.options = .ok (false, r) := by
  cases cs with
  | nil => exact options_single h
  | cons d cs =>
    rw [options_of_ne_minus h hminus, skipBlank_of_not_startsBlank]
    rw [startsBlank, h]
    exact hblank

/-- The option, and the blank space after it. -/
theorem options_flag {r s : Reader} {c : Char} {cs : List Char}
    (h : r.rest = '-' :: 'c' :: c :: cs) (hs : s = r.withRest (c :: cs))
    (hblank : isBlank c = true) : r.options = .ok (true, s.skipBlank) := by
  rw [options, h, hs]
  exact if_pos hblank

theorem isNameStart_of_isBlank {c : Char} (h : isBlank c = true) : isNameStart c = false := by
  have hcases : c = ' ' ∨ c = '\t' ∨ c = '\n' ∨ c = '\r' := by
    simpa [isBlank, or_assoc] using h
  rcases hcases with rfl | rfl | rfl | rfl <;> rfl

/-- Without the first character of a tag there is no element. -/
theorem element_of_not_tag {fits : Element → Bool} {r : Reader}
    (h : ∀ c ∈ r.rest.head?, isNameStart c = false) : r.element fits = .error ⟨.tagName, r⟩ := by
  have hname : r.name? = none := by
    unfold name? lexeme?
    split
    · rename_i c cs hcs
      rw [if_neg (by simp [h c (by rw [hcs]; rfl)])]
    · rfl
  rw [element_eq, head, hname]

end Reader

/-- Both outcomes are the same, but that the second artifact has cloning turned off and that a
diagnostic may be at another place in its fragment. -/
structure Outcome.SameButCloning (plain flagged : Outcome) : Prop where
  asked : flagged.asked = plain.asked
  notices : flagged.notices = plain.notices
  result :
    (∃ a, plain.result = .ok a ∧ a.disableCloning = false
      ∧ flagged.result = .ok { a with disableCloning := true })
    ∨ ∃ d d', plain.result = .error d ∧ flagged.result = .error d'
      ∧ d'.code = d.code ∧ d'.message = d.message ∧ d'.fragment = d.fragment

section Flag

variable {oracle : Oracle} {fragments fragments' : List String}

/-- The same fault in the same fragment is reported alike. -/
theorem compile_of_same_fault (svg : Bool) {fault : Fault} {r r' : Reader} (hne : fragments ≠ [])
    (hne' : fragments' ≠ [])
    (h : Template.read (Element.fits oracle) (Reader.ofFragments fragments) = .error ⟨fault, r⟩)
    (h' : Template.read (Element.fits oracle) (Reader.ofFragments fragments') = .error ⟨fault, r'⟩)
    (hindex : r'.index = r.index) (hasked : r'.asked = r.asked) :
    (compile oracle svg fragments).SameButCloning (compile oracle svg fragments') := by
  rw [compile_eq_of_failure svg hne h, compile_eq_of_failure svg hne' h']
  refine ⟨congrArg List.reverse hasked, rfl, .inr ⟨_, _, rfl, rfl, rfl, rfl, ?_⟩⟩
  exact congrArg Nat.toUInt32 hindex

/-- If the option is all that the readers do not share, so it is for the outcomes. -/
theorem compile_of_same_root (svg : Bool) {s : Reader} (hne : fragments ≠ [])
    (hne' : fragments' ≠ []) (h : (Reader.ofFragments fragments).options = .ok (false, s))
    (h' : (Reader.ofFragments fragments').options = .ok (true, s)) :
    (compile oracle svg fragments).SameButCloning (compile oracle svg fragments') := by
  have hread : Template.read (Element.fits oracle) _ = _ := Template.read_of_options h
  have hread' : Template.read (Element.fits oracle) _ = _ := Template.read_of_options h'
  cases hroot : s.element (Element.fits oracle) with
  | error failure =>
    rw [hroot] at hread hread'
    exact compile_of_same_fault svg hne hne' hread hread' rfl rfl
  | ok found =>
    obtain ⟨root, t⟩ := found
    rw [hroot] at hread hread'
    rw [compile_eq_of_read svg hne hread, compile_eq_of_read svg hne' hread']
    -- the counts, and so whether they fit, have nothing to do with the option
    have hsame : (Template.compiled oracle svg ⟨true, root⟩).fits =
        (Template.compiled oracle svg ⟨false, root⟩).fits := rfl
    by_cases hfits : (Template.compiled oracle svg ⟨false, root⟩).fits = true
    · rw [if_pos hfits, if_pos (hsame.trans hfits)]
      exact ⟨rfl, rfl, .inl ⟨_, rfl, rfl, rfl⟩⟩
    · rw [if_neg hfits, if_neg (hsame ▸ hfits)]
      exact ⟨rfl, rfl, .inr ⟨_, _, rfl, rfl, rfl, rfl, rfl⟩⟩

end Flag

/-- **The option turns cloning off and does nothing else.** -/
theorem compile_option (oracle : Oracle) (svg : Bool) {blank : String} (text : String)
    (fragments : List String) (hne : blank ≠ "")
    (hblank : ∀ c ∈ blank.toList, Reader.isBlank c = true) :
    (compile oracle svg ((blank ++ text) :: fragments)).SameButCloning
      (compile oracle svg (("-c" ++ blank ++ text) :: fragments)) := by
  obtain ⟨c, cs, hcs⟩ : ∃ c cs, blank.toList = c :: cs :=
    List.exists_cons_of_ne_nil fun hnil => hne (String.toList_eq_nil_iff.mp hnil)
  have hc : Reader.isBlank c = true := hblank c (by simp [hcs])
  have hminus : c ≠ '-' := by
    rintro rfl
    cases hc
  have hplain : (Reader.ofFragments ((blank ++ text) :: fragments)).rest =
      c :: (cs ++ text.toList) := by
    simp [Reader.ofFragments, hcs]
  have hflag : (Reader.ofFragments (("-c" ++ blank ++ text) :: fragments)).rest =
      '-' :: 'c' :: c :: (cs ++ text.toList) := by
    simp [Reader.ofFragments, hcs]
  have hoptions := Reader.options_flag (s := Reader.ofFragments ((blank ++ text) :: fragments))
    hflag (by simp [Reader.ofFragments, Reader.withRest, hcs]) hc
  cases hmore : cs ++ text.toList with
  | nil =>
    -- a single blank is not skipped without the option, and with it there is nothing left
    rw [hmore] at hplain
    have hnil : (Reader.ofFragments ((blank ++ text) :: fragments)).skipBlank.rest = [] := by
      rw [Reader.skipBlank, Reader.measure_eq, hplain]
      exact List.dropWhile_cons_of_pos hc
    have hread : Template.read (Element.fits oracle) _ = _ :=
      Template.read_of_options (Reader.options_single hplain)
    have hread' : Template.read (Element.fits oracle) _ = _ := Template.read_of_options hoptions
    rw [Reader.element_of_not_tag (by simp [hplain, Reader.isNameStart_of_isBlank hc])] at hread
    rw [Reader.element_of_not_tag (by simp [hnil])] at hread'
    exact compile_of_same_fault svg (List.cons_ne_nil _ _) (List.cons_ne_nil _ _) hread hread'
      rfl rfl
  | cons d ds =>
    rw [hmore] at hplain
    exact compile_of_same_root svg (List.cons_ne_nil _ _) (List.cons_ne_nil _ _)
      (Reader.options_of_ne_minus hplain hminus) hoptions

/-- The root stands on the line after the option, with an expression and an element in it. -/
theorem compile_option_nested :
    (" \n" ≠ "" ∧ ∀ c ∈ " \n".toList, Reader.isBlank c = true)
      ∧ (compile (· == 0) true ["-c \nsvg :width=", " b", "'x'"]).result.toOption.map
          Artifact.disableCloning = some true
      ∧ (compile (· == 0) true [" \nsvg :width=", " b", "'x'"]).SameButCloning
          (compile (· == 0) true ["-c \nsvg :width=", " b", "'x'"]) := by
  have hne : " \n" ≠ "" := by decide
  have hblank : ∀ c ∈ " \n".toList, Reader.isBlank c = true := by
    rintro c (_ | ⟨_, _ | ⟨_, ⟨⟩⟩⟩) <;> rfl
  refine ⟨⟨hne, hblank⟩, by decide +kernel, ?_⟩
  exact compile_option (· == 0) true "svg :width=" [" b", "'x'"] hne hblank

/-! ## Behind the root -/

namespace Reader

variable {index : Nat} {text : List Char} {later : List (List Char)} {r r' s : Reader}

/-- The end of a template, and a line behind it with what follows. -/
def endFork (index : Nat) (text : List Char) (later : List (List Char)) : Fork where
  index := index
  tail := []
  later := []
  tail' := '\n' :: text
  later' := later

/-- One reader has nothing left, and the other stands at the start of a line. -/
structure Outside (r r' : Reader) : Prop where
  rest : r.rest = []
  later : r.later = []
  indent : r'.indent = 0
  stops : r'.rest.takeWhile isBlank = []
  asked : r'.asked = r.asked

/-- Where blank space has been skipped, both are before the end or both are past it. -/
def Parts (k : Fork) (r r' : Reader) : Prop :=
  k.Before r r' ∧ (r.rest ≠ [] ∨ r.later ≠ []) ∨ Outside r r'

theorem Parts.asked (h : Parts (endFork index text later) r r') : r'.asked = r.asked := by
  rcases h with ⟨h, _⟩ | h
  · cases h <;> rfl
  · exact h.asked

/-- Blank space is measured to where it ends, which may be past the end of a text. -/
theorem measure_append (indent : Nat) (front cs : List Char) :
    (measure indent front).2 = []
        ∧ measure indent (front ++ cs) = measure (measure indent front).1 cs
      ∨ (measure indent front).2 ≠ []
        ∧ measure indent (front ++ cs) =
          ((measure indent front).1, (measure indent front).2 ++ cs) := by
  induction front generalizing indent with
  | nil => exact .inl ⟨rfl, rfl⟩
  | cons c front ih =>
    rw [List.cons_append, measure, measure]
    split
    · exact ih _
    · split
      · exact ih _
      · exact .inr ⟨List.cons_ne_nil _ _, rfl⟩

theorem before_end (front : List Char) (indent : Nat) (asked : List Nat) :
    (endFork index text later).Before ⟨index, front, [], indent, asked⟩
      ⟨index, front ++ '\n' :: text, later, indent, asked⟩ := by
  have hnil : front ++ (endFork index text later).tail = front := List.append_nil front
  have hhere := Fork.Before.here (k := endFork index text later) front indent asked
  rwa [hnil] at hhere

/-- Blank space up to the end takes both past it. -/
theorem Parts.of_before (hstops : text.takeWhile isBlank = [])
    (h : (endFork index text later).Before r r') :
    Parts (endFork index text later) r.skipBlank r'.skipBlank := by
  cases h with
  | ahead rest between front indent asked h =>
    exact .inl ⟨.ahead _ between front _ asked h, .inr (by simp [skipBlank])⟩
  | here front indent asked =>
    have hfirst : skipBlank ⟨index, front ++ [], [], indent, asked⟩ =
        ⟨index, (measure indent front).2, [], (measure indent front).1, asked⟩ := by
      rw [List.append_nil]
      rfl
    rcases measure_append indent front ('\n' :: text) with ⟨hend, hpast⟩ | ⟨hfront, hbefore⟩
    · -- the line break starts the count again
      have hline : measure indent (front ++ '\n' :: text) = (0, text) :=
        hpast.trans (measure_stops hstops 0)
      have hsecond : skipBlank ⟨index, front ++ '\n' :: text, later, indent, asked⟩ =
          ⟨index, text, later, 0, asked⟩ := by
        rw [skipBlank, hline]
      show Parts _ (skipBlank ⟨index, front ++ [], [], indent, asked⟩)
        (skipBlank ⟨index, front ++ '\n' :: text, later, indent, asked⟩)
      rw [hfirst, hsecond]
      exact .inr ⟨hend, rfl, rfl, hstops, rfl⟩
    · have hsecond : skipBlank ⟨index, front ++ '\n' :: text, later, indent, asked⟩ =
          ⟨index, (measure indent front).2 ++ '\n' :: text, later, (measure indent front).1,
            asked⟩ := by
        rw [skipBlank, hbefore]
      show Parts _ (skipBlank ⟨index, front ++ [], [], indent, asked⟩)
        (skipBlank ⟨index, front ++ '\n' :: text, later, indent, asked⟩)
      rw [hfirst, hsecond]
      exact .inl ⟨before_end _ _ _, .inl hfront⟩

/-- **Before the end and past it, readers are in lockstep.** -/
theorem endFork_lockstep (hstops : text.takeWhile isBlank = []) :
    Lockstep 0 Eq (endFork index text later).Before (Parts (endFork index text later)) Eq where
  sees h hc := by
    cases h with
    | here front =>
      cases front with
      | nil =>
        constructor
        · rintro ⟨⟩
          cases hc
        · rintro ⟨⟩
      | cons => exact Iff.rfl
    | ahead => exact Iff.rfl
  opens h hopens := by
    cases h with
    | here front =>
      cases front with
      | nil =>
        rcases hopens with hopens | hopens
        all_goals cases hopens
      | cons => exact hopens
    | ahead => exact hopens
  char h _ hcs := h.char (by simp [endFork]) hcs
  expr := Fork.Before.expr (fun i _ => Eq.refl i) (.inr rfl)
  noExpr := Fork.Before.noExpr (List.cons_ne_nil _ _)
  closed := Fork.Before.closed
  indent h := h.indent_eq.symm
  liftIndent h hs := by
    unfold liftIndent
    rw [h.indent_eq]
    split
    · exact hs.withIndent inlineIndent
    · exact hs
  skipBlank := Parts.of_before hstops
  skipAgain h := by
    rcases h with ⟨h, _⟩ | h
    · exact .of_before hstops h
    · refine .inr ⟨?_, h.later, ?_, ?_, h.asked⟩
      · rw [Reader.skipBlank, h.rest]
        rfl
      · rw [Reader.skipBlank, measure_stops h.stops]
        exact h.indent
      · rw [Reader.skipBlank, measure_stops h.stops]
        exact h.stops
  ended h hbase hend := by
    obtain rfl := hbase
    rcases h with ⟨h, hleft⟩ | h
    · rcases hend with hindent | ⟨hrest, hlater⟩
      · rw [← h.indent_eq] at hindent
        exact .inl hindent
      · exact absurd hleft (by simp [hrest, hlater])
    · exact .inl (by rw [h.indent]; exact Nat.zero_le _)
  goesOn h hbase hend := by
    obtain rfl := hbase
    rcases h with ⟨h, _⟩ | h
    · rw [h.indent_eq]
      exact ⟨Nat.lt_of_not_le fun hle => hend (.inl hle), h⟩
    · exact absurd (.inr ⟨h.rest, h.later⟩) hend

/-- What is read before the end is read as well if the template goes on. -/
theorem read_of_endFork {fits : Element → Bool} {t : Template} {c : Char} {cs : List Char}
    (hstops : text.takeWhile isBlank = []) (h : (endFork index text later).Before r r')
    (hcs : r.rest = c :: cs) (hblank : isBlank c = false) (hminus : c ≠ '-')
    (hread : Template.read fits r = .ok (t, s)) :
    ∃ s', Template.read fits r' = .ok (t, s') ∧ s'.asked = s.asked := by
  obtain ⟨u, hoptions, helement⟩ := Template.read_eq_ok_iff.mp hread
  obtain ⟨hflag, rfl⟩ :=
    Prod.mk.inj (Except.ok.inj ((options_of_rest hcs hblank hminus).symm.trans hoptions))
  obtain ⟨cs', hcs', _⟩ := h.char (by simp [endFork]) hcs
  obtain ⟨s', helement', hs⟩ :=
    (endFork_lockstep hstops).same_element Fork.equalsInStep h helement (Nat.zero_le _)
  have hoptions' := options_of_rest hcs' hblank hminus
  rw [hflag] at hoptions'
  exact ⟨s', Template.read_eq_ok_iff.mpr ⟨r', hoptions', helement'⟩, hs.asked⟩

theorem before_ofFragments_end (front : List String) (last text : String) (more : List String) :
    (endFork front.length text.toList (more.map String.toList)).Before
      (ofFragments (front ++ [last]))
      (ofFragments (front ++ (last ++ "\n" ++ text) :: more)) := by
  have hends : (front ++ [last]).map String.toList =
      front.map String.toList ++ [last.toList ++ []] := by simp
  have hgoes : (front ++ (last ++ "\n" ++ text) :: more).map String.toList =
      front.map String.toList ++
        (last.toList ++ '\n' :: text.toList) :: more.map String.toList := by simp
  exact Fork.before_ofFragments (List.length_map _).symm hends hgoes

theorem rest_ofFragments (fragments : List String) :
    (ofFragments fragments).rest = fragmentText fragments 0 := by
  cases fragments <;> rfl

/-- There is an expression between each two fragments and no other. -/
theorem Reads.lt_of_mem_asks {fragments : List String} {exprs asks : List Nat}
    (h : Reads (ofFragments fragments) s exprs asks) : ∀ i ∈ asks, i < fragments.length - 1 := by
  have hindex : (ofFragments fragments).index = 0 := by cases fragments <;> rfl
  have hlater : (ofFragments fragments).later.length = fragments.length - 1 := by
    cases fragments <;> simp [ofFragments]
  intro i hi
  have hlength := h.length_le
  have htaken := h.sublist.subset hi
  rw [h.consecutive, List.mem_range'_1] at htaken
  omega

end Reader

/--
**What stands behind the root element is not read.** The text on the line behind it and the
fragments after that can be anything, also no template at all, and the oracle is not asked about
any expression among them.
-/
theorem compile_behindRoot {o o' : Oracle} {svg : Bool} {front : List String} {last text : String}
    (more : List String) {c : Char} {cs : List Char} {a : Artifact}
    (hstart : fragmentText (front ++ [last]) 0 = c :: cs) (hblank : Reader.isBlank c = false)
    (hminus : c ≠ '-') (htext : ∀ d ∈ text.toList.head?, Reader.isBlank d = false)
    (hagree : ∀ i < front.length, o' i = o i)
    (h : (compile o svg (front ++ [last])).result = .ok a) :
    (compile o' svg (front ++ (last ++ "\n" ++ text) :: more)).result = .ok a
      ∧ (compile o' svg (front ++ (last ++ "\n" ++ text) :: more)).asked =
        (compile o svg (front ++ [last])).asked := by
  have hfits := fits_of_compile h
  obtain ⟨hne, t, s, hread, rfl, hasked⟩ := compile_eq_ok h
  have hstops : text.toList.takeWhile Reader.isBlank = [] := by
    refine (Reader.takeWhile_stops fun d hd => ?_).1
    simp [htext d hd]
  obtain ⟨s', hread', hsame⟩ := Reader.read_of_endFork hstops
    (Reader.before_ofFragments_end front last text more)
    ((Reader.rest_ofFragments _).trans hstart) hblank hminus hread
  have hanswers : ∀ i ∈ t.root.asked, o' i = o i := by
    have hpromises := Template.read_promises (Element.fits o) (Reader.ofFragments (front ++ [last]))
    rw [hread] at hpromises
    intro i hi
    have hlt := hpromises.1.lt_of_mem_asks i hi
    rw [List.length_append] at hlt
    exact hagree i hlt
  have hread' := Template.read_congr hanswers hread'
  have hcompiled := Template.compiled_congr hanswers svg
  rw [compile_eq_of_read svg (by simp) hread', hcompiled, if_pos hfits, hasked, hsame]
  exact ⟨rfl, rfl⟩

/-- Neither what follows is a template, nor do the oracles agree on its expressions. -/
theorem compile_behindRoot_malformed :
    (fragmentText (["div :a="] ++ ["\n  p 'x'"]) 0 = 'd' :: "iv :a=".toList
        ∧ Reader.isBlank 'd' = false ∧ 'd' ≠ '-'
        ∧ (∀ d ∈ "p @@ 'y".toList.head?, Reader.isBlank d = false)
        ∧ ∀ i < ["div :a="].length, (i == 0) = true)
      ∧ ∃ a, (compile (fun _ => true) false (["div :a="] ++ ["\n  p 'x'"])).result = .ok a
        ∧ a.exprs = []
        ∧ (compile (· == 0) false
          (["div :a="] ++ ("\n  p 'x'" ++ "\n" ++ "p @@ 'y") :: ["#'", "*"])).result = .ok a
        ∧ (compile (· == 0) false
          (["div :a="] ++ ("\n  p 'x'" ++ "\n" ++ "p @@ 'y") :: ["#'", "*"])).asked = [0] := by
  have hstart : fragmentText (["div :a="] ++ ["\n  p 'x'"]) 0 = 'd' :: "iv :a=".toList := rfl
  have htext : ∀ d ∈ "p @@ 'y".toList.head?, Reader.isBlank d = false := by
    rintro d ⟨⟩
    rfl
  have hagree : ∀ i < ["div :a="].length, (i == 0) = true := by decide
  refine ⟨⟨hstart, rfl, by decide, htext, hagree⟩, ?_⟩
  have hexprs : (compile (fun _ => true) false (["div :a="] ++ ["\n  p 'x'"])).result.toOption.map
      Artifact.exprs = some [] := by
    decide +kernel
  have hasked : (compile (fun _ => true) false (["div :a="] ++ ["\n  p 'x'"])).asked = [0] := by
    decide +kernel
  obtain ⟨a, ha, hexprs⟩ := exists_of_toOption_map hexprs
  have hbehind := compile_behindRoot ["#'", "*"] hstart rfl (by decide) htext hagree ha
  rw [hasked] at hbehind
  exact ⟨a, ha, hexprs, hbehind⟩

end Stencil
