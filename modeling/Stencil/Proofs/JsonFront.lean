import Stencil.Proofs.JsonText

/-!
# What reading a value uses up

A reader takes something off the front of a text and leaves the rest. Two things are shown of
every reader of JSON. What it takes has no NUL in it. And as long as something is left, it
takes the same if there is more text behind: it looks at most at one character of the rest.

A number may go on in the text behind it, and so the second is not true of a number at the
very end. An object or an array ends with its own closing character. So no text that begins
with one and goes on is read both in full and up to an earlier end.
-/

namespace Stencil.Json

/-! ## Fronts -/

/-- `rest` is left of `s` behind something without a NUL. -/
def Uses (s rest : List Char) : Prop :=
  ∃ front, s = front ++ rest ∧ '\x00' ∉ front

namespace Uses

variable {s t u : List Char}

theorem refl (s : List Char) : Uses s s :=
  ⟨[], rfl, List.not_mem_nil⟩

theorem trans (h : Uses s t) (h' : Uses t u) : Uses s u := by
  obtain ⟨front, rfl, hfront⟩ := h
  obtain ⟨more, rfl, hmore⟩ := h'
  exact ⟨front ++ more, (List.append_assoc ..).symm, by simp [hfront, hmore]⟩

theorem cons {c : Char} (h : c ≠ '\x00') (s : List Char) : Uses (c :: s) s :=
  ⟨[c], rfl, by simpa using h.symm⟩

theorem ne_nil (h : Uses s t) (ht : t ≠ []) : s ≠ [] := by
  obtain ⟨front, rfl, _⟩ := h
  simp [ht]

theorem dropWhile {p : Char → Bool} (h : p '\x00' = false) (s : List Char) :
    Uses s (s.dropWhile p) := by
  refine ⟨s.takeWhile p, List.takeWhile_append_dropWhile.symm, fun hmem => ?_⟩
  rw [List.mem_takeWhile_imp hmem] at h
  cases h

end Uses

theorem uses_skipBlank (s : List Char) : Uses s (skipBlank s) :=
  .dropWhile rfl s

theorem uses_of_skipBlank {s t : List Char} {c : Char} (h : skipBlank s = c :: t)
    (hc : c ≠ '\x00') : Uses s t :=
  (h ▸ uses_skipBlank s).trans (.cons hc t)

theorem dropWhile_append_of_ne_nil {p : Char → Bool} {s : List Char} (h : s.dropWhile p ≠ [])
    (more : List Char) : (s ++ more).dropWhile p = s.dropWhile p ++ more := by
  rw [List.dropWhile_append, if_neg (by simpa using h)]

theorem skipBlank_append {s t : List Char} {c : Char} (h : skipBlank s = c :: t)
    (more : List Char) : skipBlank (s ++ more) = c :: (t ++ more) := by
  have hne : s.dropWhile isBlank ≠ [] := by
    rw [← skipBlank, h]
    simp
  rw [skipBlank, dropWhile_append_of_ne_nil hne, ← skipBlank, h, List.cons_append]

/-- A reader takes this off the front of `s`, and also if there is more text behind, provided
that something is left or that it need not look at what is left. -/
structure Stays {α : Type} (read? : List Char → Option (α × List Char)) (needsRest : Bool)
    (s : List Char) (a : α) (rest : List Char) : Prop where
  uses : Uses s rest
  more : (needsRest = true → rest ≠ []) → ∀ more, read? (s ++ more) = some (a, rest ++ more)

/-! ## Numbers -/

section Numbers

variable {s ds rest : List Char}

theorem stays_of_digits? (h : digits? s = some (ds, rest)) : Stays digits? true s ds rest := by
  unfold digits? at h
  split at h
  · cases h
  · rename_i d ds' htake
    obtain ⟨rfl, rfl⟩ := Prod.mk.inj (Option.some.inj h)
    refine ⟨.dropWhile rfl s, fun hrest more => ?_⟩
    have hne := hrest rfl
    have hdrop := dropWhile_append_of_ne_nil hne more
    have htaken : (s ++ more).takeWhile Char.isDigit = s.takeWhile Char.isDigit := by
      have hall : s ≠ s.takeWhile Char.isDigit := fun hall => by
        have hparts := List.takeWhile_append_dropWhile (p := Char.isDigit) (l := s)
        rw [← hall] at hparts
        exact hne (List.append_right_eq_self.mp hparts)
      rw [List.takeWhile_append, if_neg]
      intro hlength
      exact hall ((List.takeWhile_prefix _).eq_of_length hlength).symm
    rw [digits?, htaken, htake, hdrop]

theorem stays_of_whole? (h : whole? s = some (ds, rest)) : Stays whole? true s ds rest := by
  unfold whole? at h
  split at h
  · obtain ⟨rfl, rfl⟩ := Prod.mk.inj (Option.some.inj h)
    exact ⟨.cons (by decide) _, fun _ _ => rfl⟩
  · rename_i hzero
    have hdigits := stays_of_digits? h
    refine ⟨hdigits.uses, fun hrest more => ?_⟩
    rw [← hdigits.more hrest more]
    unfold whole?
    split
    · rename_i tail heq
      cases s with
      | nil => cases h
      | cons c s => exact absurd (List.cons.inj heq).1 fun hc => hzero s (by rw [hc])
    · rfl

theorem stays_of_fraction? (h : fraction? s = some (ds, rest)) :
    Stays fraction? true s ds rest := by
  unfold fraction? at h
  split at h
  · obtain ⟨⟨ds', rest'⟩, hdigits, heq⟩ := Option.map_eq_some_iff.mp h
    obtain ⟨rfl, rfl⟩ := Prod.mk.inj heq
    have hstays := stays_of_digits? hdigits
    refine ⟨(Uses.cons (by decide) _).trans hstays.uses, fun hrest more => ?_⟩
    rw [List.cons_append, fraction?, hstays.more hrest more]
    rfl
  · rename_i hpoint
    obtain ⟨rfl, rfl⟩ := Prod.mk.inj (Option.some.inj h)
    refine ⟨.refl s, fun hrest more => ?_⟩
    cases s with
    | nil => exact absurd rfl (hrest rfl)
    | cons c s =>
      unfold fraction?
      split
      · rename_i heq
        exact absurd (congrArg (· :: s) (List.cons.inj heq).1) (hpoint s)
      · rfl

theorem exponentSign_append (h : s ≠ []) (more : List Char) :
    exponentSign (s ++ more) = ((exponentSign s).1, (exponentSign s).2 ++ more) := by
  cases s with
  | nil => exact absurd rfl h
  | cons c s =>
    by_cases hplus : c = '+'
    · subst hplus
      rfl
    by_cases hminus : c = '-'
    · subst hminus
      rfl
    have hplain : ∀ t, exponentSign (c :: t) = ([], c :: t) := fun t => by
      unfold exponentSign
      split
      · exact absurd (List.cons.inj ‹_›).1 hplus
      · exact absurd (List.cons.inj ‹_›).1 hminus
      · rfl
    rw [List.cons_append, hplain, hplain]
    rfl

theorem uses_exponentSign (s : List Char) : Uses s (exponentSign s).2 := by
  unfold exponentSign
  split
  · exact .cons (by decide) _
  · exact .cons (by decide) _
  · exact .refl s

/-- The digits of an exponent, after its letter. -/
theorem stays_of_exponentDigits {t : List Char}
    (h : digits? (exponentSign t).2 = some (ds, rest)) :
    Uses t rest ∧ (rest ≠ [] → ∀ more,
      digits? (exponentSign (t ++ more)).2 = some (ds, rest ++ more)
        ∧ (exponentSign (t ++ more)).1 = (exponentSign t).1) := by
  have hdigits := stays_of_digits? h
  have huses := (uses_exponentSign t).trans hdigits.uses
  refine ⟨huses, fun hrest more => ?_⟩
  rw [exponentSign_append (huses.ne_nil hrest)]
  exact ⟨hdigits.more (fun _ => hrest) more, rfl⟩

theorem stays_of_exponent? (h : exponent? s = some (ds, rest)) :
    Stays exponent? true s ds rest := by
  unfold exponent? at h
  split at h
  · obtain ⟨⟨ds', rest'⟩, hdigits, heq⟩ := Option.map_eq_some_iff.mp h
    obtain ⟨rfl, rfl⟩ := Prod.mk.inj heq
    obtain ⟨huses, hmore⟩ := stays_of_exponentDigits hdigits
    refine ⟨(Uses.cons (by decide) _).trans huses, fun hrest more => ?_⟩
    obtain ⟨hread, hsign⟩ := hmore (hrest rfl) more
    rw [List.cons_append, exponent?, hread, hsign]
    rfl
  · obtain ⟨⟨ds', rest'⟩, hdigits, heq⟩ := Option.map_eq_some_iff.mp h
    obtain ⟨rfl, rfl⟩ := Prod.mk.inj heq
    obtain ⟨huses, hmore⟩ := stays_of_exponentDigits hdigits
    refine ⟨(Uses.cons (by decide) _).trans huses, fun hrest more => ?_⟩
    obtain ⟨hread, hsign⟩ := hmore (hrest rfl) more
    rw [List.cons_append, exponent?, hread, hsign]
    rfl
  · rename_i hlower hupper
    obtain ⟨rfl, rfl⟩ := Prod.mk.inj (Option.some.inj h)
    refine ⟨.refl s, fun hrest more => ?_⟩
    cases s with
    | nil => exact absurd rfl (hrest rfl)
    | cons c s =>
      unfold exponent?
      split
      · rename_i heq
        exact absurd (congrArg (· :: s) (List.cons.inj heq).1) (hlower s)
      · rename_i heq
        exact absurd (congrArg (· :: s) (List.cons.inj heq).1) (hupper s)
      · rfl

theorem stays_of_magnitude? (h : magnitude? s = some (ds, rest)) :
    Stays magnitude? true s ds rest := by
  unfold magnitude? at h
  split at h
  · cases h
  · rename_i whole t hwhole
    split at h
    · cases h
    · rename_i fraction u hfraction
      split at h
      · cases h
      · rename_i exponent v hexponent
        obtain ⟨rfl, rfl⟩ := Prod.mk.inj (Option.some.inj h)
        have hwhole := stays_of_whole? hwhole
        have hfraction := stays_of_fraction? hfraction
        have hexponent := stays_of_exponent? hexponent
        refine ⟨(hwhole.uses.trans hfraction.uses).trans hexponent.uses, fun hrest more => ?_⟩
        have hu := hexponent.uses.ne_nil (hrest rfl)
        have ht := hfraction.uses.ne_nil hu
        simp only [magnitude?, hwhole.more (fun _ => ht) more, hfraction.more (fun _ => hu) more,
          hexponent.more hrest more]

theorem stays_of_number? (h : number? s = some (ds, rest)) : Stays number? true s ds rest := by
  unfold number? at h
  split at h
  · obtain ⟨⟨ds', rest'⟩, hmagnitude, heq⟩ := Option.map_eq_some_iff.mp h
    obtain ⟨rfl, rfl⟩ := Prod.mk.inj heq
    have hstays := stays_of_magnitude? hmagnitude
    refine ⟨(Uses.cons (by decide) _).trans hstays.uses, fun hrest more => ?_⟩
    rw [List.cons_append, number?, hstays.more hrest more]
    rfl
  · rename_i hsign
    have hstays := stays_of_magnitude? h
    refine ⟨hstays.uses, fun hrest more => ?_⟩
    rw [← hstays.more hrest more]
    unfold number?
    split
    · rename_i heq
      cases s with
      | nil => cases h
      | cons c s => exact absurd (congrArg (· :: s) (List.cons.inj heq).1) (hsign s)
    · rfl

/-- A number begins with a sign or a digit. -/
theorem head_of_number? {c : Char} (h : number? (c :: s) = some (ds, rest)) :
    c = '-' ∨ c.isDigit = true := by
  by_cases hsign : c = '-'
  · left
    exact hsign
  right
  by_cases hzero : c = '0'
  · rw [hzero]
    rfl
  have hdigits : digits? (c :: s) ≠ none := by
    intro hnone
    have hwhole : whole? (c :: s) = none := by
      unfold whole?
      split
      · exact absurd (List.cons.inj ‹_›).1 hzero
      · exact hnone
    unfold number? at h
    split at h
    · exact absurd (List.cons.inj ‹_›).1 hsign
    · rw [magnitude?, hwhole] at h
      cases h
  by_contra hnot
  refine hdigits ?_
  rw [digits?, List.takeWhile_cons_of_neg hnot]

end Numbers

/-! ## Strings -/

theorem ne_nul_of_hex4? {a b c d : Char} (h : (hex4? a b c d).isSome = true) :
    '\x00' ∉ [a, b, c, d] := by
  intro hmem
  simp only [List.mem_cons, List.not_mem_nil, or_false] at hmem
  have hnul : Text.hexDigit? '\x00' = none := rfl
  unfold hex4? at h
  rcases hmem with rfl | rfl | rfl | rfl
  all_goals
    rw [hnul] at h
    split at h <;> simp_all

theorem stays_of_spelling {s text rest done : List Char} (h : spelling done s = some (text, rest)) :
    Stays (spelling done) false s text rest := by
  fun_induction spelling done s with
  | case1 => cases h
  | case2 done u =>
    obtain ⟨rfl, rfl⟩ := Prod.mk.inj (Option.some.inj h)
    exact ⟨.cons (by decide) _, fun _ _ => rfl⟩
  | case3 done a b c d u hhex ih =>
    have hstays := ih h
    refine ⟨Uses.trans ?_ hstays.uses, fun hrest more => ?_⟩
    · refine ⟨['\\', 'u', a, b, c, d], rfl, ?_⟩
      have := ne_nul_of_hex4? hhex
      simp_all
    · rw [← hstays.more hrest more]
      show spelling done ('\\' :: 'u' :: a :: b :: c :: d :: (u ++ more)) = _
      rw [spelling, if_pos hhex]
  | case4 => cases h
  | case5 done c u hshort hescaped ih =>
    have hstays := ih h
    have hunit : c ≠ 'u' := by
      rintro rfl
      cases hescaped
    have hnul : c ≠ '\x00' := by
      rintro rfl
      cases hescaped
    refine ⟨((Uses.cons (by decide) _).trans (.cons hnul u)).trans hstays.uses,
      fun hrest more => ?_⟩
    rw [← hstays.more hrest more]
    show spelling done ('\\' :: c :: (u ++ more)) = _
    rw [spelling, if_pos hescaped]
    intro _ _ _ _ _ hc
    exact absurd hc hunit
  | case6 => cases h
  | case7 => cases h
  | case8 done c u hquote hunit hslash hplain ih =>
    have hstays := ih h
    have hnul : c ≠ '\x00' := by
      rintro rfl
      exact hplain (.inl (by decide))
    refine ⟨(Uses.cons hnul u).trans hstays.uses, fun hrest more => ?_⟩
    rw [← hstays.more hrest more]
    show spelling done (c :: (u ++ more)) = _
    rw [spelling, if_neg hplain]
    all_goals simp_all

/-! ## Values -/

/-- A member that was read, with what was read after it. -/
theorem exists_of_members? {s rest : List Char} {members : List (List Char × Json)}
    (h : members? s = some (members, rest)) :
    ∃ t u v w name j, skipBlank s = '"' :: t ∧ spelling [] t = some (name, u)
      ∧ skipBlank u = ':' :: v ∧ value? v = some (j, w)
      ∧ ((∃ x more, skipBlank w = ',' :: x ∧ members? x = some (more, rest)
          ∧ members = (name, j) :: more)
        ∨ skipBlank w = '}' :: rest ∧ members = [(name, j)]) := by
  have hread := h
  rw [members?, readMembers?] at hread
  split at hread
  · rename_i t hs
    split at hread
    · cases hread
    · rename_i name u ht
      split at hread
      · rename_i v hu
        split at hread
        · cases hread
        · rename_i item hv
          have hvalue : value? v = some (item.value, item.rest) := by
            rw [value?, hv]
            rfl
          refine ⟨t, u, v, item.rest, name, item.value, hs, ht, hu, hvalue, ?_⟩
          rw [members?_eq hs ht hu hvalue] at h
          split at h
          · rename_i x hw
            obtain ⟨⟨more, rest'⟩, hmore, heq⟩ := Option.map_eq_some_iff.mp h
            obtain ⟨rfl, rfl⟩ := Prod.mk.inj heq
            exact .inl ⟨x, more, hw, hmore, rfl⟩
          · rename_i x hw
            obtain ⟨rfl, rfl⟩ := Prod.mk.inj (Option.some.inj h)
            exact .inr ⟨hw, rfl⟩
          · cases h
      · cases hread
  · cases hread

/-- An item that was read, with what was read after it. -/
theorem exists_of_items? {s rest : List Char} {items : List Json}
    (h : items? s = some (items, rest)) :
    ∃ t j, value? s = some (j, t)
      ∧ ((∃ u more, skipBlank t = ',' :: u ∧ items? u = some (more, rest) ∧ items = j :: more)
        ∨ skipBlank t = ']' :: rest ∧ items = [j]) := by
  rw [items?_eq] at h
  obtain ⟨⟨j, t⟩, hvalue, h⟩ := Option.bind_eq_some_iff.mp h
  refine ⟨t, j, hvalue, ?_⟩
  dsimp only at h
  split at h
  · rename_i u hu
    obtain ⟨⟨more, rest'⟩, hmore, heq⟩ := Option.map_eq_some_iff.mp h
    obtain ⟨rfl, rfl⟩ := Prod.mk.inj heq
    exact .inl ⟨u, more, hu, hmore, rfl⟩
  · rename_i u hu
    obtain ⟨rfl, rfl⟩ := Prod.mk.inj (Option.some.inj h)
    exact .inr ⟨hu, rfl⟩
  · cases h

theorem length_of_value? {s rest : List Char} {j : Json} (h : value? s = some (j, rest)) :
    rest.length < s.length := by
  obtain ⟨front, _, heq⟩ := Option.map_eq_some_iff.mp h
  obtain ⟨rfl, rfl⟩ := Prod.mk.inj heq
  exact front.shorter

theorem ne_nil_of_skipBlank {s t : List Char} {c : Char} (h : skipBlank s = c :: t) : s ≠ [] := by
  rintro rfl
  cases h

/-- A number, with or without a sign. -/
theorem value?_signed {s t u ds : List Char} {c : Char} (hs : skipBlank s = c :: t)
    (hc : c = '-' ∨ c.isDigit = true) (h : number? (c :: t) = some (ds, u)) :
    value? s = some (.num ds, u) := by
  rcases hc with rfl | hc
  · rw [value?_eq, hs]
    exact congrArg (Option.map _) h
  · exact value?_number hs hc h

/-- An object with members, with more text behind it. -/
theorem value?_object {s t u : List Char} {ms : List (List Char × Json)}
    (hs : skipBlank s = '{' :: t) (ht : members? t = some (ms, u))
    (hmore : ∀ q, members? (t ++ q) = some (ms, u ++ q)) (q : List Char) :
    value? (s ++ q) = some (.obj ms, u ++ q) := by
  obtain ⟨v, _, _, _, _, _, hv, _⟩ := exists_of_members? ht
  exact value?_members (skipBlank_append hs q) (skipBlank_append hv q) (by decide) (hmore q)

section Induction

variable {n : Nat}
  (ihValue : ∀ s : List Char, s.length < n → ∀ j rest, value? s = some (j, rest) →
    Stays value? true s j rest)
  (ihItems : ∀ s : List Char, s.length < n → ∀ js rest, items? s = some (js, rest) →
    Stays items? false s js rest)
  (ihMembers : ∀ s : List Char, s.length < n → ∀ ms rest, members? s = some (ms, rest) →
    Stays members? false s ms rest)

include ihItems ihMembers in
theorem stays_of_value?_of_shorter {s rest : List Char} {j : Json} (hlength : s.length ≤ n)
    (h : value? s = some (j, rest)) : Stays value? true s j rest := by
  rw [value?_eq] at h
  split at h
  · rename_i t hs
    have hs' := length_lt_of_skipBlank hs
    have huses := uses_of_skipBlank hs (by decide)
    split at h
    · rename_i u hu
      obtain ⟨rfl, rfl⟩ := Prod.mk.inj (Option.some.inj h)
      exact ⟨huses.trans (uses_of_skipBlank hu (by decide)),
        fun _ q => value?_emptyArray (skipBlank_append hs q) (skipBlank_append hu q)⟩
    · obtain ⟨⟨items, u⟩, hitems, heq⟩ := Option.map_eq_some_iff.mp h
      obtain ⟨rfl, rfl⟩ := Prod.mk.inj heq
      have hstays := ihItems t (by omega) items u hitems
      exact ⟨huses.trans hstays.uses,
        fun _ q => value?_items (skipBlank_append hs q) (hstays.more (by simp) q)⟩
  · rename_i t hs
    have hs' := length_lt_of_skipBlank hs
    have huses := uses_of_skipBlank hs (by decide)
    split at h
    · rename_i u hu
      obtain ⟨rfl, rfl⟩ := Prod.mk.inj (Option.some.inj h)
      exact ⟨huses.trans (uses_of_skipBlank hu (by decide)),
        fun _ q => value?_emptyObject (skipBlank_append hs q) (skipBlank_append hu q)⟩
    · obtain ⟨⟨members, u⟩, hmembers, heq⟩ := Option.map_eq_some_iff.mp h
      obtain ⟨rfl, rfl⟩ := Prod.mk.inj heq
      have hstays := ihMembers t (by omega) members u hmembers
      exact ⟨huses.trans hstays.uses,
        fun _ q => value?_object hs hmembers (hstays.more (by simp)) q⟩
  · rename_i t hs
    obtain ⟨⟨text, u⟩, htext, heq⟩ := Option.map_eq_some_iff.mp h
    obtain ⟨rfl, rfl⟩ := Prod.mk.inj heq
    have hstays := stays_of_spelling htext
    exact ⟨(uses_of_skipBlank hs (by decide)).trans hstays.uses,
      fun _ q => value?_string (skipBlank_append hs q) (hstays.more (by simp) q)⟩
  · rename_i t hs
    obtain ⟨rfl, rfl⟩ := Prod.mk.inj (Option.some.inj h)
    refine ⟨?_, fun _ q => ?_⟩
    · exact (hs ▸ uses_skipBlank s).trans ⟨['n', 'u', 'l', 'l'], rfl, by decide⟩
    · simp only [value?_eq, skipBlank_append hs q, List.cons_append]
  · rename_i t hs
    obtain ⟨rfl, rfl⟩ := Prod.mk.inj (Option.some.inj h)
    refine ⟨?_, fun _ q => ?_⟩
    · exact (hs ▸ uses_skipBlank s).trans ⟨['t', 'r', 'u', 'e'], rfl, by decide⟩
    · simp only [value?_eq, skipBlank_append hs q, List.cons_append]
  · rename_i t hs
    obtain ⟨rfl, rfl⟩ := Prod.mk.inj (Option.some.inj h)
    refine ⟨?_, fun _ q => ?_⟩
    · exact (hs ▸ uses_skipBlank s).trans ⟨['f', 'a', 'l', 's', 'e'], rfl, by decide⟩
    · simp only [value?_eq, skipBlank_append hs q, List.cons_append]
  · obtain ⟨⟨number, u⟩, hnumber, heq⟩ := Option.map_eq_some_iff.mp h
    obtain ⟨rfl, rfl⟩ := Prod.mk.inj heq
    have hstays := stays_of_number? hnumber
    refine ⟨(uses_skipBlank s).trans hstays.uses, fun hrest q => ?_⟩
    have hmore := hstays.more hrest q
    cases hs : skipBlank s with
    | nil => exact absurd hs (hstays.uses.ne_nil (hrest rfl))
    | cons c t =>
      rw [hs] at hnumber hmore
      exact value?_signed (skipBlank_append hs q) (head_of_number? hnumber) hmore

include ihItems in
theorem stays_of_items?_of_shorter {s rest : List Char} {js : List Json}
    (hvalue : ∀ j t, value? s = some (j, t) → Stays value? true s j t) (hlength : s.length ≤ n)
    (h : items? s = some (js, rest)) : Stays items? false s js rest := by
  obtain ⟨t, j, hfirst, hrest⟩ := exists_of_items? h
  have hfirst' := hvalue j t hfirst
  have hshorter := length_of_value? hfirst
  rcases hrest with ⟨u, more, hu, hmore, rfl⟩ | ⟨hu, rfl⟩
  · have hu' := length_lt_of_skipBlank hu
    have hstays := ihItems u (by omega) more rest hmore
    refine ⟨(hfirst'.uses.trans (uses_of_skipBlank hu (by decide))).trans hstays.uses,
      fun hrest q => ?_⟩
    exact items?_cons (hfirst'.more (fun _ => ne_nil_of_skipBlank hu) q) (skipBlank_append hu q)
      (hstays.more hrest q)
  · refine ⟨hfirst'.uses.trans (uses_of_skipBlank hu (by decide)), fun _ q => ?_⟩
    exact items?_last (hfirst'.more (fun _ => ne_nil_of_skipBlank hu) q) (skipBlank_append hu q)

include ihValue ihMembers in
theorem stays_of_members?_of_shorter {s rest : List Char} {ms : List (List Char × Json)}
    (hlength : s.length ≤ n) (h : members? s = some (ms, rest)) :
    Stays members? false s ms rest := by
  obtain ⟨t, u, v, w, name, j, hs, ht, hu, hv, hrest⟩ := exists_of_members? h
  have hs' := length_lt_of_skipBlank hs
  have ht' := length_of_spelling ht
  have hu' := length_lt_of_skipBlank hu
  have hv' := length_of_value? hv
  have hname := stays_of_spelling ht
  have hvalue := ihValue v (by omega) j w hv
  have huses : Uses s w :=
    (((uses_of_skipBlank hs (by decide)).trans hname.uses).trans
      (uses_of_skipBlank hu (by decide))).trans hvalue.uses
  rcases hrest with ⟨x, more, hx, hmore, rfl⟩ | ⟨hx, rfl⟩
  · have hx' := length_lt_of_skipBlank hx
    have hstays := ihMembers x (by omega) more rest hmore
    refine ⟨(huses.trans (uses_of_skipBlank hx (by decide))).trans hstays.uses, fun hrest q => ?_⟩
    rw [members?_eq (skipBlank_append hs q) (hname.more (by simp) q) (skipBlank_append hu q)
      (hvalue.more (fun _ => ne_nil_of_skipBlank hx) q)]
    simp only [skipBlank_append hx q, hstays.more hrest q, Option.map_some]
  · refine ⟨huses.trans (uses_of_skipBlank hx (by decide)), fun _ q => ?_⟩
    rw [members?_eq (skipBlank_append hs q) (hname.more (by simp) q) (skipBlank_append hu q)
      (hvalue.more (fun _ => ne_nil_of_skipBlank hx) q)]
    simp only [skipBlank_append hx q]

end Induction

theorem stays_of_length_le (n : Nat) :
    (∀ s : List Char, s.length ≤ n → ∀ j rest, value? s = some (j, rest) →
        Stays value? true s j rest)
      ∧ (∀ s : List Char, s.length ≤ n → ∀ js rest, items? s = some (js, rest) →
        Stays items? false s js rest)
      ∧ ∀ s : List Char, s.length ≤ n → ∀ ms rest, members? s = some (ms, rest) →
        Stays members? false s ms rest := by
  induction n using Nat.strongRecOn with
  | ind n ih =>
    have ihValue : ∀ s : List Char, s.length < n → ∀ j rest, value? s = some (j, rest) →
        Stays value? true s j rest := fun s hs => (ih _ hs).1 s (Nat.le_refl _)
    have ihItems : ∀ s : List Char, s.length < n → ∀ js rest, items? s = some (js, rest) →
        Stays items? false s js rest := fun s hs => (ih _ hs).2.1 s (Nat.le_refl _)
    have ihMembers : ∀ s : List Char, s.length < n → ∀ ms rest, members? s = some (ms, rest) →
        Stays members? false s ms rest := fun s hs => (ih _ hs).2.2 s (Nat.le_refl _)
    have hvalue : ∀ s : List Char, s.length ≤ n → ∀ j rest, value? s = some (j, rest) →
        Stays value? true s j rest :=
      fun s hs j rest => stays_of_value?_of_shorter ihItems ihMembers hs
    exact ⟨hvalue,
      fun s hs js rest => stays_of_items?_of_shorter ihItems (hvalue s hs) hs,
      fun s hs ms rest => stays_of_members?_of_shorter ihValue ihMembers hs⟩

theorem stays_of_value? {s rest : List Char} {j : Json} (h : value? s = some (j, rest)) :
    Stays value? true s j rest :=
  (stays_of_length_le s.length).1 s (Nat.le_refl _) j rest h

theorem stays_of_members? {s rest : List Char} {ms : List (List Char × Json)}
    (h : members? s = some (ms, rest)) : Stays members? false s ms rest :=
  (stays_of_length_le s.length).2.2 s (Nat.le_refl _) ms rest h

/-- An object is read the same whatever is behind it. -/
theorem value?_append_of_brace {s t rest : List Char} {j : Json} (hs : skipBlank s = '{' :: t)
    (h : value? s = some (j, rest)) (q : List Char) :
    value? (s ++ q) = some (j, rest ++ q) := by
  simp only [value?_eq, hs] at h
  split at h
  · rename_i u hu
    obtain ⟨rfl, rfl⟩ := Prod.mk.inj (Option.some.inj h)
    exact value?_emptyObject (skipBlank_append hs q) (skipBlank_append hu q)
  · obtain ⟨⟨ms, u⟩, hmembers, heq⟩ := Option.map_eq_some_iff.mp h
    obtain ⟨rfl, rfl⟩ := Prod.mk.inj heq
    exact value?_object hs hmembers ((stays_of_members? hmembers).more (by simp)) q

/-! ## Whole texts -/

theorem exists_of_parse? {text : String} {j : Json} (h : parse? text = some j) :
    ∃ rest, value? text.toList = some (j, rest) ∧ skipBlank rest = [] := by
  rw [parse?_eq] at h
  obtain ⟨⟨k, rest⟩, hvalue, h⟩ := Option.bind_eq_some_iff.mp h
  dsimp only at h
  split at h
  · rename_i hblank
    obtain rfl := Option.some.inj h
    exact ⟨rest, hvalue, List.isEmpty_iff.mp hblank⟩
  · cases h

/-- **No JSON text has a NUL in it.** -/
theorem nul_not_mem_of_parse? {text : String} {j : Json} (h : parse? text = some j) :
    '\x00' ∉ text.toList := by
  obtain ⟨rest, hvalue, hblank⟩ := exists_of_parse? h
  obtain ⟨front, hfront, hnul⟩ := (stays_of_value? hvalue).uses.trans (hblank ▸ uses_skipBlank rest)
  rwa [hfront, List.append_nil]

/-- **The text of an object is not the beginning of another one's**, blank space apart. -/
theorem parse?_unique_of_prefix {text whole : String} {j k : Json}
    (hhead : whole.toList.head? = some '{') (hstart : text.toList <+: whole.toList)
    (h : parse? text = some j) (hwhole : parse? whole = some k) : j = k := by
  obtain ⟨rest, hvalue, _⟩ := exists_of_parse? h
  obtain ⟨rest', hvalue', _⟩ := exists_of_parse? hwhole
  obtain ⟨q, hq⟩ := hstart
  cases hs : text.toList with
  | nil =>
    have hshorter := length_of_value? hvalue
    simp [hs] at hshorter
  | cons c t =>
    obtain rfl : c = '{' := by
      rw [← hq, hs] at hhead
      exact Option.some.inj hhead
    rw [hs] at hvalue hq
    have hmore := value?_append_of_brace (skipBlank_cons rfl t) hvalue q
    rw [hq, hvalue'] at hmore
    exact (Prod.mk.inj (Option.some.inj hmore)).1.symm

end Stencil.Json
