import Stencil.Proofs.InStep

/-!
# Reading on from another column

Blank space on a line counts as indentation, and indentation decides where the content of an
element ends. What is read from a place therefore depends on the column it is thought to be
in, but only as long as the line lasts: a line break starts the count again.

Two readers are at the same place, `SamePlace`, if nothing but the column tells them apart.
They see the same symbols, so content that is the same for both takes both equally far
(`SamePlace.yields`). Where the content of an element has ended, a line has ended, or the
template has: the two can no longer be told apart by anything they read (`Yields.rejoins`).
-/

namespace Stencil.Reader

/-- The same reader, or one in two columns of a line that is indented deeper than `base`. -/
inductive SamePlace (base : Nat) : Reader → Reader → Prop where
  | same (r : Reader) : SamePlace base r r
  | deeper (index : Nat) (rest : List Char) (later : List (List Char)) (asked : List Nat)
      {indent indent' : Nat} (h : base < indent) (h' : base < indent') :
      SamePlace base ⟨index, rest, later, indent, asked⟩ ⟨index, rest, later, indent', asked⟩

/-- Both have read everything, or they are the same reader. -/
def Rejoins (r r' : Reader) : Prop :=
  r' = r ∨ (r.rest = [] ∧ r.later = []) ∧ r'.rest = [] ∧ r'.later = []

variable {base base' : Nat} {r r' s s' : Reader}

/-! ## Symbols -/

theorem SamePlace.symbolsInStep (base : Nat) : SymbolsInStep 0 Eq (SamePlace base) where
  next h := by
    left
    cases h <;> rfl
  char {r r' c cs} h _ hcs := by
    cases h with
    | same => exact ⟨cs, hcs, .same _⟩
    | deeper index rest later asked h h' => exact ⟨cs, hcs, .deeper index cs later asked h h'⟩
  expr {r r' s i} h hexpr := by
    cases h with
    | same => exact ⟨i, s, hexpr, rfl, .same _, .same _⟩
    | deeper index rest later asked h h' =>
      obtain rfl : rest = [] := rest_of_takeExpr? hexpr
      cases later with
      | nil => cases hexpr
      | cons f later =>
        cases hexpr
        exact ⟨index, _, rfl, rfl, .deeper (index + 1) f later asked h h',
          .deeper (index + 1) f later (index :: asked) h h'⟩
  noExpr h hnone := by
    cases h with
    | same => exact hnone
    | deeper index rest later asked h h' =>
      cases rest with
      | nil =>
        cases later with
        | nil => rfl
        | cons f later => cases hnone
      | cons c rest => rfl
  closed {r r' content rest} h hclosed _ := by
    cases h with
    | same => exact ⟨rest, hclosed, .same _⟩
    | deeper index _ later asked h h' =>
      exact ⟨rest, hclosed, .deeper index rest later asked h h'⟩

theorem SamePlace.equalsInStep (base : Nat) : EqualsInStep 0 (SamePlace base) := by
  intro r r' s h hequals _
  obtain ⟨cs, hcs, rfl⟩ := exists_of_equals? hequals
  cases h with
  | same => exact ⟨_, hequals, .same _⟩
  | deeper index rest later asked h h' =>
    obtain rfl : rest = '=' :: cs := hcs
    exact ⟨_, rfl, .deeper index cs later asked h h'⟩

/-! ## Columns -/

/-- Either a line ends in the blank space, or it only adds to the indentation. -/
theorem measure_eq_or_le (i j : Nat) (cs : List Char) :
    (measure i cs).1 = (measure j cs).1 ∨ i ≤ (measure i cs).1 ∧ j ≤ (measure j cs).1 := by
  induction cs generalizing i j with
  | nil => exact .inr ⟨Nat.le_refl i, Nat.le_refl j⟩
  | cons c cs ih =>
    rw [measure, measure]
    split
    · rcases ih (i + 1) (j + 1) with heq | ⟨hi, hj⟩
      · exact .inl heq
      · exact .inr ⟨by omega, by omega⟩
    · split
      · exact .inl rfl
      · exact .inr ⟨Nat.le_refl i, Nat.le_refl j⟩

/-- With a line break in the blank space, it does not matter where the line before it ended. -/
theorem measure_of_line_end {cs : List Char} (h : '\n' ∈ cs.takeWhile isBlank) (i j : Nat) :
    measure i cs = measure j cs := by
  induction cs generalizing i j with
  | nil => cases h
  | cons c cs ih =>
    rw [measure, measure]
    split
    · rename_i hspace
      refine ih ?_ (i + 1) (j + 1)
      rcases hspace with rfl | rfl
      all_goals
        rw [List.takeWhile_cons_of_pos rfl] at h
        exact (List.mem_cons.mp h).resolve_left (by decide)
    · rename_i hspace
      split
      · rfl
      · rename_i hline
        have hblank : ¬ isBlank c = true := by
          simp only [not_or] at hspace hline
          simp [isBlank, hspace, hline]
        rw [List.takeWhile_cons_of_neg hblank] at h
        cases h

theorem SamePlace.skipBlank (h : SamePlace base r r') :
    SamePlace base r.skipBlank r'.skipBlank := by
  cases h with
  | same => exact .same _
  | @deeper index rest later asked indent indent' h h' =>
    have hrest : (measure indent' rest).2 = (measure indent rest).2 := by
      rw [measure_eq indent, measure_eq indent']
    unfold Reader.skipBlank
    dsimp only
    rw [hrest]
    rcases measure_eq_or_le indent indent' rest with heq | ⟨hle, hle'⟩
    · rw [heq]
      exact .same _
    · exact .deeper index _ later asked (by omega) (by omega)

/-- A tag lifts both to the same column, or leaves them where they are. -/
theorem SamePlace.liftIndent (h : SamePlace base r r') :
    SamePlace base (r.liftIndent r.indent) (r'.liftIndent r'.indent) := by
  cases h with
  | same => exact .same _
  | deeper index rest later asked h h' =>
    unfold Reader.liftIndent
    dsimp only
    split
    · split
      · exact .same _
      · exact .deeper index rest later asked (by omega) h'
    · split
      · exact .deeper index rest later asked h (by omega)
      · exact .deeper index rest later asked h h'

theorem indent_of_name? {name : String} (h : r.name? = some (name, s)) : s.indent = r.indent := by
  unfold name? lexeme? at h
  split at h
  · split at h
    · cases h
      rfl
    · cases h
  · cases h

/-! ## The same content -/

theorem bindings_eq_ok_nil (h : r.bindings base = .ok ([], s)) : s = r := by
  rw [bindings_eq] at h
  split at h
  · cases h
    rfl
  · split at h
    · cases h
      rfl
    · cases h
    · split at h <;> cases h

theorem bindings_eq_ok_cons {b : Binding} {bs : List Binding} {t : Reader}
    (h : r.bindings base = .ok (b :: bs, t)) :
    ∃ s, r.binding? = some (.ok (b, s)) ∧ s.skipBlank.bindings base = .ok (bs, t) := by
  rw [bindings_eq] at h
  split at h
  · cases h
  · split at h
    · cases h
    · cases h
    · rename_i s hb
      split at h
      · cases h
      · rename_i hbs
        cases h
        exact ⟨s, hb, hbs⟩

theorem SamePlace.bindings {m n : Nat} {bs : List Binding} (h : SamePlace base r r')
    (hbs : r.bindings m = .ok (bs, s)) (hbs' : r'.bindings n = .ok (bs, s')) :
    SamePlace base s s' := by
  induction bs generalizing r r' with
  | nil =>
    obtain rfl := bindings_eq_ok_nil hbs
    obtain rfl := bindings_eq_ok_nil hbs'
    exact h
  | cons b bs ih =>
    obtain ⟨t, hb, hmore⟩ := bindings_eq_ok_cons hbs
    obtain ⟨t', hb', hmore'⟩ := bindings_eq_ok_cons hbs'
    have hR := (symbolsInStep base).tokens
    obtain ⟨_, _, hread, _, ht⟩ :=
      hR.binding? (hR.bindsInStep (equalsInStep base)) h hb (Nat.zero_le _) trivial
    cases hb'.symm.trans hread
    exact ih ht.skipBlank hmore hmore'

theorem SamePlace.head {head : Head} (h : SamePlace base r r') (hhead : r.head = .ok (head, s))
    (hhead' : r'.head = .ok (head, s')) : SamePlace base s s' := by
  obtain ⟨t, u, hname, hcls, hbs⟩ := head_eq_ok_iff.mp hhead
  obtain ⟨t', u', hname', hcls', hbs'⟩ := head_eq_ok_iff.mp hhead'
  have hR := (symbolsInStep base).tokens
  obtain ⟨_, hread, ht⟩ := hR.name? h hname
  cases hname'.symm.trans hread
  have hlift := ht.liftIndent
  rw [indent_of_name? hname, indent_of_name? hname'] at hlift
  obtain ⟨_, _, hread, _, hu⟩ := hR.classPart hlift hcls
  cases hcls'.symm.trans hread
  exact hu.skipBlank.bindings hbs hbs'

/-- **The same content takes both to the same place,** however deep it has to be indented. -/
theorem SamePlace.yields {fits fits' : Element → Bool} {m n : Nat} {c : Content}
    (h : SamePlace base r r') (hc : r.Yields fits m c s) (hc' : r'.Yields fits' n c s') :
    SamePlace base s s' := by
  have hR := (symbolsInStep base).tokens
  induction hc generalizing r' n s' with
  | ended =>
    cases hc'
    exact h
  | expr _ hexpr _ ih =>
    cases hc' with
    | expr _ hexpr' hmore' =>
      obtain ⟨_, _, hread, _, hs, _⟩ := hR.expr h hexpr
      cases hexpr'.symm.trans hread
      exact ih hs.skipBlank hmore'
  | text _ hliteral htext _ ih =>
    cases hc' with
    | text _ hliteral' _ hmore' =>
      obtain ⟨_, hread, hs⟩ := hR.literal h hliteral (Nat.zero_le _) (.inl htext)
      cases hliteral'.symm.trans hread
      exact ih hs.skipBlank hmore'
  | void _ hliteral hhead hvoid _ _ ih =>
    obtain ⟨_, hread, hs⟩ :=
      hR.literal h hliteral (Nat.zero_le _) (.inr (not_opensLiteral_of_head hhead))
    cases hc' with
    | void _ hliteral' hhead' _ _ hmore' =>
      cases hliteral'.symm.trans hread
      exact ih (hs.head hhead hhead').skipBlank hmore'
    | element _ _ _ hvoid' => exact Bool.noConfusion (hvoid.symm.trans hvoid')
  | element _ hliteral hhead hvoid _ _ _ ihInner ihMore =>
    obtain ⟨_, hread, hs⟩ :=
      hR.literal h hliteral (Nat.zero_le _) (.inr (not_opensLiteral_of_head hhead))
    cases hc' with
    | void _ _ _ hvoid' => exact Bool.noConfusion (hvoid.symm.trans hvoid')
    | element _ hliteral' hhead' _ hinner' _ hmore' =>
      cases hliteral'.symm.trans hread
      exact ihMore (ihInner (hs.head hhead hhead') hinner').skipBlank hmore'

/-! ## Afterwards -/

variable {fits : Element → Bool} {c : Content}

/-- Content ends where a line is not indented deep enough, or with the template. -/
theorem Yields.ends (h : r.Yields fits base c s) :
    s.indent ≤ base ∨ s.rest = [] ∧ s.later = [] := by
  induction h with
  | ended hend => exact hend
  | expr _ _ _ ih => exact ih
  | text _ _ _ _ ih => exact ih
  | void _ _ _ _ _ _ ih => exact ih
  | element _ _ _ _ _ _ _ _ ih => exact ih

/-- Readers that yield the same content in two columns of a line are then one again. -/
theorem Yields.rejoins (hc : r.Yields fits base c s) (hc' : r'.Yields fits base c s')
    (h : SamePlace base r r') : Rejoins s s' := by
  have hends := hc.ends
  have hplace := h.yields hc hc'
  cases hplace with
  | same => exact .inl rfl
  | deeper index rest later asked h h' =>
    have hdone := hends.resolve_left (Nat.not_le.mpr h)
    exact .inr ⟨hdone, hdone⟩

theorem Rejoins.skipBlank (h : Rejoins r r') : Rejoins r.skipBlank r'.skipBlank := by
  rcases h with rfl | ⟨⟨hrest, hlater⟩, hrest', hlater'⟩
  · exact .inl rfl
  · refine .inr ⟨⟨?_, hlater⟩, ?_, hlater'⟩
    · rw [Reader.skipBlank, hrest]
      rfl
    · rw [Reader.skipBlank, hrest']
      rfl

/-- From there on they read the same. -/
theorem Rejoins.content (h : Rejoins r r') (hc : r.content fits base = .ok (c, s)) :
    ∃ s', r'.content fits base = .ok (c, s') ∧ Rejoins s s' := by
  rcases h with rfl | ⟨hdone, hdone'⟩
  · exact ⟨s, hc, .inl rfl⟩
  · have hnil : r.content fits base = .ok (.nil, r) := (Yields.ended (.inr hdone)).content_eq
    cases hc.symm.trans hnil
    exact ⟨r', (Yields.ended (.inr hdone')).content_eq, .inr ⟨hdone, hdone'⟩⟩

end Stencil.Reader
