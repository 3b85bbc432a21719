import Stencil.Proofs.Lockstep

/-!
# Readers in step

Two templates that differ in one place are read alike everywhere else. To say so, two
readers are related, one in each template, and the relation is kept while both move.

`SymbolsInStep` asks this of the single steps, and where they are kept, tokens are in step.
`InStep` asks for the same indentation as well. Blank space is then skipped by both alike, so
that the readers are in lockstep and read whole templates that match.
-/

namespace Stencil
namespace Reader

/-- The indentation depends on the blank space alone, and all of it is skipped. -/
theorem measure_eq (indent : Nat) (cs : List Char) :
    measure indent cs = ((measure indent (cs.takeWhile isBlank)).1, cs.dropWhile isBlank) := by
  induction cs generalizing indent with
  | nil => rfl
  | cons c cs ih =>
    by_cases hc : isBlank c = true
    · rw [List.takeWhile_cons_of_pos hc, List.dropWhile_cons_of_pos hc, measure, measure]
      split
      · exact ih _
      · split
        · exact ih _
        · next hspace hline =>
          simp only [not_or] at hspace hline
          simp [isBlank, hspace, hline] at hc
    · have htake : (c :: cs).takeWhile isBlank = [] := List.takeWhile_cons_of_neg hc
      rw [htake, List.dropWhile_cons_of_neg hc, measure_stops htake]
      rfl

/-- Related readers read symbols together, wherever in their lines they stand. -/
structure SymbolsInStep (bound : Nat) (E : Nat → Nat → Prop) (R : Reader → Reader → Prop) :
    Prop where
  /-- They see the same next character, or each sees the beginning of a literal. -/
  next {r r' : Reader} :
    R r r' → r'.rest.head? = r.rest.head? ∨ OpensLiteral r.rest ∧ OpensLiteral r'.rest
  char {r r' : Reader} {c : Char} {cs : List Char} : R r r' → isPlain c = true → r.rest = c :: cs →
    ∃ cs', r'.rest = c :: cs' ∧ R (r.withRest cs) (r'.withRest cs')
  expr {r r' s : Reader} {i : Nat} : R r r' → r.takeExpr? = some (i, s) →
    ∃ i' s', r'.takeExpr? = some (i', s') ∧ E i i' ∧ R s s' ∧ R (s.ask i) (s'.ask i')
  noExpr {r r' : Reader} : R r r' → r.takeExpr? = none → r'.takeExpr? = none
  closed {r r' : Reader} {content rest : List Char} : R r r' →
    literal? r.rest = some (.closed content rest) → bound ≤ (r.withRest rest).remaining →
    ∃ rest', literal? r'.rest = some (.closed content rest') ∧
      R (r.withRest rest) (r'.withRest rest')

/-- Related readers take all their single steps together. -/
structure InStep (bound : Nat) (E : Nat → Nat → Prop) (R : Reader → Reader → Prop) : Prop
    extends SymbolsInStep bound E R where
  indent {r r' : Reader} : R r r' → r'.indent = r.indent
  withIndent {r r' : Reader} (indent : Nat) : R r r' → R { r with indent } { r' with indent }

variable {bound : Nat} {E : Nat → Nat → Prop} {R : Reader → Reader → Prop}
variable {B : Binding → Binding → Prop} {good : Binding → Prop}
variable {r r' s : Reader}

namespace SymbolsInStep

/-- A character that begins no literal is next for both or for neither. -/
theorem head?_iff (hR : SymbolsInStep bound E R) (h : R r r') {c : Char} (hhash : c ≠ '#')
    (hquote : c ≠ '\'') : r'.rest.head? = some c ↔ r.rest.head? = some c := by
  have hnot : ∀ cs : List Char, OpensLiteral cs → cs.head? ≠ some c := by
    intro cs hopens hc
    rcases hopens with hopens | hopens
    · exact hhash (Option.some.inj (hc.symm.trans hopens))
    · exact hquote (Option.some.inj (hc.symm.trans hopens))
  rcases hR.next h with heq | ⟨hopens, hopens'⟩
  · rw [heq]
  · exact ⟨fun hc => absurd hc (hnot r'.rest hopens'), fun hc => absurd hc (hnot r.rest hopens)⟩

theorem rest_eq_nil (hR : SymbolsInStep bound E R) (h : R r r') (hr : r.rest = []) :
    r'.rest = [] := by
  rcases hR.next h with heq | ⟨hopens | hopens, _⟩
  · rwa [hr, List.head?_nil, List.head?_eq_none_iff] at heq
  all_goals
    rw [hr] at hopens
    cases hopens

theorem rest_ne_nil (hR : SymbolsInStep bound E R) (h : R r r') (hr : r.rest ≠ []) :
    r'.rest ≠ [] := by
  intro hr'
  rcases hR.next h with heq | ⟨_, hopens | hopens⟩
  · rw [hr', List.head?_nil] at heq
    exact hr (List.head?_eq_none_iff.mp heq.symm)
  all_goals
    rw [hr'] at hopens
    cases hopens

theorem startsBlank (hR : SymbolsInStep bound E R) (h : R r r') (hblank : r.startsBlank = true) :
    r'.startsBlank = true := by
  unfold Reader.startsBlank at hblank ⊢
  cases hc : r.rest.head? with
  | none =>
    rw [hc] at hblank
    cases hblank
  | some c =>
    rw [hc, Option.any_some] at hblank
    obtain ⟨⟨_, hhash⟩, hquote⟩ := ne_of_isPlain (isPlain_of rfl rfl rfl hblank)
    rw [(hR.head?_iff h hhash hquote).mpr hc]
    exact hblank

theorem tokens (hR : SymbolsInStep bound E R) : TokensInStep bound E R where
  sees h hc := by
    refine hR.head?_iff h ?_ ?_
    all_goals
      rintro rfl
      cases hc
  opens h hopens := by
    rcases hR.next h with heq | ⟨hopens, _⟩
    · unfold OpensLiteral at hopens ⊢
      rwa [← heq]
    · exact hopens
  char := hR.char
  expr := hR.expr
  noExpr := hR.noExpr
  closed := hR.closed

end SymbolsInStep

namespace InStep

/-! ## Blank space -/

theorem liftIndent (hR : InStep bound E R) (h : R r r') (base : Nat) :
    R (r.liftIndent base) (r'.liftIndent base) := by
  unfold Reader.liftIndent
  split
  · exact hR.withIndent inlineIndent h
  · exact h

/-- Blank space is skipped by both, and they measure the same indentation. -/
theorem skipBlank (hR : InStep bound E R) (h : R r r') : R r.skipBlank r'.skipBlank := by
  have hplain : ∀ {c : Char}, isBlank c = true → isPlain c = true := isPlain_of rfl rfl rfl
  obtain ⟨htake, hdrop⟩ : r'.rest.takeWhile isBlank = r.rest.takeWhile isBlank ∧ _ := by
    refine takeWhile_of_related (fun h hc hnext => ?_) (fun h hc => hR.char h (hplain hc)) h
    obtain ⟨⟨_, hhash⟩, hquote⟩ := ne_of_isPlain (hplain hc)
    exact (hR.head?_iff h hhash hquote).mp hnext
  have hindent := hR.withIndent (measure r.indent (r.rest.takeWhile isBlank)).1 hdrop
  unfold Reader.skipBlank
  rw [measure_eq r.indent, measure_eq r'.indent, htake, hR.indent h]
  exact hindent

theorem ended (hR : InStep bound E R) (h : R r r') {base : Nat} (hend : r.Ended base) :
    r'.Ended base := by
  rcases hend with hindent | ⟨hrest, hlater⟩
  · rw [← hR.indent h] at hindent
    exact .inl hindent
  · have hrest' := hR.rest_eq_nil h hrest
    have hnone : r.takeExpr? = none := by rw [takeExpr?, hrest, hlater]
    have hnone' := hR.noExpr h hnone
    refine .inr ⟨hrest', ?_⟩
    rw [takeExpr?, hrest'] at hnone'
    cases hlater' : r'.later with
    | nil => rfl
    | cons f later =>
      rw [hlater'] at hnone'
      cases hnone'

/-- **Readers in step are in lockstep,** with one relation and the same indentations. -/
theorem lockstep (hR : InStep bound E R) : Lockstep bound E R R Eq where
  toTokensInStep := hR.tokens
  indent h := (hR.indent h).symm
  liftIndent h hs := by
    rw [hR.indent h]
    exact hR.liftIndent hs _
  skipBlank := hR.skipBlank
  skipAgain := hR.skipBlank
  ended h hbase hend := by
    obtain rfl := hbase
    exact hR.ended h hend
  goesOn h hbase hend := by
    obtain rfl := hbase
    rw [hR.indent h]
    exact ⟨Nat.lt_of_not_le fun hle => hend (.inl hle), h⟩

/-! ## Templates -/

/-- The options are read by both, if an element comes after them. -/
theorem options (hR : InStep bound E R) (h : R r r') {flag : Bool} {t : Reader} {head : Head}
    (hoptions : r.options = .ok (flag, s)) (hhead : s.head = .ok (head, t)) :
    ∃ s', r'.options = .ok (flag, s') ∧ R s s' := by
  unfold Reader.options at hoptions
  split at hoptions
  · rename_i hrest
    cases hoptions
    exact absurd hrest (rest_ne_nil_of_head hhead)
  · rename_i c hrest
    cases hoptions
    obtain ⟨d, ds, hds, hd⟩ := exists_of_head hhead
    obtain ⟨rfl, rfl⟩ := List.cons.inj (hrest.symm.trans hds)
    obtain ⟨cs', hcs', hnext⟩ := hR.char h (isPlain_of rfl rfl rfl hd) hrest
    have hnil : cs' = [] := hR.rest_eq_nil hnext rfl
    refine ⟨r', ?_, h⟩
    rw [Reader.options, hcs', hnil]
  · rename_i cs hrest
    obtain ⟨cs', hcs', hnext⟩ := hR.char h rfl hrest
    obtain ⟨cs'', hcs'', hlast⟩ := hR.char hnext rfl rfl
    split at hoptions
    · rename_i hblank
      cases hoptions
      refine ⟨_, ?_, hR.skipBlank hlast⟩
      obtain rfl : cs' = 'c' :: cs'' := hcs''
      rw [Reader.options, hcs']
      exact if_pos (hR.startsBlank hlast hblank)
    · cases hoptions
  · cases hoptions
  · rename_i hnil hone hflag hminus
    cases hoptions
    obtain ⟨c, cs, hcs⟩ := List.exists_cons_of_ne_nil hnil
    cases hc : isPlain c with
    | true =>
      obtain ⟨cs', hcs', hnext⟩ := hR.char h hc hcs
      have hmore : cs' ≠ [] := hR.rest_ne_nil hnext fun hcs => hone c (hcs ▸ ‹r.rest = c :: cs›)
      obtain ⟨d, ds, rfl⟩ := List.exists_cons_of_ne_nil hmore
      refine ⟨_, ?_, hR.skipBlank h⟩
      rw [Reader.options, hcs']
      split
      · next heq => cases heq
      · next heq => cases heq
      · next heq => exact absurd (List.cons.inj heq).1 (fun hc => hminus cs (hc ▸ hcs))
      · next heq => exact absurd (List.cons.inj heq).1 (fun hc => hminus cs (hc ▸ hcs))
      · rfl
    | false =>
      -- neither blank space nor a tag begins with such a character
      have hstay : r.skipBlank = r := by
        have hblank : ¬ isBlank c = true := fun hblank =>
          Bool.noConfusion (hc.symm.trans (isPlain_of rfl rfl rfl hblank))
        have hstop : r.rest.takeWhile isBlank = [] := hcs ▸ List.takeWhile_cons_of_neg hblank
        rw [Reader.skipBlank, measure_stops hstop]
      obtain ⟨d, ds, hds, hd⟩ := exists_of_head hhead
      rw [hstay] at hds
      obtain ⟨rfl, rfl⟩ := List.cons.inj (hcs.symm.trans hds)
      exact Bool.noConfusion (hc.symm.trans (isPlain_of rfl rfl rfl hd))

/-- **Readers in step read templates that match.** -/
theorem read (hR : InStep bound E R) (hB : BindsInStep bound B good R) {fits fits' : Element → Bool}
    (hfits : ∀ {head head' inner inner'}, head.Matches B E head' → inner.Matches B E inner' →
      fits ⟨head, inner⟩ = true → fits' ⟨head', inner'⟩ = true)
    (h : R r r') {t : Template} (hread : Template.read fits r = .ok (t, s))
    (hbound : bound ≤ s.remaining)
    (hgood : ∀ b ∈ t.root.head.bindings ++ t.root.content.bindings, good b) :
    ∃ t' s', Template.read fits' r' = .ok (t', s') ∧ t'.disableCloning = t.disableCloning
      ∧ t.root.head.Matches B E t'.root.head ∧ t.root.content.Matches B E t'.root.content
      ∧ R s s' := by
  obtain ⟨u, hoptions, helement⟩ := Template.read_eq_ok_iff.mp hread
  obtain ⟨_, hhead, _⟩ := element_eq_ok_iff.mp helement
  obtain ⟨u', hoptions', hu⟩ := hR.options h hoptions hhead
  obtain ⟨root', s', helement', hmatch, hmatches, hs⟩ :=
    hR.lockstep.element hB hfits hu helement hbound hgood
  exact ⟨⟨t.disableCloning, root'⟩, s', Template.read_eq_ok_iff.mpr ⟨u', hoptions', helement'⟩,
    rfl, hmatch, hmatches, hs⟩

/-! ## Putting relations together -/

/-- No bound is needed where no literal reaches below it. -/
theorem unbounded (hR : InStep bound E R)
    (hclosed : ∀ {r r' : Reader} {content rest : List Char}, R r r' →
      literal? r.rest = some (.closed content rest) → bound ≤ (r.withRest rest).remaining) :
    InStep 0 E R :=
  { hR with closed := fun h hc _ => hR.closed h hc (hclosed h hc) }

theorem or {S : Reader → Reader → Prop} (hR : InStep bound E R) (hS : InStep bound E S) :
    InStep bound E fun r r' => R r r' ∨ S r r' where
  indent h := h.elim hR.indent hS.indent
  withIndent indent h := h.imp (hR.withIndent indent) (hS.withIndent indent)
  next h := h.elim hR.next hS.next
  char h hc hcs := by
    rcases h with h | h
    · obtain ⟨cs', hcs', hnext⟩ := hR.char h hc hcs
      exact ⟨cs', hcs', .inl hnext⟩
    · obtain ⟨cs', hcs', hnext⟩ := hS.char h hc hcs
      exact ⟨cs', hcs', .inr hnext⟩
  expr h hexpr := by
    rcases h with h | h
    · obtain ⟨i', s', hexpr', hi, hs, hask⟩ := hR.expr h hexpr
      exact ⟨i', s', hexpr', hi, .inl hs, .inl hask⟩
    · obtain ⟨i', s', hexpr', hi, hs, hask⟩ := hS.expr h hexpr
      exact ⟨i', s', hexpr', hi, .inr hs, .inr hask⟩
  noExpr h := h.elim hR.noExpr hS.noExpr
  closed h hc hbound := by
    rcases h with h | h
    · obtain ⟨rest', hc', hnext⟩ := hR.closed h hc hbound
      exact ⟨rest', hc', .inl hnext⟩
    · obtain ⟨rest', hc', hnext⟩ := hS.closed h hc hbound
      exact ⟨rest', hc', .inr hnext⟩

end InStep
end Reader
end Stencil
