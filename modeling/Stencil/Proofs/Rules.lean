import Stencil.Proofs.ReadBack

/-!
# The grammar as rules

Reading that succeeds has a derivation. For the steps without recursion the rules are
stated both ways: a lemma with the premises of the rule gives what is read, and one lemma
per step lists all the ways it can have succeeded. For content, `Yields` is the derivation
itself, with one constructor per kind of item, and `content_eq_ok_iff` says that there is a
derivation of exactly what is read. An argument about two readers at once is then an
induction on the derivation of one of them.
-/

namespace Stencil

/-- A text in quotes, with `hashes` many `#` on either side. -/
def Text.quoted (hashes : Nat) (text : List Char) : List Char :=
  List.replicate hashes '#' ++ '\'' :: text ++ '\'' :: List.replicate hashes '#'

theorem Text.encloses_zero {text : List Char} (h : '\'' ∉ text) : Text.Encloses 0 text :=
  fun hinside => h (hinside.mem (List.mem_singleton_self _))

namespace Reader

variable {r s t u : Reader}

/-! ## Literals -/

/-- A literal closes at the first quote that does not belong to a text it encloses. -/
theorem exists_enclosed {hashes : Nat} {done cs content rest : List Char}
    (h : closeLiteral hashes done cs = .closed content rest) :
    ∃ text, Text.Encloses hashes text ∧ content = done.reverse ++ text
      ∧ cs = text ++ '\'' :: (List.replicate hashes '#' ++ rest) := by
  fun_induction closeLiteral hashes done cs with
  | case1 => cases h
  | case2 => cases h
  | case3 done cs hb he =>
    obtain ⟨rfl, rfl⟩ := Literal.closed.inj h
    refine ⟨[], ?_, by simp, ?_⟩
    · intro hinside
      cases List.infix_nil.mp hinside
    · rw [← he, List.take_append_drop]
      rfl
  | case4 done cs hb he ih =>
    obtain ⟨text, hencloses, rfl, rfl⟩ := ih h
    refine ⟨'\'' :: text, ?_, by simp, rfl⟩
    intro hinside
    rcases List.infix_cons_iff.mp hinside with hprefix | hinside
    · have hprefix := (List.prefix_cons_inj _).mp hprefix
      have hlong := hprefix.trans
        (List.prefix_append text ('\'' :: (List.replicate hashes '#' ++ rest)))
      rw [List.prefix_iff_eq_take, List.length_replicate] at hlong
      exact he hlong.symm
    · exact hencloses hinside
  | case5 done c cs hc ih =>
    obtain ⟨text, hencloses, rfl, rfl⟩ := ih h
    refine ⟨c :: text, ?_, by simp, rfl⟩
    intro hinside
    rcases List.infix_cons_iff.mp hinside with hprefix | hinside
    · exact hc (List.cons_prefix_cons.mp hprefix).1.symm
    · exact hencloses hinside

/-- A literal is a text in quotes that enclose it. -/
theorem literal?_eq_closed_iff {cs content rest : List Char} :
    literal? cs = some (.closed content rest) ↔
      ∃ hashes, Text.Encloses hashes content ∧ cs = Text.quoted hashes content ++ rest := by
  constructor
  · intro h
    unfold literal? at h
    split at h
    · rename_i body hbody
      obtain ⟨text, hencloses, rfl, rfl⟩ := exists_enclosed (Option.some.inj h)
      have hrun : cs.takeWhile (· == '#') =
          List.replicate (cs.takeWhile (· == '#')).length '#' := by
        refine List.eq_replicate_of_mem fun c hc => ?_
        simpa using List.mem_takeWhile_imp hc
      refine ⟨_, hencloses, ?_⟩
      calc cs = cs.takeWhile (· == '#') ++ cs.dropWhile (· == '#') :=
            List.takeWhile_append_dropWhile.symm
        _ = _ := by
            rw [hbody, Text.quoted, ← hrun]
            simp
    · cases h
  · rintro ⟨hashes, hencloses, rfl⟩
    exact literal?_enclosed hencloses rest

/-! ## Class names and bindings -/

theorem exists_of_equals? (h : r.equals? = some s) :
    ∃ cs, r.rest = '=' :: cs ∧ s = r.withRest cs := by
  unfold equals? at h
  split at h
  · rename_i cs hcs
    exact ⟨cs, hcs, (Option.some.inj h).symm⟩
  · cases h

theorem classNames_nil (h : r.rest.head? ≠ some '.') : r.classNames = .ok ([], r) := by
  rw [classNames]
  split
  · next cs hr => exact absurd (by rw [hr]; rfl) h
  · rfl

theorem classNames_cons {cs : List Char} {name : String} {names : List String}
    (hr : r.rest = '.' :: cs) (hname : (r.withRest cs).name? = some (name, s))
    (hmore : s.classNames = .ok (names, t)) : r.classNames = .ok (name :: names, t) := by
  rw [classNames]
  split
  · next ds hds =>
    obtain ⟨_, rfl⟩ := List.cons.inj (hr.symm.trans hds)
    split
    · next hnone => cases hname.symm.trans hnone
    · next found _ hfound =>
      obtain ⟨rfl, rfl⟩ := Prod.mk.inj (Option.some.inj (hname.symm.trans hfound))
      rw [hmore]
  · next hne => exact absurd hr (hne cs)

/-- An attribute has no value, a literal or an expression. -/
theorem attrBinding_cases {b : Binding} (h : r.attrBinding = .ok (b, u)) :
    ∃ name s, r.name? = some (name, s) ∧
      ((s.equals? = none ∧ b = .flag name ∧ u = s) ∨
        ∃ t, s.equals? = some t ∧
          ((∃ text, t.literal = .ok (text, u) ∧ text ≠ "" ∧ b = .value name text) ∨
            ∃ v i w, t.literal = .ok ("", v) ∧ v.takeExpr? = some (i, w)
              ∧ b = .named .attr name i ∧ u = w.ask i)) := by
  unfold attrBinding at h
  split at h
  · cases h
  · rename_i name s hn
    refine ⟨name, s, hn, ?_⟩
    split at h
    · rename_i he
      cases h
      exact .inl ⟨he, rfl, rfl⟩
    · rename_i t he
      refine .inr ⟨t, he, ?_⟩
      split at h
      · cases h
      · rename_i text v hl
        split at h
        · rename_i hne
          cases h
          exact .inl ⟨text, hl, hne, rfl⟩
        · rename_i hempty
          split at h
          · cases h
          · rename_i i w ht
            cases h
            refine .inr ⟨v, i, w, ?_, ht, rfl, rfl⟩
            rw [hl, Decidable.not_not.mp hempty]

theorem attrBinding_flag {name : String} (hname : r.name? = some (name, s))
    (hequals : s.equals? = none) : r.attrBinding = .ok (.flag name, s) := by
  rw [attrBinding, hname]
  dsimp only
  rw [hequals]

theorem attrBinding_value {name text : String} (hname : r.name? = some (name, s))
    (hequals : s.equals? = some t) (hliteral : t.literal = .ok (text, u)) (htext : text ≠ "") :
    r.attrBinding = .ok (.value name text, u) := by
  rw [attrBinding, hname]
  dsimp only
  rw [hequals]
  dsimp only
  rw [hliteral]
  dsimp only
  rw [if_pos htext]

theorem attrBinding_expr {name : String} {v : Reader} {i : Nat} (hname : r.name? = some (name, s))
    (hequals : s.equals? = some t) (hliteral : t.literal = .ok ("", u))
    (hexpr : u.takeExpr? = some (i, v)) : r.attrBinding = .ok (.named .attr name i, v.ask i) := by
  rw [attrBinding, hname]
  dsimp only
  rw [hequals]
  dsimp only
  rw [hliteral]
  dsimp only
  rw [if_neg (fun h => h rfl), hexpr]

theorem namedBinding_eq_ok_iff {kind : NamedProp} {name? : Reader → Option (String × Reader)}
    {fault : Fault} {b : Binding} :
    r.namedBinding kind name? fault = .ok (b, u) ↔
      ∃ name s t i, name? r = some (name, s) ∧ s.equals? = some t ∧ t.takeExpr? = some (i, u)
        ∧ b = .named kind name i := by
  constructor
  · intro h
    unfold namedBinding at h
    split at h
    · cases h
    · rename_i name s hn
      split at h
      · cases h
      · rename_i t he
        split at h
        · cases h
        · rename_i i v ht
          cases h
          exact ⟨name, s, t, i, hn, he, ht, rfl⟩
  · rintro ⟨name, s, t, i, hn, he, ht, rfl⟩
    rw [namedBinding, hn]
    dsimp only
    rw [he]
    dsimp only
    rw [ht]

theorem directiveBinding_eq_ok_iff {b : Binding} :
    r.directiveBinding = .ok (b, u) ↔ ∃ i, r.takeExpr? = some (i, u) ∧ b = .directive i := by
  unfold directiveBinding
  cases r.takeExpr? with
  | none => simp
  | some found =>
    obtain ⟨i, s⟩ := found
    simp only [Except.ok.injEq, Prod.mk.injEq, Option.some.injEq]
    constructor
    · rintro ⟨rfl, rfl⟩
      exact ⟨i, ⟨rfl, rfl⟩, rfl⟩
    · rintro ⟨j, ⟨rfl, rfl⟩, rfl⟩
      exact ⟨rfl, rfl⟩

/-- The rule for what stands after a mark. -/
def ruleOf? : Char → Option (Reader → Except Failure (Binding × Reader))
  | ':' => some attrBinding
  | '.' => some (namedBinding .property propertyName? .propertyName)
  | '*' => some (namedBinding .diffProperty propertyName? .propertyName)
  | '~' => some (namedBinding .style name? .propertyName)
  | '@' => some (namedBinding .event name? .eventName)
  | '$' => some directiveBinding
  | _ => none

/-- The mark alone decides which rule a binding is read by. -/
theorem binding?_cons {c : Char} {cs : List Char} (h : r.rest = c :: cs) :
    r.binding? = (ruleOf? c).map fun rule => rule (r.withRest cs) := by
  unfold binding?
  rw [h]
  unfold ruleOf?
  split <;> simp_all

theorem binding?_nil (h : r.rest = []) : r.binding? = none := by
  rw [binding?, h]

theorem bindings_nil {base : Nat} (h : r.indent ≤ base ∨ r.binding? = none) :
    r.bindings base = .ok ([], r) := by
  rw [bindings_eq]
  rcases h with h | h
  · rw [if_pos h]
  · rw [h]
    split <;> rfl

theorem bindings_cons {base : Nat} {b : Binding} {bs : List Binding} (hindent : base < r.indent)
    (hbinding : r.binding? = some (.ok (b, s))) (hmore : s.skipBlank.bindings base = .ok (bs, t)) :
    r.bindings base = .ok (b :: bs, t) := by
  rw [bindings_eq, if_neg (by omega), hbinding]
  dsimp only
  rw [hmore]

/-- A head is a tag, a class part, and bindings on what is indented deeper than the tag. -/
theorem head_eq_ok_iff {head : Head} :
    r.head = .ok (head, u) ↔
      ∃ s t, r.name? = some (head.tag, s) ∧ (s.liftIndent r.indent).classPart = .ok (head.cls, t)
        ∧ t.skipBlank.bindings r.indent = .ok (head.bindings, u) := by
  constructor
  · intro h
    unfold Reader.head at h
    split at h
    · cases h
    · rename_i tag s hn
      split at h
      · cases h
      · rename_i cls t hc
        split at h
        · cases h
        · rename_i bs v hb
          cases h
          exact ⟨s, t, hn, hc, hb⟩
  · rintro ⟨s, t, hn, hc, hb⟩
    rw [Reader.head, hn]
    dsimp only
    rw [hc]
    dsimp only
    rw [hb]

/-! ## Content -/

/--
The derivations of content. From `r`, what is indented deeper than `base` yields the
content and leaves the reader at its end.
-/
inductive Yields (fits : Element → Bool) : Nat → Reader → Content → Reader → Prop where
  | ended {base : Nat} {r : Reader} (h : r.indent ≤ base ∨ r.rest = [] ∧ r.later = []) :
      Yields fits base r .nil r
  | expr {base i : Nat} {r s t : Reader} {more : Content} (hindent : base < r.indent)
      (hexpr : r.takeExpr? = some (i, s)) (hmore : Yields fits base s.skipBlank more t) :
      Yields fits base r (.expr i more) t
  | text {base : Nat} {r s t : Reader} {text : String} {more : Content}
      (hindent : base < r.indent) (hliteral : r.literal = .ok (text, s)) (htext : text ≠ "")
      (hmore : Yields fits base s.skipBlank more t) : Yields fits base r (.text text more) t
  | void {base : Nat} {r s t u : Reader} {head : Head} {more : Content}
      (hindent : base < r.indent) (hliteral : r.literal = .ok ("", s))
      (hhead : s.head = .ok (head, t)) (hvoid : head.isVoid = true)
      (hfits : fits ⟨head, .nil⟩ = true) (hmore : Yields fits base t.skipBlank more u) :
      Yields fits base r (.element head .nil more) u
  | element {base : Nat} {r s t u v : Reader} {head : Head} {inner more : Content}
      (hindent : base < r.indent) (hliteral : r.literal = .ok ("", s))
      (hhead : s.head = .ok (head, t)) (hvoid : head.isVoid = false)
      (hinner : Yields fits s.indent t inner u) (hfits : fits ⟨head, inner⟩ = true)
      (hmore : Yields fits base u.skipBlank more v) :
      Yields fits base r (.element head inner more) v

variable {fits : Element → Bool} {base : Nat} {c : Content}

theorem rest_of_takeExpr? {i : Nat} (h : r.takeExpr? = some (i, s)) : r.rest = [] := by
  unfold takeExpr? at h
  split at h
  · assumption
  · cases h

/-- Where a head is read, a fragment is not at its end. -/
theorem rest_ne_nil_of_head {head : Head} (h : r.head = .ok (head, s)) : r.rest ≠ [] := by
  intro hr
  obtain ⟨_, _, hname, _⟩ := head_eq_ok_iff.mp h
  rw [name?, lexeme?, hr] at hname
  cases hname

theorem literal_of_rest_nil (h : r.rest = []) : r.literal = .ok ("", r) := by
  rw [literal, h]
  rfl

/-- An element is a head, and the content inside unless it is void. -/
theorem element_eq_ok_iff {e : Element} :
    s.element fits = .ok (e, u) ↔
      ∃ t, s.head = .ok (e.head, t) ∧
        ((e.head.isVoid = true ∧ e.content = .nil ∧ u = t) ∨
          (e.head.isVoid = false ∧ t.content fits s.indent = .ok (e.content, u))) := by
  rw [element_eq]
  constructor
  · intro h
    split at h
    · cases h
    · rename_i head t hh
      split at h
      · rename_i hv
        cases h
        exact ⟨_, hh, .inl ⟨hv, rfl, rfl⟩⟩
      · rename_i hv
        split at h
        · cases h
        · rename_i inner v hc
          cases h
          exact ⟨t, hh, .inr ⟨Bool.eq_false_iff.mpr hv, hc⟩⟩
  · rintro ⟨t, hh, ⟨hv, hnil, rfl⟩ | ⟨hv, hc⟩⟩
    · rw [hh]
      dsimp only
      rw [if_pos hv, ← hnil]
    · rw [hh]
      dsimp only
      rw [if_neg (Bool.eq_false_iff.mp hv), hc]

theorem element_of_head {head : Head} (hhead : s.head = .ok (head, t))
    (hvoid : head.isVoid = false) :
    s.element fits =
      (t.content fits s.indent).map fun inner => (⟨head, inner.1⟩, inner.2) := by
  rw [element_eq, hhead]
  dsimp only
  rw [if_neg (Bool.eq_false_iff.mp hvoid)]
  cases t.content fits s.indent <;> rfl

/-- Where content goes on with an element, its fragment is not at its end. -/
theorem rest_ne_nil_of_element {head : Head} (hliteral : r.literal = .ok ("", s))
    (hhead : s.head = .ok (head, t)) : r.rest ≠ [] := by
  intro hrest
  cases hliteral.symm.trans (literal_of_rest_nil hrest)
  exact rest_ne_nil_of_head hhead hrest

theorem content_of_takeExpr? {i : Nat} (hindent : base < r.indent)
    (hexpr : r.takeExpr? = some (i, s)) :
    r.content fits base =
      (s.skipBlank.content fits base).map fun more => (.expr i more.1, more.2) := by
  have hend := List.isEmpty_iff.mpr (rest_of_takeExpr? hexpr)
  rw [content_eq, if_neg (by omega), atEnd, if_pos hend, hexpr]
  dsimp only
  cases s.skipBlank.content fits base <;> rfl

theorem content_of_literal {text : String} (hindent : base < r.indent)
    (hliteral : r.literal = .ok (text, s)) (htext : text ≠ "") :
    r.content fits base =
      (s.skipBlank.content fits base).map fun more => (.text text more.1, more.2) := by
  have hend : ¬ r.atEnd = true := by
    intro hend
    cases hliteral.symm.trans (literal_of_rest_nil (List.isEmpty_iff.mp hend))
    exact htext rfl
  rw [content_eq, if_neg (by omega), if_neg hend, hliteral]
  dsimp only
  rw [if_pos htext]
  cases s.skipBlank.content fits base <;> rfl

theorem content_of_element (hindent : base < r.indent) (hliteral : r.literal = .ok ("", s))
    (hrest : r.rest ≠ []) :
    r.content fits base = (s.element fits).bind fun child =>
      if fits child.1 then
        (child.2.skipBlank.content fits base).map fun more =>
          (.element child.1.head child.1.content more.1, more.2)
      else .error ⟨.templateSize, child.2⟩ := by
  have hend : ¬ r.atEnd = true := fun hend => hrest (List.isEmpty_iff.mp hend)
  rw [content_eq, if_neg (by omega), if_neg hend, hliteral]
  dsimp only
  rw [if_neg (fun h => h rfl)]
  cases s.element fits with
  | error failure => rfl
  | ok child =>
    simp only [Except.bind]
    split
    · cases child.2.skipBlank.content fits base <;> rfl
    · rfl

/-- What has a derivation is read. -/
theorem Yields.content_eq (h : r.Yields fits base c s) : r.content fits base = .ok (c, s) := by
  induction h with
  | ended h =>
    rw [Reader.content_eq]
    rcases h with h | ⟨hr, hl⟩
    · rw [if_pos h]
    · rw [takeExpr?, hr, hl, atEnd, hr]
      dsimp only
      split <;> rfl
  | expr hindent hexpr _ ih =>
    rw [content_of_takeExpr? hindent hexpr, ih]
    rfl
  | text hindent hliteral htext _ ih =>
    rw [content_of_literal hindent hliteral htext, ih]
    rfl
  | @void base r s t u head more hindent hliteral hhead hvoid hfits _ ih =>
    have helement : s.element fits = .ok (⟨head, .nil⟩, t) :=
      element_eq_ok_iff.mpr ⟨t, hhead, .inl ⟨hvoid, rfl, rfl⟩⟩
    rw [content_of_element hindent hliteral (rest_ne_nil_of_element hliteral hhead), helement,
      Except.bind, if_pos hfits, ih]
    rfl
  | @element base r s t u v head inner more hindent hliteral hhead hvoid _ hfits _ ihInner ihMore =>
    have helement : s.element fits = .ok (⟨head, inner⟩, u) :=
      element_eq_ok_iff.mpr ⟨t, hhead, .inr ⟨hvoid, ihInner⟩⟩
    rw [content_of_element hindent hliteral (rest_ne_nil_of_element hliteral hhead), helement,
      Except.bind, if_pos hfits, ihMore]
    rfl

/-- What is read has a derivation. -/
theorem yields_of_content (fits : Element → Bool) :
    ∀ base (r : Reader) c s, r.content fits base = .ok (c, s) → r.Yields fits base c s := by
  refine (element_content_induction (P := fun r => ∀ e s, r.element fits = .ok (e, s) →
    ∃ t, r.head = .ok (e.head, t) ∧ ((e.head.isVoid = true ∧ e.content = .nil ∧ s = t) ∨
      (e.head.isVoid = false ∧ t.Yields fits r.indent e.content s))) ?_ ?_).2
  · intro r ih e s h
    obtain ⟨t, hhead, hvoid | ⟨hvoid, hcontent⟩⟩ := element_eq_ok_iff.mp h
    · exact ⟨t, hhead, .inl hvoid⟩
    · exact ⟨t, hhead, .inr ⟨hvoid, ih r.indent t (remaining_of_head hhead) _ _ hcontent⟩⟩
  · intro base r ihElement ihContent c u h
    rw [content_eq] at h
    split at h
    · rename_i hindent
      cases h
      exact .ended (.inl hindent)
    · rename_i hindent
      have hindent : base < r.indent := Nat.lt_of_not_le hindent
      split at h
      · rename_i hend
        have hrest : r.rest = [] := List.isEmpty_iff.mp hend
        split at h
        · rename_i hnone
          cases h
          refine .ended (.inr ⟨hrest, ?_⟩)
          rw [takeExpr?, hrest] at hnone
          cases hlater : r.later with
          | nil => rfl
          | cons f fs => rw [hlater] at hnone; cases hnone
        · rename_i i s hs
          have hlt := Nat.lt_of_le_of_lt (remaining_skipBlank_le s) (remaining_of_takeExpr? hs)
          split at h
          · cases h
          · rename_i more t ht
            cases h
            exact .expr hindent hs (ihContent _ hlt _ _ ht)
      · split at h
        · cases h
        · rename_i text s hs
          split at h
          · rename_i htext
            have hlt := Nat.lt_of_le_of_lt (remaining_skipBlank_le s)
              (remaining_lt_of_literal hs htext)
            split at h
            · cases h
            · rename_i more t ht
              cases h
              exact .text hindent hs htext (ihContent _ hlt _ _ ht)
          · rename_i htext
            rw [Decidable.not_not.mp htext] at hs
            have hle := remaining_of_literal hs
            split at h
            · cases h
            · rename_i child t ht
              have hlt := Nat.lt_of_le_of_lt (remaining_skipBlank_le t) (remaining_of_element ht)
              split at h
              · rename_i hfits
                split at h
                · cases h
                · rename_i more v hv
                  cases h
                  have hmore := ihContent _ (by omega) _ _ hv
                  obtain ⟨w, hhead, ⟨hvoid, hnil, rfl⟩ | ⟨hvoid, hinner⟩⟩ := ihElement s hle _ _ ht
                  · rw [hnil]
                    refine .void hindent hs hhead hvoid ?_ hmore
                    rwa [← hnil]
                  · exact .element hindent hs hhead hvoid hinner hfits hmore
              · cases h

theorem content_eq_ok_iff : r.content fits base = .ok (c, s) ↔ r.Yields fits base c s :=
  ⟨yields_of_content fits base r c s, Yields.content_eq⟩

/-- Content is read forward. -/
theorem Yields.remaining_le (h : r.Yields fits base c s) : s.remaining ≤ r.remaining :=
  remaining_of_content h.content_eq

end Reader

theorem Template.read_of_options {fits : Element → Bool} {r s : Reader} {flag : Bool}
    (h : r.options = .ok (flag, s)) :
    Template.read fits r = (s.element fits).map fun root => (⟨flag, root.1⟩, root.2) := by
  rw [read, h]
  dsimp only
  cases s.element fits <;> rfl

/-- A template is options and an element. -/
theorem Template.read_eq_ok_iff {fits : Element → Bool} {r u : Reader} {t : Template} :
    Template.read fits r = .ok (t, u) ↔
      ∃ s, r.options = .ok (t.disableCloning, s) ∧ s.element fits = .ok (t.root, u) := by
  constructor
  · intro h
    unfold read at h
    split at h
    · cases h
    · rename_i flag s hs
      split at h
      · cases h
      · rename_i root v hv
        cases h
        exact ⟨s, hs, hv⟩
  · rintro ⟨s, hs, hu⟩
    rw [read_of_options hs, hu]
    rfl

end Stencil
