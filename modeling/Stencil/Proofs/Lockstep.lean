import Stencil.Proofs.Rules

/-!
# Readers in lockstep

Two readers of different templates, or in two columns of one line, can read the same. To say
so, they are related, and the relation is kept while both move.

`TokensInStep` asks this of the single steps: reading a character that belongs to no value,
taking an expression, reading a literal. It follows for names, the class part and bindings.

`Lockstep` adds the blank space, by which the indentation is measured and which therefore
decides what belongs to an element. There are two relations. Readers within a line are in the
first. Readers that have skipped the blank space after an item are in the second, and only of
these it is asked whether an element goes on. The indentations of two elements need not be the
same as long as they correspond. What the first reader yields is then yielded by the second,
by induction on the derivation. Bindings are a premise there, `BindsInStep`, because the place
where two templates differ can be inside one.

Some steps need to keep clear of the place where the templates part. They are only asked
of a first reader with `bound` symbols or more left after them.
-/

namespace Stencil

/-! ## Elements that match -/

section Matches

variable (B : Binding → Binding → Prop) (E : Nat → Nat → Prop)

/-- The same class part, up to how its expression is numbered. -/
inductive ClassPart.Matches : ClassPart → ClassPart → Prop where
  | names (list : List String) : Matches (.names list) (.names list)
  | expr {i i' : Nat} (h : E i i') : Matches (.expr i) (.expr i')

/-- The same binding, up to how its expression is numbered. -/
inductive Binding.Renumbered : Binding → Binding → Prop where
  | flag (name : String) : Renumbered (.flag name) (.flag name)
  | value (name text : String) : Renumbered (.value name text) (.value name text)
  | named (kind : NamedProp) (name : String) {i i' : Nat} (h : E i i') :
      Renumbered (.named kind name i) (.named kind name i')
  | directive {i i' : Nat} (h : E i i') : Renumbered (.directive i) (.directive i')

structure Head.Matches (head head' : Head) : Prop where
  tag : head'.tag = head.tag
  cls : head.cls.Matches E head'.cls
  bindings : List.Forall₂ B head.bindings head'.bindings

/-- Content with the same items, and bindings and expressions that correspond. -/
inductive Content.Matches : Content → Content → Prop where
  | nil : Matches .nil .nil
  | text {next next' : Content} (s : String) (hnext : Matches next next') :
      Matches (.text s next) (.text s next')
  | expr {i i' : Nat} {next next' : Content} (h : E i i') (hnext : Matches next next') :
      Matches (.expr i next) (.expr i' next')
  | element {head head' : Head} {inner inner' next next' : Content}
      (hhead : head.Matches B E head') (hinner : Matches inner inner')
      (hnext : Matches next next') :
      Matches (.element head inner next) (.element head' inner' next')

end Matches

theorem Head.Matches.isVoid {B : Binding → Binding → Prop} {E : Nat → Nat → Prop}
    {head head' : Head} (h : head.Matches B E head') : head'.isVoid = head.isVoid := by
  rw [Head.isVoid, Head.isVoid, h.tag]

/-! Where nothing is numbered anew, what matches is the same. -/

theorem Binding.Renumbered.eq {b b' : Binding} (h : Renumbered Eq b b') : b = b' := by
  cases h with
  | flag => rfl
  | value => rfl
  | named kind name h => rw [h]
  | directive h => rw [h]

theorem ClassPart.Matches.eq {cls cls' : ClassPart} (h : cls.Matches Eq cls') : cls = cls' := by
  cases h with
  | names => rfl
  | expr h => rw [h]

theorem Head.Matches.eq {head head' : Head} (h : head.Matches (Binding.Renumbered Eq) Eq head') :
    head = head' := by
  obtain ⟨tag, cls, bindings⟩ := head
  obtain ⟨tag', cls', bindings'⟩ := head'
  obtain rfl : tag' = tag := h.tag
  obtain rfl : cls = cls' := h.cls.eq
  obtain rfl : bindings = bindings' :=
    List.forall₂_eq_eq_eq ▸ h.bindings.imp fun _ _ => Binding.Renumbered.eq
  rfl

theorem Content.Matches.eq {c c' : Content} (h : c.Matches (Binding.Renumbered Eq) Eq c') :
    c = c' := by
  induction h with
  | nil => rfl
  | text s _ ih => rw [ih]
  | expr h _ ih => rw [h, ih]
  | element hhead _ _ ihInner ihNext => rw [hhead.eq, ihInner, ihNext]

/-- The bindings in content, at any depth. -/
def Content.bindings : Content → List Binding
  | nil => []
  | text _ next => next.bindings
  | expr _ next => next.bindings
  | element head inner next => head.bindings ++ inner.bindings ++ next.bindings

namespace Reader

/-- Neither an equals sign nor the first character of a literal. -/
def isPlain (c : Char) : Bool :=
  c != '=' && c != '#' && c != '\''

theorem isPlain_of {p : Char → Bool} (hequals : p '=' = false) (hhash : p '#' = false)
    (hquote : p '\'' = false) {c : Char} (h : p c = true) : isPlain c = true := by
  have hne : ∀ d, p d = false → c ≠ d := by
    rintro d hd rfl
    exact Bool.noConfusion (h.symm.trans hd)
  simp [isPlain, hne _ hequals, hne _ hhash, hne _ hquote]

theorem ne_of_isPlain {c : Char} (h : isPlain c = true) : (c ≠ '=' ∧ c ≠ '#') ∧ c ≠ '\'' := by
  simpa [isPlain] using h

/-- Blank space, and what a literal begins with. -/
def notSigns : List Char := [' ', '\t', '\n', '\r', '#', '\'']

/-- Neither blank space nor the first character of a literal. -/
def isSign (c : Char) : Bool :=
  !notSigns.contains c

theorem isSign_of {p : Char → Bool} (hnone : notSigns.any p = false) {c : Char} (h : p c = true) :
    isSign c = true := by
  have hc : c ∉ notSigns := fun hmem => List.any_eq_false.mp hnone c hmem h
  simpa [isSign] using hc

/-- The first character can begin a literal. -/
def OpensLiteral (cs : List Char) : Prop :=
  cs.head? = some '#' ∨ cs.head? = some '\''

theorem literal_of_not_opens {r : Reader} (h : ¬ OpensLiteral r.rest) :
    r.literal = .ok ("", r) := by
  unfold OpensLiteral at h
  have hnone : literal? r.rest = none := by
    cases hr : r.rest with
    | nil => rfl
    | cons c cs =>
      rw [hr] at h
      simp only [List.head?_cons, Option.some.injEq, not_or] at h
      rw [literal?, List.dropWhile_cons_of_neg (by simpa using h.1)]
      split
      · next hbody => exact absurd (List.cons.inj hbody).1 h.2
      · rfl
  rw [literal, hnone]

/-- The mark of a binding belongs to no value and is no blank space. -/
theorem isPlain_and_isSign_of_ruleOf? {c : Char}
    {rule : Reader → Except Failure (Binding × Reader)} (h : ruleOf? c = some rule) :
    isPlain c = true ∧ isSign c = true := by
  unfold ruleOf? at h
  split at h
  case h_7 => cases h
  all_goals exact ⟨rfl, rfl⟩

theorem exists_of_name? {r s : Reader} {name : String} (h : r.name? = some (name, s)) :
    ∃ c cs, r.rest = c :: cs ∧ isNameStart c = true := by
  unfold Reader.name? Reader.lexeme? at h
  split at h
  · rename_i c cs hcs
    split at h
    · rename_i hc
      exact ⟨c, cs, hcs, hc⟩
    · cases h
  · cases h

/-- A head begins with the first character of a tag. -/
theorem exists_of_head {r s : Reader} {head : Head} (h : r.head = .ok (head, s)) :
    ∃ c cs, r.rest = c :: cs ∧ isNameStart c = true := by
  obtain ⟨_, _, hname, _⟩ := head_eq_ok_iff.mp h
  exact exists_of_name? hname

theorem not_opensLiteral_of_isNameStart {c : Char} {cs : List Char} (hc : isNameStart c = true) :
    ¬ OpensLiteral (c :: cs) := by
  rintro (hopens | hopens)
  all_goals
    cases hopens
    cases hc

theorem not_opensLiteral_of_head {r s : Reader} {head : Head} (h : r.head = .ok (head, s)) :
    ¬ OpensLiteral r.rest := by
  obtain ⟨c, cs, hcs, hc⟩ := exists_of_head h
  rw [hcs]
  exact not_opensLiteral_of_isNameStart hc

/-! ## Tokens -/

/-- Related readers read tokens together. -/
structure TokensInStep (bound : Nat) (E : Nat → Nat → Prop) (R : Reader → Reader → Prop) :
    Prop where
  /-- A sign is next for both or for neither. -/
  sees {r r' : Reader} {c : Char} : R r r' → isSign c = true →
    (r'.rest.head? = some c ↔ r.rest.head? = some c)
  opens {r r' : Reader} : R r r' → OpensLiteral r'.rest → OpensLiteral r.rest
  char {r r' : Reader} {c : Char} {cs : List Char} : R r r' → isPlain c = true → r.rest = c :: cs →
    ∃ cs', r'.rest = c :: cs' ∧ R (r.withRest cs) (r'.withRest cs')
  expr {r r' s : Reader} {i : Nat} : R r r' → r.takeExpr? = some (i, s) →
    ∃ i' s', r'.takeExpr? = some (i', s') ∧ E i i' ∧ R s s' ∧ R (s.ask i) (s'.ask i')
  noExpr {r r' : Reader} : R r r' → r.takeExpr? = none → r'.takeExpr? = none
  closed {r r' : Reader} {content rest : List Char} : R r r' →
    literal? r.rest = some (.closed content rest) → bound ≤ (r.withRest rest).remaining →
    ∃ rest', literal? r'.rest = some (.closed content rest') ∧
      R (r.withRest rest) (r'.withRest rest')

/-- They read equals signs together. -/
def EqualsInStep (bound : Nat) (R : Reader → Reader → Prop) : Prop :=
  ∀ {r r' s : Reader}, R r r' → r.equals? = some s → bound ≤ s.remaining →
    ∃ s', r'.equals? = some s' ∧ R s s'

/-- Where the first reads a `good` binding by this rule, the second reads one to match. -/
def RuleInStep (bound : Nat) (B : Binding → Binding → Prop) (good : Binding → Prop)
    (R : Reader → Reader → Prop) (rule : Reader → Except Failure (Binding × Reader)) : Prop :=
  ∀ {r r' s : Reader} {b : Binding}, R r r' → rule r = .ok (b, s) → bound ≤ s.remaining →
    good b → ∃ b' s', rule r' = .ok (b', s') ∧ B b b' ∧ R s s'

/-- They read bindings together, by whichever rule. -/
def BindsInStep (bound : Nat) (B : Binding → Binding → Prop) (good : Binding → Prop)
    (R : Reader → Reader → Prop) : Prop :=
  ∀ {c : Char} {rule : Reader → Except Failure (Binding × Reader)}, ruleOf? c = some rule →
    RuleInStep bound B good R rule

variable {bound : Nat} {E : Nat → Nat → Prop} {R : Reader → Reader → Prop}
variable {B : Binding → Binding → Prop} {good : Binding → Prop}
variable {r r' s : Reader}

theorem takeWhile_stops {more : Char → Bool} {cs : List Char}
    (h : ∀ c, cs.head? = some c → ¬ more c = true) :
    cs.takeWhile more = [] ∧ cs.dropWhile more = cs := by
  cases cs with
  | nil => exact ⟨rfl, rfl⟩
  | cons c cs => exact ⟨List.takeWhile_cons_of_neg (h c rfl), List.dropWhile_cons_of_neg (h c rfl)⟩

/-- A run of characters is read by both, if they are next for both or for neither. -/
theorem takeWhile_of_related {more : Char → Bool}
    (hsees : ∀ {r r' : Reader} {c : Char}, R r r' → more c = true →
      r'.rest.head? = some c → r.rest.head? = some c)
    (hchar : ∀ {r r' : Reader} {c : Char} {cs : List Char}, R r r' → more c = true →
      r.rest = c :: cs → ∃ cs', r'.rest = c :: cs' ∧ R (r.withRest cs) (r'.withRest cs'))
    (h : R r r') :
    r'.rest.takeWhile more = r.rest.takeWhile more
      ∧ R (r.withRest (r.rest.dropWhile more)) (r'.withRest (r'.rest.dropWhile more)) := by
  have hstops : ∀ {r r' : Reader}, R r r' → (∀ c, r.rest.head? = some c → ¬ more c = true) →
      r'.rest.takeWhile more = r.rest.takeWhile more
        ∧ R (r.withRest (r.rest.dropWhile more)) (r'.withRest (r'.rest.dropWhile more)) := by
    intro r r' h hnone
    have hnone' : ∀ c, r'.rest.head? = some c → ¬ more c = true :=
      fun c hc hmore => hnone c (hsees h hmore hc) hmore
    rw [(takeWhile_stops hnone).1, (takeWhile_stops hnone).2, (takeWhile_stops hnone').1,
      (takeWhile_stops hnone').2]
    exact ⟨rfl, h⟩
  generalize hcs : r.rest = cs
  induction cs generalizing r r' with
  | nil =>
    rw [← hcs]
    refine hstops h fun c hc => ?_
    rw [hcs] at hc
    cases hc
  | cons c cs ih =>
    by_cases hc : more c = true
    · obtain ⟨cs', hcs', hnext⟩ := hchar h hc hcs
      obtain ⟨htake, hdrop⟩ := ih hnext rfl
      rw [hcs', List.takeWhile_cons_of_pos hc, List.takeWhile_cons_of_pos hc,
        List.dropWhile_cons_of_pos hc, List.dropWhile_cons_of_pos hc]
      exact ⟨congrArg (c :: ·) htake, hdrop⟩
    · rw [← hcs]
      refine hstops h fun d hd => ?_
      rw [hcs] at hd
      cases hd
      exact hc

namespace TokensInStep

theorem lexeme? (hR : TokensInStep bound E R) {first more : Char → Bool}
    (hfirst : ∀ c, first c → isPlain c) (hmore : ∀ c, more c → isPlain c)
    (hsign : ∀ c, more c → isSign c) (h : R r r') {name : String}
    (hname : r.lexeme? first more = some (name, s)) :
    ∃ s', r'.lexeme? first more = some (name, s') ∧ R s s' := by
  unfold Reader.lexeme? at hname
  split at hname
  · rename_i c cs hcs
    split at hname
    · rename_i hc
      obtain ⟨rfl, rfl⟩ := Prod.mk.inj (Option.some.inj hname)
      obtain ⟨cs', hcs', hnext⟩ := hR.char h (hfirst c hc) hcs
      obtain ⟨htake, hdrop⟩ := takeWhile_of_related
        (fun h hc => (hR.sees h (hsign _ hc)).mp) (fun h hc => hR.char h (hmore _ hc)) hnext
      refine ⟨_, ?_, hdrop⟩
      rw [Reader.lexeme?, hcs']
      dsimp only
      rw [if_pos hc]
      exact congrArg (fun ds => some (String.ofList (c :: ds), r'.withRest _)) htake
    · cases hname
  · cases hname

theorem name? (hR : TokensInStep bound E R) {name : String} (h : R r r')
    (hname : r.name? = some (name, s)) : ∃ s', r'.name? = some (name, s') ∧ R s s' :=
  hR.lexeme? (fun _ => isPlain_of rfl rfl rfl) (fun _ => isPlain_of rfl rfl rfl)
    (fun _ => isSign_of rfl) h hname

theorem propertyName? (hR : TokensInStep bound E R) {name : String} (h : R r r')
    (hname : r.propertyName? = some (name, s)) :
    ∃ s', r'.propertyName? = some (name, s') ∧ R s s' :=
  hR.lexeme? (fun _ => isPlain_of rfl rfl rfl) (fun _ => isPlain_of rfl rfl rfl)
    (fun _ => isSign_of rfl) h hname

/-! ## The class part -/

theorem classNames (hR : TokensInStep bound E R) (h : R r r') {names : List String}
    (hnames : r.classNames = .ok (names, s)) : ∃ s', r'.classNames = .ok (names, s') ∧ R s s' := by
  fun_induction Reader.classNames r generalizing r' names s with
  | case1 => cases hnames
  | case2 => cases hnames
  | case3 r cs hcs name t hname _ names u hu ih =>
    cases hnames
    obtain ⟨cs', hcs', hnext⟩ := hR.char h rfl hcs
    obtain ⟨t', hname', ht⟩ := hR.name? hnext hname
    obtain ⟨u', hmore, hu⟩ := ih ht hu
    exact ⟨u', classNames_cons hcs' hname' hmore, hu⟩
  | case4 r hne =>
    cases hnames
    refine ⟨r', classNames_nil fun hpoint => ?_, h⟩
    obtain ⟨cs, hcs⟩ := List.head?_eq_some_iff.mp ((hR.sees h rfl).mp hpoint)
    exact hne cs hcs

theorem classPart (hR : TokensInStep bound E R) (h : R r r') {cls : ClassPart}
    (hcls : r.classPart = .ok (cls, s)) :
    ∃ cls' s', r'.classPart = .ok (cls', s') ∧ cls.Matches E cls' ∧ R s s' := by
  unfold Reader.classPart at hcls ⊢
  split at hcls
  · rename_i i t ht
    cases hcls
    obtain ⟨i', t', ht', hi, _, hask⟩ := hR.expr h ht
    rw [ht']
    exact ⟨_, _, rfl, .expr hi, hask⟩
  · rename_i hnone
    rw [hR.noExpr h hnone]
    split at hcls
    · cases hcls
    · rename_i names t ht
      cases hcls
      obtain ⟨t', ht', hR'⟩ := hR.classNames h ht
      dsimp only
      rw [ht']
      exact ⟨_, _, rfl, .names names, hR'⟩

/-! ## Bindings -/

/-- A literal with something in it is read by both; where there is none, none begins. -/
theorem literal (hR : TokensInStep bound E R) (h : R r r') {text : String}
    (hliteral : r.literal = .ok (text, s)) (hbound : bound ≤ s.remaining)
    (hthere : text ≠ "" ∨ ¬ OpensLiteral s.rest) : ∃ s', r'.literal = .ok (text, s') ∧ R s s' := by
  unfold Reader.literal at hliteral
  split at hliteral
  · rename_i content rest hclosed
    cases hliteral
    obtain ⟨rest', hclosed', hnext⟩ := hR.closed h hclosed hbound
    refine ⟨_, ?_, hnext⟩
    rw [Reader.literal, hclosed']
  · cases hliteral
  all_goals
    cases hliteral
    have hopens : ¬ OpensLiteral r.rest := hthere.resolve_left (fun hne => hne rfl)
    exact ⟨r', literal_of_not_opens (mt (hR.opens h) hopens), h⟩

theorem equals?_eq_none (hR : TokensInStep bound E R) (h : R r r') (hnone : r.equals? = none) :
    r'.equals? = none := by
  unfold Reader.equals? at hnone ⊢
  split at hnone
  · cases hnone
  · rename_i hne
    split
    · next cs' hcs' =>
      have hequals : r.rest.head? = some '=' := (hR.sees h rfl).mp (by rw [hcs']; rfl)
      obtain ⟨cs, hcs⟩ := List.head?_eq_some_iff.mp hequals
      exact absurd hcs (hne cs)
    · rfl

theorem attrBinding (hR : TokensInStep bound E R) (hequals : EqualsInStep bound R) :
    RuleInStep bound (Binding.Renumbered E) (fun _ => True) R Reader.attrBinding := by
  intro r r' u b h hb hbound _
  obtain ⟨name, s, hname, hvalue⟩ := attrBinding_cases hb
  obtain ⟨s', hname', hs⟩ := hR.name? h hname
  rcases hvalue with ⟨hnone, rfl, rfl⟩ | ⟨t, ht, hvalue⟩
  · exact ⟨_, _, attrBinding_flag hname' (hR.equals?_eq_none hs hnone), .flag name, hs⟩
  · rcases hvalue with ⟨text, hliteral, htext, rfl⟩ | ⟨v, i, w, hliteral, hexpr, rfl, rfl⟩
    · have hle := remaining_of_literal hliteral
      obtain ⟨t', ht', hnext⟩ := hequals hs ht (by omega)
      obtain ⟨u', hliteral', hu⟩ := hR.literal hnext hliteral hbound (.inl htext)
      exact ⟨_, _, attrBinding_value hname' ht' hliteral' htext, .value name text, hu⟩
    · have hle := remaining_of_literal hliteral
      have hlt := remaining_of_takeExpr? hexpr
      rw [remaining_ask] at hbound
      obtain ⟨t', ht', hnext⟩ := hequals hs ht (by omega)
      have hopens : ¬ OpensLiteral v.rest := by
        unfold OpensLiteral
        rw [rest_of_takeExpr? hexpr]
        simp
      obtain ⟨v', hliteral', hv⟩ := hR.literal hnext hliteral (by omega) (.inr hopens)
      obtain ⟨i', w', hexpr', hi, _, hask⟩ := hR.expr hv hexpr
      exact ⟨_, _, attrBinding_expr hname' ht' hliteral' hexpr', .named .attr name hi, hask⟩

theorem namedBinding (hR : TokensInStep bound E R) (hequals : EqualsInStep bound R)
    {name? : Reader → Option (String × Reader)} (kind : NamedProp) (fault : Fault)
    (hname? : ∀ {r r' s : Reader} {name : String}, R r r' → name? r = some (name, s) →
      ∃ s', name? r' = some (name, s') ∧ R s s') :
    RuleInStep bound (Binding.Renumbered E) (fun _ => True) R
      (Reader.namedBinding kind name? fault) := by
  intro r r' u b h hb hbound _
  obtain ⟨name, s, t, i, hname, ht, hexpr, rfl⟩ := namedBinding_eq_ok_iff.mp hb
  have hlt := remaining_of_takeExpr? hexpr
  obtain ⟨s', hname', hs⟩ := hname? h hname
  obtain ⟨t', ht', hnext⟩ := hequals hs ht (by omega)
  obtain ⟨i', u', hexpr', hi, hu, _⟩ := hR.expr hnext hexpr
  exact ⟨_, u', namedBinding_eq_ok_iff.mpr ⟨name, s', t', i', hname', ht', hexpr', rfl⟩,
    .named kind name hi, hu⟩

theorem directiveBinding (hR : TokensInStep bound E R) :
    RuleInStep bound (Binding.Renumbered E) (fun _ => True) R Reader.directiveBinding := by
  intro r r' u b h hb _ _
  obtain ⟨i, hexpr, rfl⟩ := directiveBinding_eq_ok_iff.mp hb
  obtain ⟨i', u', hexpr', hi, hu, _⟩ := hR.expr h hexpr
  exact ⟨_, u', directiveBinding_eq_ok_iff.mpr ⟨i', hexpr', rfl⟩, .directive hi, hu⟩

/-- With the equals signs, whole bindings are in step. -/
theorem bindsInStep (hR : TokensInStep bound E R) (hequals : EqualsInStep bound R) :
    BindsInStep bound (Binding.Renumbered E) (fun _ => True) R := by
  intro c rule hrule
  unfold ruleOf? at hrule
  split at hrule
  case h_7 => cases hrule
  all_goals
    obtain rfl := Option.some.inj hrule
  · exact hR.attrBinding hequals
  · exact hR.namedBinding hequals _ _ hR.propertyName?
  · exact hR.namedBinding hequals _ _ hR.propertyName?
  · exact hR.namedBinding hequals _ _ hR.name?
  · exact hR.namedBinding hequals _ _ hR.name?
  · exact hR.directiveBinding

theorem binding? (hR : TokensInStep bound E R) (hB : BindsInStep bound B good R) (h : R r r')
    {b : Binding} (hb : r.binding? = some (.ok (b, s))) (hbound : bound ≤ s.remaining)
    (hgood : good b) : ∃ b' s', r'.binding? = some (.ok (b', s')) ∧ B b b' ∧ R s s' := by
  cases hcs : r.rest with
  | nil =>
    rw [binding?_nil hcs] at hb
    cases hb
  | cons c cs =>
    rw [binding?_cons hcs] at hb
    obtain ⟨rule, hrule, hread⟩ := Option.map_eq_some_iff.mp hb
    obtain ⟨cs', hcs', hnext⟩ := hR.char h (isPlain_and_isSign_of_ruleOf? hrule).1 hcs
    obtain ⟨b', s', hread', hmatch, hs⟩ := hB hrule hnext hread hbound hgood
    refine ⟨b', s', ?_, hmatch, hs⟩
    rw [binding?_cons hcs', hrule, Option.map_some, hread']

theorem binding?_eq_none (hR : TokensInStep bound E R) (h : R r r') (hnone : r.binding? = none) :
    r'.binding? = none := by
  cases hcs' : r'.rest with
  | nil => exact binding?_nil hcs'
  | cons c cs' =>
    rw [binding?_cons hcs', Option.map_eq_none_iff]
    cases hrule : ruleOf? c with
    | none => rfl
    | some rule =>
      -- the mark would be next for the first reader as well
      have hsign := (isPlain_and_isSign_of_ruleOf? hrule).2
      have hmark := (hR.sees h hsign).mp (by rw [hcs']; rfl)
      obtain ⟨cs, hcs⟩ := List.head?_eq_some_iff.mp hmark
      rw [binding?_cons hcs, hrule] at hnone
      cases hnone

end TokensInStep

/-! ## Lines -/

/-- Content of an element at `base` does not go on here. -/
def Ended (base : Nat) (r : Reader) : Prop :=
  r.indent ≤ base ∨ r.rest = [] ∧ r.later = []

/--
Readers that are related by `R` read tokens together. Where they have skipped blank space they
are related by `S`, and what belongs to elements with indentations that correspond by `D` goes
on for both or for neither.
-/
structure Lockstep (bound : Nat) (E : Nat → Nat → Prop) (R S : Reader → Reader → Prop)
    (D : Nat → Nat → Prop) : Prop extends TokensInStep bound E R where
  indent {r r' : Reader} : R r r' → D r.indent r'.indent
  liftIndent {r r' s s' : Reader} : R r r' → R s s' →
    R (s.liftIndent r.indent) (s'.liftIndent r'.indent)
  skipBlank {r r' : Reader} : R r r' → S r.skipBlank r'.skipBlank
  skipAgain {r r' : Reader} : S r r' → S r.skipBlank r'.skipBlank
  ended {r r' : Reader} {base base' : Nat} : S r r' → D base base' → r.Ended base → r'.Ended base'
  goesOn {r r' : Reader} {base base' : Nat} : S r r' → D base base' → ¬ r.Ended base →
    base' < r'.indent ∧ R r r'

theorem bindings_of_ended {base : Nat} (h : r.Ended base) : r.bindings base = .ok ([], r) := by
  rcases h with hindent | ⟨hrest, _⟩
  · exact bindings_nil (.inl hindent)
  · exact bindings_nil (.inr (binding?_nil hrest))

theorem not_ended {base : Nat} (hindent : base < r.indent) (hrest : r.rest ≠ [] ∨ r.later ≠ []) :
    ¬ r.Ended base := by
  rintro (hle | ⟨hnil, hlater⟩)
  · omega
  · exact hrest.elim (· hnil) (· hlater)

theorem later_ne_nil_of_takeExpr? {i : Nat} (h : r.takeExpr? = some (i, s)) : r.later ≠ [] := by
  intro hlater
  rw [takeExpr?, hlater] at h
  split at h
  · next heq => cases heq
  · cases h

theorem rest_ne_nil_of_literal {text : String} (h : r.literal = .ok (text, s)) (htext : text ≠ "") :
    r.rest ≠ [] := by
  intro hrest
  cases h.symm.trans (literal_of_rest_nil hrest)
  exact htext rfl

namespace Lockstep

variable {S : Reader → Reader → Prop} {D : Nat → Nat → Prop} {base base' : Nat}

theorem bindings (hL : Lockstep bound E R S D) (hB : BindsInStep bound B good R) (h : S r r')
    (hbase : D base base') {bs : List Binding} (hbs : r.bindings base = .ok (bs, s))
    (hbound : bound ≤ s.remaining) (hgood : ∀ b ∈ bs, good b) :
    ∃ bs' s', r'.bindings base' = .ok (bs', s') ∧ List.Forall₂ B bs bs' ∧ S s s' := by
  fun_induction Reader.bindings base r generalizing r' bs s with
  | case1 r hindent =>
    cases hbs
    exact ⟨[], r', bindings_of_ended (hL.ended h hbase (.inl hindent)), .nil, h⟩
  | case2 r hindent hnone =>
    cases hbs
    refine ⟨[], r', ?_, .nil, h⟩
    by_cases hend : r.Ended base
    · exact bindings_of_ended (hL.ended h hbase hend)
    · exact bindings_nil (.inr (hL.binding?_eq_none (hL.goesOn h hbase hend).2 hnone))
  | case3 => cases hbs
  | case4 => cases hbs
  | case5 r hindent b t hb _ bs u hu ih =>
    cases hbs
    have hle := remaining_of_bindings hu
    have hblank := remaining_skipBlank_le t
    have hrest : r.rest ≠ [] := by
      intro hrest
      rw [binding?_nil hrest] at hb
      cases hb
    obtain ⟨hgoodb, hgoodbs⟩ := List.forall_mem_cons.mp hgood
    obtain ⟨hindent', hr⟩ := hL.goesOn h hbase (not_ended (by omega) (.inl hrest))
    obtain ⟨b', t', hb', hmatch, ht⟩ := hL.binding? hB hr hb (by omega) hgoodb
    obtain ⟨bs', u', hbs', hmore, hu'⟩ := ih (hL.skipBlank ht) hu hbound hgoodbs
    exact ⟨b' :: bs', u', bindings_cons hindent' hb' hbs', .cons hmatch hmore, hu'⟩

theorem head (hL : Lockstep bound E R S D) (hB : BindsInStep bound B good R) (h : R r r')
    {head : Head} (hhead : r.head = .ok (head, s)) (hbound : bound ≤ s.remaining)
    (hgood : ∀ b ∈ head.bindings, good b) :
    ∃ head' s', r'.head = .ok (head', s') ∧ head.Matches B E head' ∧ S s s' := by
  obtain ⟨t, u, hname, hcls, hbs⟩ := head_eq_ok_iff.mp hhead
  obtain ⟨t', hname', ht⟩ := hL.name? h hname
  obtain ⟨cls', u', hcls', hmatch, hu⟩ := hL.classPart (hL.liftIndent h ht) hcls
  obtain ⟨bs', s', hbs', hmatches, hs⟩ :=
    hL.bindings hB (hL.skipBlank hu) (hL.indent h) hbs hbound hgood
  exact ⟨⟨head.tag, cls', bs'⟩, s', head_eq_ok_iff.mpr ⟨t', u', hname', hcls', hbs'⟩,
    ⟨rfl, hmatch, hmatches⟩, hs⟩

/--
What the first reader yields, the second yields with bindings and expressions to match,
provided that a match of an element that fits fits as well.
-/
theorem yields (hL : Lockstep bound E R S D) (hB : BindsInStep bound B good R)
    {fits fits' : Element → Bool}
    (hfits : ∀ {head head' inner inner'}, head.Matches B E head' → inner.Matches B E inner' →
      fits ⟨head, inner⟩ = true → fits' ⟨head', inner'⟩ = true)
    {c : Content} (hc : r.Yields fits base c s) (hbound : bound ≤ s.remaining)
    (hgood : ∀ b ∈ c.bindings, good b) (h : S r r') (hbase : D base base') :
    ∃ c' s', r'.Yields fits' base' c' s' ∧ c.Matches B E c' ∧ S s s' := by
  induction hc generalizing r' base' with
  | ended hend => exact ⟨.nil, r', .ended (hL.ended h hbase hend), .nil, h⟩
  | expr hindent hexpr hmore ih =>
    obtain ⟨hindent', hr⟩ :=
      hL.goesOn h hbase (not_ended hindent (.inr (later_ne_nil_of_takeExpr? hexpr)))
    obtain ⟨i', s', hexpr', hi, hs, _⟩ := hL.expr hr hexpr
    obtain ⟨more', t', hmore', hmatch, ht⟩ := ih hbound hgood (hL.skipBlank hs) hbase
    exact ⟨_, t', .expr hindent' hexpr' hmore', .expr hi hmatch, ht⟩
  | @text base r s t text more hindent hliteral htext hmore ih =>
    have hle := hmore.remaining_le
    have hblank := remaining_skipBlank_le s
    obtain ⟨hindent', hr⟩ :=
      hL.goesOn h hbase (not_ended hindent (.inl (rest_ne_nil_of_literal hliteral htext)))
    obtain ⟨s', hliteral', hs⟩ := hL.literal hr hliteral (by omega) (.inl htext)
    obtain ⟨more', t', hmore', hmatch, ht⟩ := ih hbound hgood (hL.skipBlank hs) hbase
    exact ⟨_, t', .text hindent' hliteral' htext hmore', .text text hmatch, ht⟩
  | @void base r s t u head more hindent hliteral hhead hvoid hfit hmore ih =>
    have hle := hmore.remaining_le
    have hblank := remaining_skipBlank_le t
    have hlt := remaining_of_head hhead
    obtain ⟨hgoodHead, hgoodMore⟩ := List.forall_mem_append.mp hgood
    obtain ⟨hindent', hr⟩ :=
      hL.goesOn h hbase (not_ended hindent (.inl (rest_ne_nil_of_element hliteral hhead)))
    obtain ⟨s', hliteral', hs⟩ :=
      hL.literal hr hliteral (by omega) (.inr (not_opensLiteral_of_head hhead))
    obtain ⟨head', t', hhead', hmatch, ht⟩ := hL.head hB hs hhead (by omega)
      (List.forall_mem_append.mp hgoodHead).1
    obtain ⟨more', u', hmore', hmatches, hu⟩ := ih hbound hgoodMore (hL.skipAgain ht) hbase
    exact ⟨_, u', .void hindent' hliteral' hhead' (hmatch.isVoid.trans hvoid)
      (hfits hmatch .nil hfit) hmore', .element hmatch .nil hmatches, hu⟩
  | @element base r s t u v head inner more hindent hliteral hhead hvoid hinner hfit hmore
      ihInner ihMore =>
    have hle := hmore.remaining_le
    have hblank := remaining_skipBlank_le u
    have hleInner := hinner.remaining_le
    have hlt := remaining_of_head hhead
    obtain ⟨hgoodFront, hgoodMore⟩ := List.forall_mem_append.mp hgood
    obtain ⟨hgoodHead, hgoodInner⟩ := List.forall_mem_append.mp hgoodFront
    obtain ⟨hindent', hr⟩ :=
      hL.goesOn h hbase (not_ended hindent (.inl (rest_ne_nil_of_element hliteral hhead)))
    obtain ⟨s', hliteral', hs⟩ :=
      hL.literal hr hliteral (by omega) (.inr (not_opensLiteral_of_head hhead))
    obtain ⟨head', t', hhead', hmatch, ht⟩ := hL.head hB hs hhead (by omega) hgoodHead
    obtain ⟨inner', u', hinner', hmatchInner, hu⟩ := ihInner (by omega) hgoodInner ht (hL.indent hs)
    obtain ⟨more', v', hmore', hmatchMore, hv⟩ := ihMore hbound hgoodMore (hL.skipAgain hu) hbase
    exact ⟨_, v', .element hindent' hliteral' hhead' (hmatch.isVoid.trans hvoid) hinner'
      (hfits hmatch hmatchInner hfit) hmore', .element hmatch hmatchInner hmatchMore, hv⟩

/-- An element is read by both, void or with its content. -/
theorem element (hL : Lockstep bound E R S D) (hB : BindsInStep bound B good R)
    {fits fits' : Element → Bool}
    (hfits : ∀ {head head' inner inner'}, head.Matches B E head' → inner.Matches B E inner' →
      fits ⟨head, inner⟩ = true → fits' ⟨head', inner'⟩ = true)
    (h : R r r') {e : Element} (helement : r.element fits = .ok (e, s))
    (hbound : bound ≤ s.remaining)
    (hgood : ∀ b ∈ e.head.bindings ++ e.content.bindings, good b) :
    ∃ e' s', r'.element fits' = .ok (e', s') ∧ e.head.Matches B E e'.head
      ∧ e.content.Matches B E e'.content ∧ S s s' := by
  obtain ⟨t, hhead, hcontent⟩ := element_eq_ok_iff.mp helement
  obtain ⟨hgoodHead, hgoodContent⟩ := List.forall_mem_append.mp hgood
  rcases hcontent with ⟨hvoid, hnil, rfl⟩ | ⟨hvoid, hcontent⟩
  · obtain ⟨head', s', hhead', hmatch, hs⟩ := hL.head hB h hhead hbound hgoodHead
    have hvoid' := hmatch.isVoid.trans hvoid
    refine ⟨⟨head', .nil⟩, s', ?_, hmatch, ?_, hs⟩
    · exact element_eq_ok_iff.mpr ⟨s', hhead', .inl ⟨hvoid', rfl, rfl⟩⟩
    · rw [hnil]
      exact .nil
  · have hle := remaining_of_content hcontent
    obtain ⟨head', t', hhead', hmatch, ht⟩ := hL.head hB h hhead (by omega) hgoodHead
    have hvoid' := hmatch.isVoid.trans hvoid
    obtain ⟨content', s', hyields, hmatches, hs⟩ := hL.yields hB hfits
      (content_eq_ok_iff.mp hcontent) hbound hgoodContent ht (hL.indent h)
    exact ⟨⟨head', content'⟩, s',
      element_eq_ok_iff.mpr ⟨t', hhead', .inr ⟨hvoid', hyields.content_eq⟩⟩, hmatch, hmatches, hs⟩

/-! ## Nothing numbered anew -/

section Same

variable {fits : Element → Bool} (hL : Lockstep bound Eq R S D) (hequals : EqualsInStep bound R)
include hL hequals

theorem same_head {head : Head} (h : R r r') (hhead : r.head = .ok (head, s))
    (hbound : bound ≤ s.remaining) : ∃ s', r'.head = .ok (head, s') ∧ S s s' := by
  obtain ⟨head', s', hhead', hmatch, hs⟩ :=
    hL.head (hL.bindsInStep hequals) h hhead hbound fun _ _ => trivial
  exact ⟨s', by rw [hmatch.eq, hhead'], hs⟩

theorem same_bindings {bs : List Binding} (h : S r r') (hbase : D base base')
    (hbs : r.bindings base = .ok (bs, s)) (hbound : bound ≤ s.remaining) :
    ∃ s', r'.bindings base' = .ok (bs, s') ∧ S s s' := by
  obtain ⟨bs', s', hbs', hmatch, hs⟩ :=
    hL.bindings (hL.bindsInStep hequals) h hbase hbs hbound fun _ _ => trivial
  obtain rfl : bs = bs' := List.forall₂_eq_eq_eq ▸ hmatch.imp fun _ _ => Binding.Renumbered.eq
  exact ⟨s', hbs', hs⟩

omit hequals in
omit hL in
theorem fits_of_same {head head' : Head} {inner inner' : Content}
    (hhead : head.Matches (Binding.Renumbered Eq) Eq head')
    (hinner : inner.Matches (Binding.Renumbered Eq) Eq inner')
    (hfits : fits ⟨head, inner⟩ = true) : fits ⟨head', inner'⟩ = true := by
  rwa [← hhead.eq, ← hinner.eq]

theorem same_yields {c : Content} (hc : r.Yields fits base c s) (hbound : bound ≤ s.remaining)
    (h : S r r') (hbase : D base base') : ∃ s', r'.Yields fits base' c s' ∧ S s s' := by
  obtain ⟨c', s', hyields, hmatch, hs⟩ :=
    hL.yields (hL.bindsInStep hequals) fits_of_same hc hbound (fun _ _ => trivial) h hbase
  exact ⟨s', by rw [hmatch.eq]; exact hyields, hs⟩

theorem same_element {e : Element} (h : R r r') (helement : r.element fits = .ok (e, s))
    (hbound : bound ≤ s.remaining) : ∃ s', r'.element fits = .ok (e, s') ∧ S s s' := by
  obtain ⟨⟨head', content'⟩, s', helement', hhead, hcontent, hs⟩ :=
    hL.element (hL.bindsInStep hequals) fits_of_same h helement hbound fun _ _ => trivial
  obtain rfl : e.head = head' := hhead.eq
  obtain rfl : e.content = content' := hcontent.eq
  exact ⟨s', helement', hs⟩

end Same

end Lockstep
end Reader
end Stencil
