import Mathlib.Data.List.TakeWhile
import Stencil.Element.Parser

/-!
# What reading does to a reader, and what it gives

Two things are said of every reading step, and of the grammar built from the steps.

`Reads r s exprs asks` says how a reader moves from `r` to `s`: it takes the expressions
`exprs`, which are consecutive and begin with the next one, it notes `asks`, which are
some of them in order, and it is left with an end of the fragment it has come to and
all fragments after it. It composes, so each rule of the grammar gets one lemma. A
reader that stopped at a fault has moved in the same way; `Promises` covers both.

The second thing is the shape of what was read: names are names, a text is not empty,
and a void element has no content.
-/

namespace Stencil

/-- A name of a tag, a class or an attribute. -/
def IsName (name : String) : Prop :=
  ∃ c cs, name.toList = c :: cs ∧ Reader.isNameStart c = true
    ∧ ∀ d ∈ cs, Reader.isNameMore d = true

/-! ## The expressions of a template, in the order they are written -/

namespace ClassPart

/-- The expression, whether or not its value goes into the markup. -/
def taken : ClassPart → List Nat
  | names _ => []
  | expr i => [i]

/-- A class expression is always asked about. -/
abbrev asked (cls : ClassPart) : List Nat := cls.taken

def WellFormed : ClassPart → Prop
  | names list => ∀ name ∈ list, IsName name
  | expr _ => True

end ClassPart

namespace Binding

def taken : Binding → List Nat
  | flag _ => []
  | value _ _ => []
  | named _ _ i => [i]
  | directive i => [i]

/-- Of the bindings, only an attribute is asked about. -/
def asked : Binding → List Nat
  | named .attr _ i => [i]
  | _ => []

/-- The names that go into the markup are names, and a value is not empty. -/
def WellFormed : Binding → Prop
  | flag name => IsName name
  | value name text => IsName name ∧ text ≠ ""
  | named kind name _ => kind = .attr → IsName name
  | directive _ => True

end Binding

namespace Head

def taken (head : Head) : List Nat :=
  head.cls.taken ++ head.bindings.flatMap (·.taken)

def asked (head : Head) : List Nat :=
  head.cls.asked ++ head.bindings.flatMap (·.asked)

def WellFormed (head : Head) : Prop :=
  IsName head.tag ∧ head.cls.WellFormed ∧ ∀ b ∈ head.bindings, b.WellFormed

end Head

namespace Content

def taken : Content → List Nat
  | nil => []
  | text _ next => next.taken
  | expr i next => i :: next.taken
  | element head inner next => head.taken ++ inner.taken ++ next.taken

def asked : Content → List Nat
  | nil => []
  | text _ next => next.asked
  | expr _ next => next.asked
  | element head inner next => head.asked ++ inner.asked ++ next.asked

/-- No text is empty, and a void element has no content. -/
def WellFormed : Content → Prop
  | nil => True
  | text s next => s ≠ "" ∧ next.WellFormed
  | expr _ next => next.WellFormed
  | element head inner next =>
    head.WellFormed ∧ (head.isVoid = true → inner = nil) ∧ inner.WellFormed ∧ next.WellFormed

/-- Every nested element has passed the test that is made when it is complete. -/
def AllFit (fits : Element → Bool) : Content → Prop
  | nil => True
  | text _ next => next.AllFit fits
  | expr _ next => next.AllFit fits
  | element head inner next =>
    fits ⟨head, inner⟩ = true ∧ inner.AllFit fits ∧ next.AllFit fits

end Content

namespace Element

def taken (e : Element) : List Nat := e.head.taken ++ e.content.taken

def asked (e : Element) : List Nat := e.head.asked ++ e.content.asked

def WellFormed (e : Element) : Prop :=
  e.head.WellFormed ∧ (e.head.isVoid = true → e.content = .nil) ∧ e.content.WellFormed

end Element

namespace Reader

/-! ## How a reader moves -/

/-- The reader moved from `r` to `s`, took `exprs` on the way and noted `asks` of them. -/
structure Reads (r s : Reader) (exprs asks : List Nat) : Prop where
  /-- The expressions are consecutive, from the next one on. -/
  consecutive : exprs = List.range' r.index exprs.length
  index : s.index = r.index + exprs.length
  later : s.later = r.later.drop exprs.length
  /-- What is unread is an end of the fragment that was come to. -/
  rest : ∃ f, (r.rest :: r.later)[exprs.length]? = some f ∧ s.rest <:+ f
  asked : s.asked = asks.reverse ++ r.asked
  sublist : asks.Sublist exprs

/-- Moving on in the current fragment takes no expression. -/
theorem Reads.within {r s : Reader} (hi : s.index = r.index) (hl : s.later = r.later)
    (hr : s.rest <:+ r.rest) (ha : s.asked = r.asked) : Reads r s [] [] where
  consecutive := rfl
  index := hi
  later := hl
  rest := ⟨r.rest, rfl, hr⟩
  asked := ha
  sublist := List.Sublist.refl _

theorem Reads.refl (r : Reader) : Reads r r [] [] :=
  .within rfl rfl List.suffix_rfl rfl

theorem Reads.trans {r s t : Reader} {e₁ q₁ e₂ q₂ : List Nat} (h₁ : Reads r s e₁ q₁)
    (h₂ : Reads s t e₂ q₂) : Reads r t (e₁ ++ e₂) (q₁ ++ q₂) where
  consecutive := by
    rw [List.length_append, ← List.range'_append_1, ← h₁.consecutive, ← h₁.index,
      ← h₂.consecutive]
  index := by rw [h₂.index, h₁.index, List.length_append, Nat.add_assoc]
  later := by rw [h₂.later, h₁.later, List.drop_drop, List.length_append]
  rest := by
    obtain ⟨f, hf, hs⟩ := h₁.rest
    obtain ⟨g, hg, ht⟩ := h₂.rest
    rw [List.length_append]
    cases hlen : e₂.length with
    | zero =>
      -- nothing more was taken, so it is still the fragment of `s`
      rw [hlen, List.getElem?_cons_zero, Option.some.injEq] at hg
      exact ⟨f, hf, (hg ▸ ht).trans hs⟩
    | succ n =>
      rw [hlen, List.getElem?_cons_succ, h₁.later, List.getElem?_drop] at hg
      refine ⟨g, ?_, ht⟩
      rw [← Nat.add_assoc, List.getElem?_cons_succ]
      exact hg
  asked := by rw [h₂.asked, h₁.asked, List.reverse_append, List.append_assoc]
  sublist := h₁.sublist.append h₂.sublist

/-- The expressions that were taken stand in order, each once. -/
theorem Reads.sortedLT_asks {r s : Reader} {exprs asks : List Nat} (h : Reads r s exprs asks) :
    asks.Pairwise (· < ·) := by
  refine List.Pairwise.sublist h.sublist ?_
  rw [h.consecutive]
  exact List.pairwise_lt_range'

/-- A reader never takes more expressions than there are fragments to open. -/
theorem Reads.length_le {r s : Reader} {exprs asks : List Nat} (h : Reads r s exprs asks) :
    exprs.length ≤ r.later.length := by
  obtain ⟨f, hf, _⟩ := h.rest
  obtain ⟨hlt, _⟩ := List.getElem?_eq_some_iff.mp hf
  exact Nat.le_of_lt_succ hlt

/-! ## The single steps -/

theorem reads_withRest {r : Reader} {cs : List Char} (h : cs <:+ r.rest) :
    Reads r (r.withRest cs) [] [] :=
  .within rfl rfl h rfl

/-- Passing one character. -/
theorem reads_mark {r : Reader} {c : Char} {cs : List Char} (h : r.rest = c :: cs) :
    Reads r (r.withRest cs) [] [] := by
  refine reads_withRest ?_
  rw [h]
  exact List.suffix_cons _ _

theorem measure_suffix (indent : Nat) (cs : List Char) : (measure indent cs).2 <:+ cs := by
  induction cs generalizing indent with
  | nil => exact List.suffix_rfl
  | cons c cs ih =>
    unfold measure
    split
    · exact (ih _).trans (List.suffix_cons _ _)
    · split
      · exact (ih _).trans (List.suffix_cons _ _)
      · exact List.suffix_rfl

theorem reads_skipBlank (r : Reader) : Reads r r.skipBlank [] [] :=
  .within rfl rfl (measure_suffix _ _) rfl

theorem reads_liftIndent (r : Reader) (base : Nat) : Reads r (r.liftIndent base) [] [] := by
  unfold liftIndent
  split
  · exact .within rfl rfl List.suffix_rfl rfl
  · exact .refl r

theorem reads_of_takeExpr? {r s : Reader} {i : Nat} (h : r.takeExpr? = some (i, s)) :
    Reads r s [i] [] := by
  unfold takeExpr? at h
  split at h
  · rename_i f fs hr hl
    simp only [Option.some.injEq, Prod.mk.injEq] at h
    obtain ⟨rfl, rfl⟩ := h
    exact {
      consecutive := rfl
      index := rfl
      later := by rw [hl]; rfl
      rest := ⟨f, by rw [hl]; rfl, List.suffix_rfl⟩
      asked := rfl
      sublist := List.nil_sublist _ }
  · cases h

/-- Taking an expression and noting it. -/
theorem reads_ask_of_takeExpr? {r s : Reader} {i : Nat} (h : r.takeExpr? = some (i, s)) :
    Reads r (s.ask i) [i] [i] := by
  have ht := reads_of_takeExpr? h
  exact {
    consecutive := ht.consecutive
    index := ht.index
    later := ht.later
    rest := ht.rest
    asked := by
      show i :: s.asked = _
      rw [ht.asked]
      rfl
    sublist := List.Sublist.refl _ }

theorem reads_of_lexeme? {first more : Char → Bool} {r s : Reader} {name : String}
    (h : r.lexeme? first more = some (name, s)) : Reads r s [] [] := by
  unfold lexeme? at h
  split at h
  · rename_i c cs hr
    split at h
    · simp only [Option.some.injEq, Prod.mk.injEq] at h
      rw [← h.2]
      refine reads_withRest ?_
      rw [hr]
      exact (List.dropWhile_suffix _).trans (List.suffix_cons _ _)
    · cases h
  · cases h

theorem isName_of_name? {r s : Reader} {name : String} (h : r.name? = some (name, s)) :
    IsName name := by
  unfold name? lexeme? at h
  split at h
  · rename_i c cs hr
    split at h
    · rename_i hc
      simp only [Option.some.injEq, Prod.mk.injEq] at h
      refine ⟨c, cs.takeWhile isNameMore, ?_, hc, fun d hd => ?_⟩
      · rw [← h.1, String.toList_ofList]
      · exact List.mem_takeWhile_imp hd
    · cases h
  · cases h

theorem reads_of_equals? {r s : Reader} (h : r.equals? = some s) : Reads r s [] [] := by
  unfold equals? at h
  split at h
  · rename_i cs hr
    simp only [Option.some.injEq] at h
    rw [← h]
    exact reads_mark hr
  · cases h

theorem suffix_of_closeLiteral {hashes : Nat} {done cs content rest : List Char}
    (h : closeLiteral hashes done cs = .closed content rest) : rest <:+ cs := by
  fun_induction closeLiteral hashes done cs with
  | case1 => cases h
  | case2 => cases h
  | case3 done cs hb he =>
    simp only [Literal.closed.injEq] at h
    rw [← h.2]
    exact (List.drop_suffix _ _).trans (List.suffix_cons _ _)
  | case4 done cs hb he ih => exact (ih h).trans (List.suffix_cons _ _)
  | case5 done c cs hc ih => exact (ih h).trans (List.suffix_cons _ _)

theorem suffix_of_literal? {cs content rest : List Char}
    (h : literal? cs = some (.closed content rest)) : rest <:+ cs := by
  unfold literal? at h
  split at h
  · rename_i body hb
    simp only [Option.some.injEq] at h
    have hdrop : ('\'' :: body) <:+ cs := hb ▸ List.dropWhile_suffix _
    exact (suffix_of_closeLiteral h).trans ((List.suffix_cons _ _).trans hdrop)
  · cases h

/-! ## Steps that may fail -/

/--
What a reading step promises from `r` on: if it gives something, the reader has taken
the expressions of it and noted those to be asked about, and `good` holds of it; and if
it fails, the reader has moved forward to the place of the fault.
-/
def Promises {α : Type} (r : Reader) (taken asked : α → List Nat) (good : α → Prop) :
    Except Failure (α × Reader) → Prop
  | .ok (x, s) => Reads r s (taken x) (asked x) ∧ good x
  | .error failure => ∃ exprs asks, Reads r failure.reader exprs asks

theorem literal_promises (r : Reader) :
    Promises r (fun _ => []) (fun _ => []) (fun _ => True) r.literal := by
  unfold literal
  split
  · rename_i content rest hc
    exact ⟨reads_withRest (suffix_of_literal? hc), trivial⟩
  · exact ⟨[], [], .refl r⟩
  · exact ⟨.refl r, trivial⟩
  · exact ⟨.refl r, trivial⟩

/-- A fault after some reading is a fault of the whole. -/
theorem Reads.fail {r s : Reader} {e q : List Nat} {failure : Failure} (h : Reads r s e q)
    (hf : ∃ exprs asks, Reads s failure.reader exprs asks) :
    ∃ exprs asks, Reads r failure.reader exprs asks := by
  obtain ⟨exprs, asks, hf⟩ := hf
  exact ⟨_, _, h.trans hf⟩

/-! ## Class part and bindings -/

theorem classNames_promises (r : Reader) :
    Promises r (fun _ => []) (fun _ => []) (fun names => ∀ name ∈ names, IsName name)
      r.classNames := by
  fun_induction classNames r with
  | case1 r cs hr hn =>
    exact ⟨[], [], reads_mark hr⟩
  | case2 r cs hr name s hn hlt failure hf ih =>
    have hs := (reads_mark hr).trans (reads_of_lexeme? hn)
    rw [hf] at ih
    exact hs.fail ih
  | case3 r cs hr name s hn hlt names t ht ih =>
    have hs := (reads_mark hr).trans (reads_of_lexeme? hn)
    rw [ht] at ih
    refine ⟨hs.trans ih.1, ?_⟩
    intro m hm
    rcases List.mem_cons.mp hm with rfl | hm
    · exact isName_of_name? hn
    · exact ih.2 m hm
  | case4 r hr => exact ⟨.refl r, by simp⟩

theorem classPart_promises (r : Reader) :
    Promises r ClassPart.taken ClassPart.asked ClassPart.WellFormed r.classPart := by
  unfold classPart
  split
  · rename_i ht
    exact ⟨reads_ask_of_takeExpr? ht, trivial⟩
  · have hn := classNames_promises r
    split
    · rename_i hf
      rwa [hf] at hn
    · rename_i hs
      rwa [hs] at hn

theorem attrBinding_promises (r : Reader) :
    Promises r Binding.taken Binding.asked Binding.WellFormed r.attrBinding := by
  unfold attrBinding
  split
  · exact ⟨[], [], .refl r⟩
  · rename_i name s hn
    have hname := isName_of_name? hn
    have hs : Reads r s [] [] := reads_of_lexeme? hn
    split
    · exact ⟨hs, hname⟩
    · rename_i t he
      have ht : Reads r t [] [] := hs.trans (reads_of_equals? he)
      have hl := literal_promises t
      split
      · rename_i hf
        rw [hf] at hl
        exact ht.fail hl
      · rename_i text u hu
        rw [hu] at hl
        have hu : Reads r u [] [] := ht.trans hl.1
        split
        · rename_i hne
          exact ⟨hu, hname, hne⟩
        · -- no literal after the equals sign, so there has to be an expression
          split
          · exact ⟨[], [], hu⟩
          · rename_i i v hv
            exact ⟨hu.trans (reads_ask_of_takeExpr? hv), fun _ => hname⟩

theorem namedBinding_promises {kind : NamedProp} {fault : Fault} {first more : Char → Bool}
    (hkind : kind ≠ .attr) (r : Reader) :
    Promises r Binding.taken Binding.asked Binding.WellFormed
      (r.namedBinding kind (lexeme? first more) fault) := by
  have hasked : ∀ name i, (Binding.named kind name i).asked = [] := by
    intro name i
    cases kind with
    | attr => exact absurd rfl hkind
    | _ => rfl
  unfold namedBinding
  split
  · exact ⟨[], [], .refl r⟩
  · rename_i name s hn
    have hs : Reads r s [] [] := reads_of_lexeme? hn
    split
    · exact ⟨[], [], hs⟩
    · rename_i t he
      have ht : Reads r t [] [] := hs.trans (reads_of_equals? he)
      split
      · exact ⟨[], [], ht⟩
      · rename_i i u hu
        refine ⟨?_, fun h => absurd h hkind⟩
        rw [hasked]
        exact ht.trans (reads_of_takeExpr? hu)

theorem directiveBinding_promises (r : Reader) :
    Promises r Binding.taken Binding.asked Binding.WellFormed r.directiveBinding := by
  unfold directiveBinding
  split
  · exact ⟨[], [], .refl r⟩
  · rename_i i s hs
    exact ⟨reads_of_takeExpr? hs, trivial⟩

/-- What a step promises after the mark of a binding, it promises with the mark. -/
theorem Promises.after {α : Type} {r s : Reader} {taken asked : α → List Nat} {good : α → Prop}
    {result : Except Failure (α × Reader)} (h : Reads r s [] [])
    (hp : Promises s taken asked good result) : Promises r taken asked good result := by
  match result, hp with
  | .ok (x, t), hp => exact ⟨h.trans hp.1, hp.2⟩
  | .error failure, hp => exact h.fail hp

theorem binding?_promises {r : Reader} {result : Except Failure (Binding × Reader)}
    (h : r.binding? = some result) :
    Promises r Binding.taken Binding.asked Binding.WellFormed result := by
  unfold binding? at h
  split at h
  -- without one of the six marks there is no binding
  case h_7 => cases h
  all_goals
    rename_i cs hr
    rw [← Option.some.inj h]
    refine Promises.after (reads_mark hr) ?_
  · exact attrBinding_promises _
  · exact namedBinding_promises (by decide) _
  · exact namedBinding_promises (by decide) _
  · exact namedBinding_promises (by decide) _
  · exact namedBinding_promises (by decide) _
  · exact directiveBinding_promises _

theorem bindings_promises (base : Nat) (r : Reader) :
    Promises r (·.flatMap Binding.taken) (·.flatMap Binding.asked) (∀ b ∈ ·, b.WellFormed)
      (r.bindings base) := by
  fun_induction bindings base r with
  | case1 r _ => exact ⟨.refl r, by simp⟩
  | case2 r _ _ => exact ⟨.refl r, by simp⟩
  | case3 r _ failure hb => exact binding?_promises hb
  | case4 r _ b s hb hlt failure hf ih =>
    have hs := (binding?_promises hb).1.trans (reads_skipBlank s)
    rw [hf] at ih
    exact hs.fail ih
  | case5 r _ b s hb hlt bs t ht ih =>
    obtain ⟨hs, hgood⟩ := binding?_promises hb
    rw [ht] at ih
    refine ⟨?_, ?_⟩
    · simpa using hs.trans ((reads_skipBlank s).trans ih.1)
    · intro c hc
      rcases List.mem_cons.mp hc with rfl | hc
      · exact hgood
      · exact ih.2 c hc

theorem head_promises (r : Reader) :
    Promises r Head.taken Head.asked Head.WellFormed r.head := by
  unfold Reader.head
  split
  · exact ⟨[], [], .refl r⟩
  · rename_i tag s hn
    have hs : Reads r (s.liftIndent r.indent) [] [] :=
      (reads_of_lexeme? hn).trans (reads_liftIndent s _)
    have hc := classPart_promises (s.liftIndent r.indent)
    split
    · rename_i hf
      rw [hf] at hc
      exact hs.fail hc
    · rename_i cls t ht
      rw [ht] at hc
      have hskip : Reads r t.skipBlank cls.taken cls.asked := by
        simpa using (hs.trans hc.1).trans (reads_skipBlank t)
      have hb := bindings_promises r.indent t.skipBlank
      split
      · rename_i hf
        rw [hf] at hb
        exact hskip.fail hb
      · rename_i bs u hu
        rw [hu] at hb
        exact ⟨hskip.trans hb.1, isName_of_name? hn, hc.2, hb.2⟩

/-! ## Elements and content -/

/--
The induction behind `element_eq` and `content_eq`. An element's content is read with
less left; the items of content are read with no more left than content, and the
content after an item with less.
-/
theorem element_content_induction {P : Reader → Prop} {Q : Nat → Reader → Prop}
    (element : ∀ r, (∀ base s, s.remaining < r.remaining → Q base s) → P r)
    (content : ∀ base r, (∀ s, s.remaining ≤ r.remaining → P s) →
      (∀ s, s.remaining < r.remaining → Q base s) → Q base r) :
    (∀ r, P r) ∧ ∀ base r, Q base r := by
  have hboth : ∀ n, (∀ r : Reader, r.remaining ≤ n → P r)
      ∧ ∀ base (r : Reader), r.remaining ≤ n → Q base r := by
    intro n
    induction n with
    | zero =>
      have hP : ∀ r : Reader, r.remaining ≤ 0 → P r := fun r hr =>
        element r fun base s hs => absurd hs (by omega)
      exact ⟨hP, fun base r hr =>
        content base r (fun s hs => hP s (by omega)) fun s hs => absurd hs (by omega)⟩
    | succ n ih =>
      have hP : ∀ r : Reader, r.remaining ≤ n + 1 → P r := fun r hr =>
        element r fun base s hs => ih.2 base s (by omega)
      exact ⟨hP, fun base r hr =>
        content base r (fun s hs => hP s (by omega)) fun s hs => ih.2 base s (by omega)⟩
  exact ⟨fun r => (hboth _).1 r (Nat.le_refl _), fun base r => (hboth _).2 base r (Nat.le_refl _)⟩

/-- What is promised of an element that was read. -/
def GoodElement (fits : Element → Bool) (e : Element) : Prop :=
  e.WellFormed ∧ e.content.AllFit fits

def GoodContent (fits : Element → Bool) (c : Content) : Prop :=
  c.WellFormed ∧ c.AllFit fits

theorem element_content_promises (fits : Element → Bool) :
    (∀ r : Reader, Promises r Element.taken Element.asked (GoodElement fits) (r.element fits))
      ∧ ∀ base (r : Reader),
        Promises r Content.taken Content.asked (GoodContent fits) (r.content fits base) := by
  refine element_content_induction ?_ ?_
  · intro r ih
    rw [element_eq]
    have hh := head_promises r
    split
    · rename_i hf
      rwa [hf] at hh
    · rename_i head s hs
      rw [hs] at hh
      split
      · -- a void element ends with its head
        refine ⟨?_, ⟨hh.2, fun _ => rfl, trivial⟩, trivial⟩
        simpa [Element.taken, Element.asked, Content.taken, Content.asked] using hh.1
      · rename_i hv
        have hc := ih r.indent s (remaining_of_head hs)
        split
        · rename_i hf
          rw [hf] at hc
          exact hh.1.fail hc
        · rename_i c t ht
          rw [ht] at hc
          exact ⟨hh.1.trans hc.1, ⟨hh.2, fun h => absurd h hv, hc.2.1⟩, hc.2.2⟩
  · intro base r ihElement ihContent
    rw [content_eq]
    split
    · exact ⟨.refl r, trivial, trivial⟩
    · split
      · -- at the end of the fragment: an expression, if there is one
        split
        · exact ⟨.refl r, trivial, trivial⟩
        · rename_i i s hs
          have hskip := (reads_of_takeExpr? hs).trans (reads_skipBlank s)
          have hc := ihContent s.skipBlank
            (Nat.lt_of_le_of_lt (remaining_skipBlank_le s) (remaining_of_takeExpr? hs))
          split
          · rename_i hf
            rw [hf] at hc
            exact hskip.fail hc
          · rename_i more t ht
            rw [ht] at hc
            exact ⟨hskip.trans hc.1, hc.2⟩
      · have hl := literal_promises r
        split
        · rename_i hf
          rwa [hf] at hl
        · rename_i text s hs
          rw [hs] at hl
          split
          · -- a literal that is there is never empty
            rename_i hne
            have hskip := hl.1.trans (reads_skipBlank s)
            have hc := ihContent s.skipBlank
              (Nat.lt_of_le_of_lt (remaining_skipBlank_le s) (remaining_lt_of_literal hs hne))
            split
            · rename_i hf
              rw [hf] at hc
              exact hskip.fail hc
            · rename_i more t ht
              rw [ht] at hc
              exact ⟨hskip.trans hc.1, ⟨hne, hc.2.1⟩, hc.2.2⟩
          · -- no literal: an element, and the content after it
            have he := ihElement s (remaining_of_literal hs)
            split
            · rename_i hf
              rw [hf] at he
              exact hl.1.fail he
            · rename_i child t ht
              rw [ht] at he
              have hchild := hl.1.trans he.1
              split
              · rename_i hfit
                have hskip := hchild.trans (reads_skipBlank t)
                have hlt : t.skipBlank.remaining < r.remaining :=
                  Nat.lt_of_le_of_lt (remaining_skipBlank_le t)
                    (Nat.lt_of_lt_of_le (remaining_of_element ht) (remaining_of_literal hs))
                have hc := ihContent t.skipBlank hlt
                split
                · rename_i hf
                  rw [hf] at hc
                  exact hskip.fail hc
                · rename_i more u hu
                  rw [hu] at hc
                  refine ⟨?_, ⟨he.2.1.1, he.2.1.2.1, he.2.1.2.2, hc.2.1⟩, hfit, he.2.2, hc.2.2⟩
                  simpa [Content.taken, Content.asked, Element.taken, Element.asked] using
                    hskip.trans hc.1
              · -- an element that is too large is a fault after all of it was read
                exact ⟨_, _, hchild⟩

theorem element_promises (fits : Element → Bool) (r : Reader) :
    Promises r Element.taken Element.asked (GoodElement fits) (r.element fits) :=
  (element_content_promises fits).1 r

/-! ## Templates -/

theorem options_promises (r : Reader) :
    Promises r (fun _ => []) (fun _ => []) (fun _ => True) r.options := by
  unfold options
  split
  · exact ⟨.refl r, trivial⟩
  · exact ⟨.refl r, trivial⟩
  · rename_i cs hr
    have hcs : Reads r (r.withRest cs) [] [] :=
      reads_withRest (by rw [hr]; exact (List.suffix_cons _ _).trans (List.suffix_cons _ _))
    split
    · exact ⟨hcs.trans (reads_skipBlank _), trivial⟩
    · exact ⟨[], [], hcs⟩
  · exact ⟨[], [], .refl r⟩
  · exact ⟨reads_skipBlank r, trivial⟩

end Reader

/-- **What reading a template promises**, whether or not it succeeds. -/
theorem Template.read_promises (fits : Element → Bool) (r : Reader) :
    Reader.Promises r (·.root.taken) (·.root.asked) (Reader.GoodElement fits ·.root)
      (Template.read fits r) := by
  unfold Template.read
  have ho := r.options_promises
  split
  · rename_i hf
    rwa [hf] at ho
  · rename_i flag s hs
    rw [hs] at ho
    have he := s.element_promises fits
    split
    · rename_i hf
      rw [hf] at he
      exact ho.1.fail he
    · rename_i root t ht
      rw [ht] at he
      exact ⟨ho.1.trans he.1, he.2⟩

end Stencil
