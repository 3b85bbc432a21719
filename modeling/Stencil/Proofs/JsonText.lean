import Mathlib.Data.List.Basic
import Mathlib.Data.List.TakeWhile
import Stencil.Json.Parser

/-!
# JSON that is written is read back

Writing and reading are done by different grammars: the writer leaves out all blank
space and has one spelling for each text and each count, the reader takes every
spelling that JSON has. This file shows that the reader undoes the writer.

`ReadsBack j` says so of one value, with any text after it that a number can end at. It
is proved once for each way to build a value, so a value that is put together from
counts, texts, lists and fields reads back without looking at its text again. The
reader's results carry a bound on what is left; `value?`, `items?` and `members?` are the
same results without it.
-/

namespace Stencil.Json

/-! ## Strings -/

/-- The three ways to write a character: a short escape, a code unit, or as it is. -/
theorem escapeChar_cases (c : Char) :
    (∃ x, x ≠ 'u' ∧ escapeChar c = ['\\', x] ∧ escaped? x = some c)
      ∨ (∃ a b, escapeChar c = ['\\', 'u', '0', '0', a, b] ∧ hex4? '0' '0' a b = some c.toNat
        ∧ c.toNat < 0x20)
      ∨ (escapeChar c = [c] ∧ c ≠ '"' ∧ c ≠ '\\' ∧ 0x20 ≤ c.toNat) := by
  by_cases hshort : c ∈ ['"', '\\', '\x08', '\t', '\n', '\x0c', '\r']
  · left
    simp only [List.mem_cons, List.not_mem_nil, or_false] at hshort
    rcases hshort with rfl | rfl | rfl | rfl | rfl | rfl | rfl
    · exact ⟨'"', by decide, rfl, rfl⟩
    · exact ⟨'\\', by decide, rfl, rfl⟩
    · exact ⟨'b', by decide, rfl, rfl⟩
    · exact ⟨'t', by decide, rfl, rfl⟩
    · exact ⟨'n', by decide, rfl, rfl⟩
    · exact ⟨'f', by decide, rfl, rfl⟩
    · exact ⟨'r', by decide, rfl, rfl⟩
  · right
    simp only [List.mem_cons, List.not_mem_nil, or_false, not_or] at hshort
    obtain ⟨h1, h2, h3, h4, h5, h6, h7⟩ := hshort
    unfold escapeChar
    rw [if_neg h1, if_neg h2, if_neg h3, if_neg h4, if_neg h5, if_neg h6, if_neg h7]
    by_cases hlow : c.toNat < 0x20
    · left
      have hzero : Text.hexDigit? '0' = some 0 := rfl
      have hhigh := Text.hexDigit?_hexDigit (c.toNat / 16) (by omega)
      have hdigit := Text.hexDigit?_hexDigit (c.toNat % 16) (by omega)
      refine ⟨_, _, if_pos hlow, ?_, hlow⟩
      rw [hex4?, hzero, hhigh, hdigit]
      exact congrArg some (by omega)
    · right
      exact ⟨if_neg hlow, h1, h2, by omega⟩

theorem spelling_escapeChar (c : Char) (done rest : List Char) :
    spelling done (escapeChar c ++ rest) = spelling ((escapeChar c).reverse ++ done) rest := by
  rcases escapeChar_cases c with ⟨x, hx, hc, hs⟩ | ⟨a, b, hc, hh, _⟩ | ⟨hc, hq, hb, hl⟩
  · rw [hc]
    show spelling done ('\\' :: x :: rest) = _
    rw [spelling]
    · simp [hs]
    · intro _ _ _ _ _ h
      exact absurd h hx
  · rw [hc]
    show spelling done ('\\' :: 'u' :: '0' :: '0' :: a :: b :: rest) = _
    rw [spelling]
    simp [hh]
  · have hplain : ¬(c.toNat < 0x20 ∨ c = '\\') := by
      rintro (h | h)
      · omega
      · exact hb h
    rw [hc]
    show spelling done (c :: rest) = _
    rw [spelling, if_neg hplain]
    · rfl
    all_goals simp_all

/-- The spelling of a text is found up to the quote that closes it. -/
theorem spelling_escape (text done rest : List Char) :
    spelling done (escape text ++ '"' :: rest) = some (done.reverse ++ escape text, rest) := by
  induction text generalizing done with
  | nil => simp [escape, spelling]
  | cons c text ih =>
    show spelling done (escapeChar c ++ escape text ++ '"' :: rest) = _
    rw [List.append_assoc, spelling_escapeChar, ih]
    simp [escape]

theorem unescape_escapeChar (c : Char) (done rest : List Char) :
    unescape done (escapeChar c ++ rest) = unescape (c :: done) rest := by
  rcases escapeChar_cases c with ⟨x, hx, hc, hs⟩ | ⟨a, b, hc, hh, hl⟩ | ⟨hc, hq, hb, hl⟩
  · rw [hc]
    show unescape done ('\\' :: x :: rest) = _
    rw [unescape]
    · simp [hs]
    · intro _ _ _ _ _ h
      exact absurd h hx
  · -- a control character is no half of a surrogate pair
    have hunit : c.toNat < 0xD800 ∨ 0xDFFF < c.toNat := by omega
    rw [hc]
    show unescape done ('\\' :: 'u' :: '0' :: '0' :: a :: b :: rest) = _
    rw [unescape]
    simp only [hh, if_pos hunit, Char.ofNat_toNat]
  · rw [hc]
    show unescape done (c :: rest) = _
    rw [unescape]
    all_goals simp_all

/-- **The spelling of a text stands for the text**, whatever characters are in it. -/
theorem unescape_escape (text done : List Char) :
    unescape done (escape text) = some (done.reverse ++ text) := by
  induction text generalizing done with
  | nil => simp [escape, unescape]
  | cons c text ih =>
    show unescape done (escapeChar c ++ escape text) = _
    rw [unescape_escapeChar, ih]
    simp

/-! ## Numbers -/

/-- A number in front of this text ends there. -/
def EndsNumber (rest : List Char) : Prop :=
  ∀ c ∈ rest.head?, c.isDigit = false ∧ c ≠ '.' ∧ c ≠ 'e' ∧ c ≠ 'E'

theorem digits?_append {ds rest : List Char} (hne : ds ≠ []) (hds : ∀ d ∈ ds, d.isDigit = true)
    (hrest : EndsNumber rest) : digits? (ds ++ rest) = some (ds, rest) := by
  have hends : rest.takeWhile Char.isDigit = [] ∧ rest.dropWhile Char.isDigit = rest := by
    cases rest with
    | nil => exact ⟨rfl, rfl⟩
    | cons c rest =>
      have hc := (hrest c rfl).1
      exact ⟨List.takeWhile_cons_of_neg (by simp [hc]), List.dropWhile_cons_of_neg (by simp [hc])⟩
  unfold digits?
  rw [List.takeWhile_append_of_pos hds, List.dropWhile_append_of_pos hds, hends.1, hends.2,
    List.append_nil]
  cases ds with
  | nil => exact absurd rfl hne
  | cons d ds => rfl

theorem fraction?_of_endsNumber {rest : List Char} (h : EndsNumber rest) :
    fraction? rest = some ([], rest) := by
  unfold fraction?
  split
  · exact absurd rfl (h '.' rfl).2.1
  · rfl

theorem exponent?_of_endsNumber {rest : List Char} (h : EndsNumber rest) :
    exponent? rest = some ([], rest) := by
  unfold exponent?
  split
  · exact absurd rfl (h 'e' rfl).2.2.1
  · exact absurd rfl (h 'E' rfl).2.2.2
  · rfl

theorem isDigit_toDigits (n : Nat) : ∀ d ∈ Nat.toDigits 10 n, d.isDigit = true :=
  fun _ hd => Nat.isDigit_of_mem_toDigits (by omega) (by omega) hd

/-- The first digit of a count, also with more text after it. -/
theorem head?_toDigits_append (n : Nat) (rest : List Char) :
    (Nat.toDigits 10 n ++ rest).head? = (Nat.toDigits 10 n).head? :=
  List.head?_append_of_ne_nil _ Nat.toDigits_ne_nil

/-- Only zero itself is written with a zero in front. -/
theorem eq_zero_of_head?_toDigits {n : Nat} (h : (Nat.toDigits 10 n).head? = some '0') :
    n = 0 := by
  induction n using Nat.strongRecOn with
  | ind n ih =>
    by_cases hlt : n < 10
    · rw [Nat.toDigits_of_lt_base hlt] at h
      exact Nat.digitChar_eq_zero.mp (Option.some.inj h)
    · rw [Nat.toDigits_of_base_le (by omega) (by omega), head?_toDigits_append] at h
      have hdiv := ih (n / 10) (by omega) h
      omega

theorem number?_toDigits (n : Nat) {rest : List Char} (hrest : EndsNumber rest) :
    number? (Nat.toDigits 10 n ++ rest) = some (Nat.toDigits 10 n, rest) := by
  have hwhole : whole? (Nat.toDigits 10 n ++ rest) = some (Nat.toDigits 10 n, rest) := by
    unfold whole?
    split
    · rename_i tail heq
      have hhead := congrArg List.head? heq
      rw [head?_toDigits_append] at hhead
      obtain rfl := eq_zero_of_head?_toDigits hhead
      rw [Nat.toDigits_zero] at heq
      obtain rfl : rest = tail := by simpa using heq
      rfl
    · exact digits?_append Nat.toDigits_ne_nil (isDigit_toDigits n) hrest
  unfold number?
  split
  · rename_i tail heq
    have hhead := congrArg List.head? heq
    rw [head?_toDigits_append] at hhead
    exact absurd (isDigit_toDigits n _ (List.mem_of_mem_head? hhead)) (by decide)
  · simp only [magnitude?, hwhole, fraction?_of_endsNumber hrest, exponent?_of_endsNumber hrest,
      List.append_nil]

/-! ## What the reader does with the first token -/

/-- What was read and what is left, without the bound. -/
def Front.pair {α : Type} {s : List Char} (f : Front α s) : α × List Char :=
  (f.value, f.rest)

def value? (s : List Char) : Option (Json × List Char) :=
  (readValue? s).map Front.pair

def items? (s : List Char) : Option (List Json × List Char) :=
  (readItems? s).map Front.pair

def members? (s : List Char) : Option (List (List Char × Json) × List Char) :=
  (readMembers? s).map Front.pair

theorem skipBlank_cons {c : Char} (h : isBlank c = false) (s : List Char) :
    skipBlank (c :: s) = c :: s :=
  List.dropWhile_cons_of_neg (by simp [h])

/-- How a value is read, by its first token. -/
theorem value?_eq (s : List Char) :
    value? s =
      match skipBlank s with
      | '[' :: t =>
        match skipBlank t with
        | ']' :: u => some (.arr [], u)
        | _ => (items? t).map fun (items, u) => (.arr items, u)
      | '{' :: t =>
        match skipBlank t with
        | '}' :: u => some (.obj [], u)
        | _ => (members? t).map fun (members, u) => (.obj members, u)
      | '"' :: t => (spelling [] t).map fun (text, u) => (.str text, u)
      | 'n' :: 'u' :: 'l' :: 'l' :: t => some (.null, t)
      | 't' :: 'r' :: 'u' :: 'e' :: t => some (.bool true, t)
      | 'f' :: 'a' :: 'l' :: 's' :: 'e' :: t => some (.bool false, t)
      | t => (number? t).map fun (n, u) => (.num n, u) := by
  rw [value?, readValue?]
  split
  · next t hs =>
    simp only [hs]
    split
    · next u hu => simp only [hu, Option.map_some, Front.pair]
    · simp only [items?]
      cases readItems? t <;> rfl
  · next t hs =>
    simp only [hs]
    split
    · next u hu => simp only [hu, Option.map_some, Front.pair]
    · simp only [members?]
      cases readMembers? t <;> rfl
  · next t hs =>
    simp only [hs]
    split
    · next ht => simp only [ht, Option.map_some, Front.pair]
    · next ht => simp only [ht, Option.map_none]
  · next t hs => simp only [hs, Option.map_some, Front.pair]
  · next t hs => simp only [hs, Option.map_some, Front.pair]
  · next t hs => simp only [hs, Option.map_some, Front.pair]
  · split
    · next ht => simp only [ht, Option.map_some, Front.pair]
    · next ht => simp only [ht, Option.map_none]

/-- How items are read: a value, and then a comma with more of them or the bracket. -/
theorem items?_eq (s : List Char) :
    items? s =
      (value? s).bind fun (j, t) =>
        match skipBlank t with
        | ',' :: u => (items? u).map fun (js, v) => (j :: js, v)
        | ']' :: u => some ([j], u)
        | _ => none := by
  rw [items?, readItems?, value?]
  cases readValue? s with
  | none => rfl
  | some front =>
    simp only [Option.map_some, Option.bind_some, Front.pair]
    split
    · next u hu =>
      simp only [hu, items?]
      cases readItems? u <;> rfl
    · next u hu => simp only [hu, Option.map_some, Front.pair]
    · simp only [Option.map_none]

/-- How members are read: a name in quotes, a colon and a value, and then a comma with more of
them or the brace. -/
theorem members?_eq {s t u v w : List Char} {name : List Char} {j : Json}
    (hs : skipBlank s = '"' :: t) (ht : spelling [] t = some (name, u))
    (hu : skipBlank u = ':' :: v) (hv : value? v = some (j, w)) :
    members? s =
      match skipBlank w with
      | ',' :: w => (members? w).map fun (more, rest) => ((name, j) :: more, rest)
      | '}' :: w => some ([(name, j)], w)
      | _ => none := by
  obtain ⟨front, hfront, hpair⟩ := Option.map_eq_some_iff.mp hv
  obtain ⟨rfl, rfl⟩ := Prod.mk.inj hpair
  rw [members?, readMembers?]
  -- every test on the way is answered by one of the hypotheses
  split
  · rename_i t' heq
    obtain rfl : t = t' := by simpa using hs.symm.trans heq
    split
    · simp_all
    · rename_i name' u' heq
      obtain ⟨rfl, rfl⟩ : name = name' ∧ u = u' := by simpa using ht.symm.trans heq
      split
      · rename_i v' heq
        obtain rfl : v = v' := by simpa using hu.symm.trans heq
        rw [hfront]
        dsimp only
        split
        · rename_i w' heq
          simp only [heq, members?]
          cases readMembers? w' <;> rfl
        · rename_i w' heq
          simp only [heq]
          rfl
        · rename_i hcomma hbrace
          split
          · exact absurd ‹_› (hcomma _)
          · exact absurd ‹_› (hbrace _)
          · rfl
      · rename_i h
        exact absurd hu (h v)
  · rename_i h
    exact absurd hs (h t)

section Tokens

variable {s t u v : List Char} {j : Json}

theorem value?_string {text : List Char} (hs : skipBlank s = '"' :: t)
    (ht : spelling [] t = some (text, u)) : value? s = some (.str text, u) := by
  simp only [value?_eq, hs, ht, Option.map_some]

theorem value?_bool {b : Bool} (hs : skipBlank s = writeOnto (.bool b) t) :
    value? s = some (.bool b, t) := by
  cases b <;> simp only [value?_eq, hs, writeOnto]

theorem value?_number {d : Char} {n : List Char} (hs : skipBlank s = d :: t)
    (hd : d.isDigit = true) (hn : number? (d :: t) = some (n, u)) :
    value? s = some (.num n, u) := by
  rw [value?_eq, hs]
  split
  case h_7 => rw [hn, Option.map_some]
  -- no other token begins with a digit
  all_goals
    rename_i heq
    rw [(List.cons.inj heq).1] at hd
    exact absurd hd (by decide)

theorem value?_emptyArray (hs : skipBlank s = '[' :: t) (ht : skipBlank t = ']' :: u) :
    value? s = some (.arr [], u) := by
  simp only [value?_eq, hs, ht]

/-- No item begins with a closing bracket. -/
theorem items?_close (h : skipBlank t = ']' :: u) : items? t = none := by
  have hvalue : value? t = none := by
    rw [value?_eq, h]
    rfl
  rw [items?_eq, hvalue, Option.bind_none]

theorem value?_items {items : List Json} (hs : skipBlank s = '[' :: t)
    (ht : items? t = some (items, u)) : value? s = some (.arr items, u) := by
  simp only [value?_eq, hs]
  split
  · next hclose =>
    rw [items?_close hclose] at ht
    cases ht
  · rw [ht, Option.map_some]

theorem items?_last (hs : value? s = some (j, t)) (ht : skipBlank t = ']' :: u) :
    items? s = some ([j], u) := by
  rw [items?_eq, hs, Option.bind_some]
  simp only [ht]

theorem items?_cons {js : List Json} (hs : value? s = some (j, t)) (ht : skipBlank t = ',' :: u)
    (hu : items? u = some (js, v)) : items? s = some (j :: js, v) := by
  rw [items?_eq, hs, Option.bind_some]
  simp only [ht, hu, Option.map_some]

theorem value?_emptyObject (hs : skipBlank s = '{' :: t) (ht : skipBlank t = '}' :: u) :
    value? s = some (.obj [], u) := by
  simp only [value?_eq, hs, ht]

theorem value?_members {members : List (List Char × Json)} {c : Char}
    (hs : skipBlank s = '{' :: t) (hc : skipBlank t = c :: v) (hne : c ≠ '}')
    (ht : members? t = some (members, u)) : value? s = some (.obj members, u) := by
  simp only [value?_eq, hs]
  split
  · next heq => exact absurd (List.cons.inj (hc.symm.trans heq)).1 hne
  · rw [ht, Option.map_some]

end Tokens

/-! ## Values read back -/

/-- Written in front of any text that ends a number, the value is read with that text left. -/
def ReadsBack (j : Json) : Prop :=
  ∀ rest, EndsNumber rest → value? (j.writeOnto rest) = some (j, rest)

theorem endsNumber_nil : EndsNumber [] := by
  intro c hc
  cases hc

/-- What stands after a value inside another value. -/
theorem endsNumber_cons {c : Char} (h : c ∈ [',', ']', '}']) (rest : List Char) :
    EndsNumber (c :: rest) := by
  intro d hd
  cases hd
  simp only [List.mem_cons, List.not_mem_nil, or_false] at h
  rcases h with rfl | rfl | rfl <;> decide

theorem readsBack_bool (b : Bool) : ReadsBack (.bool b) := by
  intro rest _
  refine value?_bool ?_
  cases b <;> rw [writeOnto] <;> exact skipBlank_cons rfl _

theorem readsBack_ofNat (n : Nat) : ReadsBack (.ofNat n) := by
  intro rest hrest
  have hnumber := number?_toDigits n hrest
  have hdigits := isDigit_toDigits n
  rw [ofNat, writeOnto]
  cases hd : Nat.toDigits 10 n with
  | nil => exact absurd hd Nat.toDigits_ne_nil
  | cons d ds =>
    rw [hd] at hnumber hdigits
    have hdigit := hdigits d (List.mem_cons_self ..)
    have hblank : isBlank d = false := by
      unfold isBlank
      simp only [Bool.or_eq_false_iff, beq_eq_false_iff_ne]
      refine ⟨⟨⟨?_, ?_⟩, ?_⟩, ?_⟩
      all_goals
        rintro rfl
        exact absurd hdigit (by decide)
    exact value?_number (skipBlank_cons hblank _) hdigit hnumber

theorem readsBack_ofWord (w : UInt32) : ReadsBack (.ofWord w) :=
  readsBack_ofNat w.toNat

theorem readsBack_ofString (s : String) : ReadsBack (.ofString s) := by
  intro rest _
  rw [ofString, writeOnto]
  exact value?_string (skipBlank_cons rfl _) (spelling_escape s.toList [] rest)

theorem items?_writeItems {js : List Json} (hne : js ≠ []) (hjs : ∀ j ∈ js, ReadsBack j)
    (rest : List Char) : items? (writeItems js (']' :: rest)) = some (js, rest) := by
  induction js with
  | nil => exact absurd rfl hne
  | cons j js ih =>
    have hj := hjs j (List.mem_cons_self ..)
    cases js with
    | nil =>
      rw [writeItems]
      exact items?_last (hj _ (endsNumber_cons (by decide) _)) (skipBlank_cons rfl _)
    | cons k ks =>
      have hrest := ih (by simp) fun i hi => hjs i (List.mem_cons_of_mem _ hi)
      rw [writeItems]
      · exact items?_cons (hj _ (endsNumber_cons (by decide) _)) (skipBlank_cons rfl _) hrest
      · simp

theorem readsBack_ofList {α : Type} {item : α → Json} {xs : List α}
    (h : ∀ x ∈ xs, ReadsBack (item x)) : ReadsBack (.ofList item xs) := by
  intro rest _
  rw [ofList, writeOnto]
  by_cases hxs : xs = []
  · subst hxs
    exact value?_emptyArray (skipBlank_cons rfl _) (skipBlank_cons rfl _)
  · refine value?_items (skipBlank_cons rfl _) (items?_writeItems (by simpa using hxs) ?_ rest)
    intro j hj
    obtain ⟨x, hx, rfl⟩ := List.mem_map.mp hj
    exact h x hx

theorem members?_last {j : Json} (hj : ReadsBack j) (name : String) (rest : List Char) :
    members? ('"' :: escape name.toList ++ '"' :: ':' :: j.writeOnto ('}' :: rest)) =
      some ([(escape name.toList, j)], rest) := by
  rw [List.cons_append, members?_eq (skipBlank_cons rfl _) (spelling_escape name.toList [] _)
    (skipBlank_cons rfl _) (hj _ (endsNumber_cons (by decide) rest)), skipBlank_cons rfl]
  rfl

theorem members?_cons {j : Json} (hj : ReadsBack j) (name : String) (rest : List Char) :
    members? ('"' :: escape name.toList ++ '"' :: ':' :: j.writeOnto (',' :: rest)) =
      (members? rest).map fun (more, v) => ((escape name.toList, j) :: more, v) := by
  rw [List.cons_append, members?_eq (skipBlank_cons rfl _) (spelling_escape name.toList [] _)
    (skipBlank_cons rfl _) (hj _ (endsNumber_cons (by decide) rest)), skipBlank_cons rfl]
  rfl

theorem members?_writeMembers {fields : List (String × Json)} (hne : fields ≠ [])
    (h : ∀ f ∈ fields, ReadsBack f.2) (rest : List Char) :
    members? (writeMembers (fields.map fun (name, value) => (escape name.toList, value))
        ('}' :: rest)) =
      some (fields.map fun (name, value) => (escape name.toList, value), rest) := by
  induction fields with
  | nil => exact absurd rfl hne
  | cons f fields ih =>
    obtain ⟨name, j⟩ := f
    have hj := h _ (List.mem_cons_self ..)
    cases fields with
    | nil => exact members?_last hj name rest
    | cons g gs =>
      have hrest := ih (by simp) fun i hi => h i (List.mem_cons_of_mem _ hi)
      rw [List.map_cons, writeMembers, members?_cons hj, hrest]
      · rfl
      · simp

theorem readsBack_ofFields {fields : List (String × Json)} (h : ∀ f ∈ fields, ReadsBack f.2) :
    ReadsBack (.ofFields fields) := by
  intro rest _
  rw [ofFields, writeOnto]
  cases fields with
  | nil => exact value?_emptyObject (skipBlank_cons rfl _) (skipBlank_cons rfl _)
  | cons f fields =>
    obtain ⟨v, hquote⟩ : ∃ v, writeMembers ((f :: fields).map fun (name, value) =>
        (escape name.toList, value)) ('}' :: rest) = '"' :: v := by
      cases fields <;> exact ⟨_, rfl⟩
    refine value?_members (c := '"') (v := v) (skipBlank_cons rfl _) ?_ (by decide)
      (members?_writeMembers (by simp) h rest)
    rw [hquote]
    exact skipBlank_cons rfl _

theorem parse?_eq (text : String) :
    parse? text =
      (value? text.toList).bind fun (j, rest) =>
        if (skipBlank rest).isEmpty then some j else none := by
  unfold parse? value?
  cases readValue? text.toList <;> rfl

/-- **The text of a value is read as that value.** -/
theorem ReadsBack.parse?_render {j : Json} (h : ReadsBack j) : parse? j.render = some j := by
  rw [parse?_eq, render, String.toList_ofList, h [] endsNumber_nil]
  rfl

end Stencil.Json
