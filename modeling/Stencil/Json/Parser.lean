import Stencil.Json.Basic

/-!
# Reading JSON

The grammar of JSON by recursive descent over the characters. Every step that reads
something hands back a shorter rest, and says so in its type; that is what ends the
recursion, and no bound on the nesting is needed.
-/

namespace Stencil.Json

/-- A value read off the front of `s`, with what is left of `s`. -/
structure Front (α : Type) (s : List Char) where
  value : α
  rest : List Char
  shorter : rest.length < s.length

/-- What follows the blank space at the front. -/
def skipBlank (s : List Char) : List Char :=
  s.dropWhile isBlank

theorem length_skipBlank_le (s : List Char) : (skipBlank s).length ≤ s.length :=
  (List.dropWhile_sublist isBlank).length_le

/-- One or more digits. -/
def digits? (s : List Char) : Option (List Char × List Char) :=
  match s.takeWhile Char.isDigit with
  | [] => none
  | d :: ds => some (d :: ds, s.dropWhile Char.isDigit)

/-- The digits before a point: a zero stands alone. -/
def whole? : List Char → Option (List Char × List Char)
  | '0' :: rest => some (['0'], rest)
  | s => digits? s

/-- The point and the digits after it, if there is a point. -/
def fraction? : List Char → Option (List Char × List Char)
  | '.' :: rest => (digits? rest).map fun (ds, rest) => ('.' :: ds, rest)
  | s => some ([], s)

/-- The sign of an exponent. -/
def exponentSign : List Char → List Char × List Char
  | '+' :: rest => (['+'], rest)
  | '-' :: rest => (['-'], rest)
  | s => ([], s)

/-- The exponent, if there is a letter for it. -/
def exponent? : List Char → Option (List Char × List Char)
  | 'e' :: s => (digits? (exponentSign s).2).map fun (ds, rest) => ('e' :: (exponentSign s).1 ++ ds, rest)
  | 'E' :: s => (digits? (exponentSign s).2).map fun (ds, rest) => ('E' :: (exponentSign s).1 ++ ds, rest)
  | s => some ([], s)

/-- A number without its sign. -/
def magnitude? (s : List Char) : Option (List Char × List Char) :=
  match whole? s with
  | none => none
  | some (whole, s) =>
    match fraction? s with
    | none => none
    | some (fraction, s) =>
      match exponent? s with
      | none => none
      | some (exponent, s) => some (whole ++ fraction ++ exponent, s)

/-- A number. -/
def number? : List Char → Option (List Char × List Char)
  | '-' :: s => (magnitude? s).map fun (n, rest) => ('-' :: n, rest)
  | s => magnitude? s

theorem length_of_digits? {s ds rest : List Char} (h : digits? s = some (ds, rest)) :
    rest.length < s.length := by
  unfold digits? at h
  split at h
  · simp at h
  · rename_i d ds' hd
    simp only [Option.some.injEq, Prod.mk.injEq] at h
    have := congrArg List.length (List.takeWhile_append_dropWhile (p := Char.isDigit) (l := s))
    simp only [hd, List.length_append, List.length_cons] at this
    rw [← h.2]
    omega

theorem length_of_whole? {s ds rest : List Char} (h : whole? s = some (ds, rest)) :
    rest.length < s.length := by
  unfold whole? at h
  split at h
  · simp only [Option.some.injEq, Prod.mk.injEq] at h
    simp [← h.2]
  · exact length_of_digits? h

theorem length_of_fraction? {s ds rest : List Char} (h : fraction? s = some (ds, rest)) :
    rest.length ≤ s.length := by
  unfold fraction? at h
  split at h
  · obtain ⟨⟨ds', rest'⟩, hd, he⟩ := Option.map_eq_some_iff.1 h
    have := length_of_digits? hd
    simp only [Prod.mk.injEq] at he
    simp only [List.length_cons, ← he.2]
    omega
  · simp only [Option.some.injEq, Prod.mk.injEq] at h
    simp [h.2]

theorem length_exponentSign_le (s : List Char) : (exponentSign s).2.length ≤ s.length := by
  unfold exponentSign
  split <;> simp

theorem length_of_exponent? {s ds rest : List Char} (h : exponent? s = some (ds, rest)) :
    rest.length ≤ s.length := by
  unfold exponent? at h
  split at h
  case h_3 =>
    simp only [Option.some.injEq, Prod.mk.injEq] at h
    simp [h.2]
  all_goals
    rename_i t
    obtain ⟨⟨ds', rest'⟩, hd, he⟩ := Option.map_eq_some_iff.1 h
    have := length_of_digits? hd
    have := length_exponentSign_le t
    simp only [Prod.mk.injEq] at he
    simp only [List.length_cons, ← he.2]
    omega

theorem length_of_magnitude? {s n rest : List Char} (h : magnitude? s = some (n, rest)) :
    rest.length < s.length := by
  unfold magnitude? at h
  split at h
  · simp at h
  · rename_i hw
    split at h
    · simp at h
    · rename_i hf
      split at h
      · simp at h
      · rename_i he
        simp only [Option.some.injEq, Prod.mk.injEq] at h
        have := length_of_whole? hw
        have := length_of_fraction? hf
        have := length_of_exponent? he
        rw [← h.2]
        omega

/-- Reading a number uses text up. -/
theorem length_of_number? {s n rest : List Char} (h : number? s = some (n, rest)) :
    rest.length < s.length := by
  unfold number? at h
  split at h
  · obtain ⟨⟨n', rest'⟩, hm, he⟩ := Option.map_eq_some_iff.1 h
    have := length_of_magnitude? hm
    simp only [Prod.mk.injEq] at he
    simp only [List.length_cons, ← he.2]
    omega
  · exact length_of_magnitude? h

/-- What is left after blank space and one token is shorter. -/
theorem length_lt_of_skipBlank {s t : List Char} {c : Char} (h : skipBlank s = c :: t) :
    t.length < s.length := by
  have := length_skipBlank_le s
  rw [h, List.length_cons] at this
  omega

mutual

/-- A value, after any blank space. -/
def readValue? (s : List Char) : Option (Front Json s) :=
  match hs : skipBlank s with
  | '[' :: t =>
    have ht := length_lt_of_skipBlank hs
    match hu : skipBlank t with
    | ']' :: u => some ⟨.arr [], u, Nat.lt_trans (length_lt_of_skipBlank hu) ht⟩
    | _ =>
      match readItems? t with
      | some items => some ⟨.arr items.value, items.rest, Nat.lt_trans items.shorter ht⟩
      | none => none
  | '{' :: t =>
    have ht := length_lt_of_skipBlank hs
    match hu : skipBlank t with
    | '}' :: u => some ⟨.obj [], u, Nat.lt_trans (length_lt_of_skipBlank hu) ht⟩
    | _ =>
      match readMembers? t with
      | some members => some ⟨.obj members.value, members.rest, Nat.lt_trans members.shorter ht⟩
      | none => none
  | '"' :: t =>
    match ht : spelling [] t with
    | some (text, u) =>
      some ⟨.str text, u, Nat.lt_trans (length_of_spelling ht) (length_lt_of_skipBlank hs)⟩
    | none => none
  | 'n' :: 'u' :: 'l' :: 'l' :: t =>
    some ⟨.null, t, by have := length_lt_of_skipBlank hs; simp at this; omega⟩
  | 't' :: 'r' :: 'u' :: 'e' :: t =>
    some ⟨.bool true, t, by have := length_lt_of_skipBlank hs; simp at this; omega⟩
  | 'f' :: 'a' :: 'l' :: 's' :: 'e' :: t =>
    some ⟨.bool false, t, by have := length_lt_of_skipBlank hs; simp at this; omega⟩
  | t =>
    match ht : number? t with
    | some (n, u) =>
      some ⟨.num n, u, Nat.lt_of_lt_of_le (length_of_number? ht) (hs ▸ length_skipBlank_le s)⟩
    | none => none
termination_by 2 * s.length

/-- One or more items and the bracket that closes them. -/
def readItems? (s : List Char) : Option (Front (List Json) s) :=
  match readValue? s with
  | none => none
  | some item =>
    match ht : skipBlank item.rest with
    | ',' :: t =>
      have := Nat.lt_trans (length_lt_of_skipBlank ht) item.shorter
      match readItems? t with
      | some items => some ⟨item.value :: items.value, items.rest, Nat.lt_trans items.shorter this⟩
      | none => none
    | ']' :: t => some ⟨[item.value], t, Nat.lt_trans (length_lt_of_skipBlank ht) item.shorter⟩
    | _ => none
termination_by 2 * s.length + 1

/-- One or more members and the brace that closes them. -/
def readMembers? (s : List Char) : Option (Front (List (List Char × Json)) s) :=
  match hs : skipBlank s with
  | '"' :: t =>
    match ht : spelling [] t with
    | none => none
    | some (name, u) =>
      match hu : skipBlank u with
      | ':' :: v =>
        have hv : v.length < s.length :=
          Nat.lt_trans (length_lt_of_skipBlank hu)
            (Nat.lt_trans (length_of_spelling ht) (length_lt_of_skipBlank hs))
        match readValue? v with
        | none => none
        | some item =>
          have hi := Nat.lt_trans item.shorter hv
          match hw : skipBlank item.rest with
          | ',' :: w =>
            have := Nat.lt_trans (length_lt_of_skipBlank hw) hi
            match readMembers? w with
            | some more => some ⟨(name, item.value) :: more.value, more.rest, Nat.lt_trans more.shorter this⟩
            | none => none
          | '}' :: w => some ⟨[(name, item.value)], w, Nat.lt_trans (length_lt_of_skipBlank hw) hi⟩
          | _ => none
      | _ => none
  | _ => none
termination_by 2 * s.length + 1

end

/-- The value that a whole text holds, with nothing but blank space around it. -/
def parse? (text : String) : Option Json :=
  match readValue? text.toList with
  | some front => if (skipBlank front.rest).isEmpty then some front.value else none
  | none => none

end Stencil.Json
