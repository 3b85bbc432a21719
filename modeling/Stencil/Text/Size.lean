/-!
# How long a text is

Text is counted in three units. Characters are what the reader walks over. UTF-8
bytes are what a store and a string delimiter count. UTF-16 code units are what a
reported position counts, because that is how the language around a template
indexes its strings.

Everything here is over `List Char`, so that a count of `a ++ b` is the sum of
the two counts and proofs go by induction on the text.
-/

namespace Stencil.Text

/-- What the characters of a text weigh together. -/
def total (weight : Char → Nat) (cs : List Char) : Nat :=
  cs.foldr (fun c n => weight c + n) 0

/-- UTF-8 bytes of a text. -/
def bytes (cs : List Char) : Nat :=
  total Char.utf8Size cs

/-- UTF-16 code units of one character: two for a surrogate pair. -/
def charUnits (c : Char) : Nat :=
  if c.toNat < 0x10000 then 1 else 2

/-- UTF-16 code units of a text. -/
def units (cs : List Char) : Nat :=
  total charUnits cs

theorem total_append (weight : Char → Nat) (a b : List Char) :
    total weight (a ++ b) = total weight a + total weight b := by
  induction a with
  | nil => exact (Nat.zero_add _).symm
  | cons c cs ih =>
    show weight c + total weight (cs ++ b) = weight c + total weight cs + total weight b
    rw [ih, Nat.add_assoc]

@[simp] theorem bytes_nil : bytes [] = 0 := rfl

@[simp] theorem bytes_cons (c : Char) (cs : List Char) :
    bytes (c :: cs) = c.utf8Size + bytes cs := rfl

@[simp] theorem bytes_append (a b : List Char) : bytes (a ++ b) = bytes a + bytes b :=
  total_append Char.utf8Size a b

@[simp] theorem units_nil : units [] = 0 := rfl

@[simp] theorem units_cons (c : Char) (cs : List Char) :
    units (c :: cs) = charUnits c + units cs := rfl

@[simp] theorem units_append (a b : List Char) : units (a ++ b) = units a + units b :=
  total_append charUnits a b

/--
The part of a text that its first `n` bytes spell. There is none if byte `n` lies
inside a character or past the end.
-/
def takeBytes? : Nat → List Char → Option (List Char)
  | 0, _ => some []
  | _ + 1, [] => none
  | n + 1, c :: cs =>
    if c.utf8Size ≤ n + 1 then (takeBytes? (n + 1 - c.utf8Size) cs).map (c :: ·) else none

/-- What is left after the characters that begin within the first `n` bytes. -/
def dropBytes : Nat → List Char → List Char
  | 0, cs => cs
  | _ + 1, [] => []
  | n + 1, c :: cs => dropBytes (n + 1 - c.utf8Size) cs

/-- A cut after whole characters is the text of their bytes. -/
theorem takeBytes?_bytes_append (a b : List Char) : takeBytes? (bytes a) (a ++ b) = some a := by
  induction a with
  | nil => simp [takeBytes?]
  | cons c cs ih =>
    have hc := c.utf8Size_pos
    obtain ⟨n, hn⟩ : ∃ n, c.utf8Size + bytes cs = n + 1 := ⟨c.utf8Size + bytes cs - 1, by omega⟩
    have hle : c.utf8Size ≤ n + 1 := by omega
    have hrest : n + 1 - c.utf8Size = bytes cs := by omega
    simp [hn, takeBytes?, hle, hrest, ih]

end Stencil.Text
