import Mathlib.Data.List.DropRight
import Stencil.Proofs.Artifact
import Stencil.Proofs.SizeTest

/-!
# A diagnostic points into its template

A fault is reported where reading stopped. A reader knows this place by what is left of its
fragment. To report it, the rest becomes a byte of the fragment and the byte a count of UTF-16
code units; to show it, the count becomes a line and a column.

None of the conversions loses the place. What is left is always an end of the fragment that the
reader has come to (`Reads.exists_front`), so the byte is one between two characters
(`takeBytes?_byte`) and not the way out for bytes that are none. And a walk over the fragment by
so many code units stops at the same character (`Location.walk_units`).
-/

namespace Stencil

namespace Text

theorem charUnits_pos (c : Char) : 0 < charUnits c := by
  unfold charUnits
  split <;> omega

/-- A character has no more code units than bytes. -/
theorem charUnits_le_utf8Size (c : Char) : charUnits c ≤ c.utf8Size := by
  have hpos := c.utf8Size_pos
  unfold charUnits
  split
  · exact hpos
  · -- two code units are for characters that take four bytes
    rename_i hlarge
    have hval : ¬c.val.toNat ≤ 65535 := by
      show ¬c.toNat ≤ 65535
      omega
    have h₁ : ¬c.val ≤ 0x7f := fun h => hval (Nat.le_trans (UInt32.le_iff_toNat_le.mp h) (by decide))
    have h₂ : ¬c.val ≤ 0x7ff := fun h => hval (Nat.le_trans (UInt32.le_iff_toNat_le.mp h) (by decide))
    have h₃ : ¬c.val ≤ 0xffff := fun h => hval (UInt32.le_iff_toNat_le.mp h)
    show 2 ≤ if c.val ≤ 0x7f then 1 else if c.val ≤ 0x7ff then 2 else if c.val ≤ 0xffff then 3 else 4
    rw [if_neg h₁, if_neg h₂, if_neg h₃]
    decide

theorem units_le_bytes (cs : List Char) : units cs ≤ bytes cs := by
  induction cs with
  | nil => exact Nat.le_refl 0
  | cons c cs ih =>
    have hc := charUnits_le_utf8Size c
    rw [units_cons, bytes_cons]
    omega

theorem bytes_toList (s : String) : bytes s.toList = s.utf8ByteSize := by
  have hlist : ∀ cs : List Char, (String.ofList cs).utf8ByteSize = bytes cs := by
    intro cs
    induction cs with
    | nil => rfl
    | cons c cs ih =>
      rw [String.ofList_cons, String.utf8ByteSize_append, String.utf8ByteSize_singleton, ih,
        bytes_cons]
  rw [← hlist, String.ofList_toList]

end Text

/-! ## From a reader to an offset -/

theorem fragmentText_of_getElem? {fragments : List String} {index : Nat} {f : List Char}
    (h : (fragments.map String.toList)[index]? = some f) : fragmentText fragments index = f := by
  rw [List.getElem?_map] at h
  obtain ⟨text, htext, rfl⟩ := Option.map_eq_some_iff.mp h
  rw [fragmentText, htext, Option.getD_some]

namespace Reader

variable {fragments : List String} {r : Reader} {front : List Char}

theorem rest_cons_later_ofFragments (h : fragments ≠ []) :
    (ofFragments fragments).rest :: (ofFragments fragments).later =
      fragments.map String.toList := by
  cases fragments with
  | nil => exact absurd rfl h
  | cons f fs => rfl

/-- A reader of a template is in one of its fragments, with a front part of it read. -/
theorem Reads.exists_front {exprs asks : List Nat} (hne : fragments ≠ [])
    (h : Reads (ofFragments fragments) r exprs asks) :
    r.index < fragments.length ∧ ∃ front, fragmentText fragments r.index = front ++ r.rest := by
  have hstart : (ofFragments fragments).index = 0 := by cases fragments <;> rfl
  have hindex : r.index = exprs.length := by
    rw [h.index, hstart, Nat.zero_add]
  obtain ⟨f, hf, front, hfront⟩ := h.rest
  rw [rest_cons_later_ofFragments hne, ← hindex] at hf
  obtain ⟨hlt, _⟩ := List.getElem?_eq_some_iff.mp hf
  rw [List.length_map] at hlt
  refine ⟨hlt, front, ?_⟩
  rw [fragmentText_of_getElem? hf, hfront]

/-- The byte that a reader stands at is the one after what it has read. -/
theorem byte_eq (h : fragmentText fragments r.index = front ++ r.rest) :
    r.byte fragments = Text.bytes front := by
  rw [byte, h, Text.bytes_append, Nat.add_sub_cancel]

theorem takeBytes?_byte (h : fragmentText fragments r.index = front ++ r.rest) :
    Text.takeBytes? (r.byte fragments) (fragmentText fragments r.index) = some front := by
  rw [byte_eq h, h, Text.takeBytes?_bytes_append]

/-- A diagnostic at a reader counts the code units that were read. -/
theorem place_eq (code message : String) (h : fragmentText fragments r.index = front ++ r.rest) :
    r.place code message fragments = .place code message r.index (Text.units front) := by
  rw [place, Diagnostic.placeAtByte, takeBytes?_byte h, Option.getD_some]

end Reader

/-! ## From an offset to a line and a column -/

namespace Location

/-- The place after a text: the lines that end in it, and the characters since the last end. -/
def after (front : List Char) : Location where
  line := 1 + front.count '\n'
  column := 1 + (front.rtakeWhile (· != '\n')).length

/-- As many code units as a front part has lead to its end. -/
theorem walk_units (l : Location) (front rest : List Char) :
    l.walk (Text.units front) (front ++ rest) = front.foldl advance l := by
  induction front generalizing l with
  | nil =>
    cases rest with
    | nil => rfl
    | cons c cs =>
      -- no code units are left, and every character has some
      have hpos := Text.charUnits_pos c
      rw [List.nil_append, Text.units_nil, walk, if_neg (by omega), List.foldl_nil]
  | cons c cs ih =>
    have hle : Text.charUnits c ≤ Text.charUnits c + Text.units cs := Nat.le_add_right _ _
    rw [List.cons_append, Text.units_cons, walk, if_pos hle, Nat.add_sub_cancel_left, ih,
      List.foldl_cons]

theorem foldl_advance (front : List Char) : front.foldl advance {} = after front := by
  -- by induction from the end, as the last character decides whether a line begins
  induction front using List.reverseRecOn with
  | nil => rfl
  | append_singleton front c ih =>
    rw [List.foldl_concat, ih, advance]
    unfold after
    by_cases hc : c = '\n'
    · subst hc
      rw [if_pos rfl, List.rtakeWhile_concat_neg _ _ _ (by decide), List.count_append]
      rfl
    · have hkeep : (c != '\n') = true := by simpa using hc
      have hcount : [c].count '\n' = 0 := List.count_eq_zero.mpr (by simpa using Ne.symm hc)
      rw [if_neg hc, List.rtakeWhile_concat_pos (p := (· != '\n')) _ _ hkeep, List.count_append,
        hcount, List.length_append]
      rfl

end Location

/--
A diagnostic is about the place of the reader `cursor`, which has read `front` of its fragment.
The byte of the cursor falls between two characters, so the offset is that of `front` and not of
the whole fragment.
-/
structure Diagnostic.PointsTo (fragments : List String) (cursor : Reader) (front : List Char)
    (d : Diagnostic) : Prop where
  fragment : d.fragment.toNat = cursor.index
  fragment_lt : cursor.index < fragments.length
  text : d.text fragments = front ++ cursor.rest
  boundary : Text.takeBytes? (cursor.byte fragments) (d.text fragments) = some front
  offset : d.offset.toNat = Text.units front
  location : d.location fragments = .after front

/-- A diagnostic placed at a reader of the template points to it, as long as its numbers have
room in 32 bits. -/
theorem Failure.pointsTo {fragments : List String} {failure : Failure} {front : List Char}
    (hlt : failure.reader.index < fragments.length)
    (hfront : fragmentText fragments failure.reader.index = front ++ failure.reader.rest)
    (hindex : failure.reader.index < UInt32.size) (hunits : Text.units front < UInt32.size) :
    (failure.diagnostic fragments).PointsTo fragments failure.reader front := by
  have hplace : failure.diagnostic fragments =
      .place failure.fault.code failure.fault.message failure.reader.index (Text.units front) :=
    Reader.place_eq _ _ hfront
  have hfragment : (failure.diagnostic fragments).fragment.toNat = failure.reader.index := by
    rw [hplace]
    exact UInt32.toNat_ofNat_of_lt' hindex
  have hoffset : (failure.diagnostic fragments).offset.toNat = Text.units front := by
    rw [hplace]
    exact UInt32.toNat_ofNat_of_lt' hunits
  have htext : (failure.diagnostic fragments).text fragments = front ++ failure.reader.rest := by
    rw [Diagnostic.text, hfragment, hfront]
  exact {
    fragment := hfragment
    fragment_lt := hlt
    text := htext
    boundary := by
      rw [htext, ← hfront]
      exact Reader.takeBytes?_byte hfront
    offset := hoffset
    location := by
      rw [Diagnostic.location, hoffset, htext, Location.walk_units, Location.foldl_advance] }

/-- The end of a fragment below 2 ^ 31 bytes is an offset with room in 32 bits. -/
theorem units_lt_of_bytes {fragments : List String} {index : Nat} {front rest : List Char}
    (hlt : index < fragments.length) (hbytes : ∀ f ∈ fragments, f.utf8ByteSize < 0x80000000)
    (hfront : fragmentText fragments index = front ++ rest) : Text.units front < UInt32.size := by
  have hsize : UInt32.size = 0x100000000 := rfl
  have htext : fragmentText fragments index = fragments[index].toList := by
    rw [fragmentText, List.getElem?_eq_getElem hlt, Option.getD_some]
  have hfragment := hbytes _ (List.getElem_mem hlt)
  rw [← Text.bytes_toList, ← htext, hfront, Text.bytes_append] at hfragment
  have hunits := Text.units_le_bytes front
  omega

/--
**Every diagnostic of a template points into it,** to where reading stopped: the offset counts
the code units of the part of the fragment that was read, and line and column are those of its
end.
-/
theorem compile_pointsTo {oracle : Oracle} {svg : Bool} {fragments : List String} {d : Diagnostic}
    (hne : fragments ≠ []) (hlength : fragments.length < 0x80000000)
    (hbytes : ∀ f ∈ fragments, f.utf8ByteSize < 0x80000000)
    (h : (compile oracle svg fragments).result = .error d) :
    ∃ front, d.PointsTo fragments
      (Reader.last (Template.read (Element.fits oracle) (Reader.ofFragments fragments))) front := by
  obtain ⟨failure, rfl, hread⟩ := compile_eq_error hne h
  have hcursor : failure.reader =
      Reader.last (Template.read (Element.fits oracle) (Reader.ofFragments fragments)) := by
    rcases hread with hread | ⟨t, r, hread, rfl⟩
    · rw [hread]
      rfl
    · rw [hread]
      rfl
  obtain ⟨_, _, hreads⟩ := (Template.read_promises (Element.fits oracle) _).reads_last
  rw [← hcursor] at hreads ⊢
  obtain ⟨hlt, front, hfront⟩ := hreads.exists_front hne
  have hsize : UInt32.size = 0x100000000 := rfl
  exact ⟨front, failure.pointsTo hlt hfront (by omega) (units_lt_of_bytes hlt hbytes hfront)⟩

/-- A fault in the third line of the second fragment, after characters of two and four bytes. -/
theorem compile_pointsTo_wide :
    ∃ d, (compile (fun _ => false) false ["p", " :a='é😀'\n  i\n    𝒳"]).result = .error d
      ∧ d.code = "E-TAG" ∧ d.fragment = 1 ∧ d.offset = 18
      ∧ d.location ["p", " :a='é😀'\n  i\n    𝒳"] = ⟨3, 5⟩
      ∧ ∃ front, d.PointsTo ["p", " :a='é😀'\n  i\n    𝒳"]
        (Reader.last (Template.read (Element.fits fun _ => false)
          (Reader.ofFragments ["p", " :a='é😀'\n  i\n    𝒳"]))) front := by
  generalize hf : ["p", " :a='é😀'\n  i\n    𝒳"] = fragments
  have hresult : (compile (fun _ => false) false fragments).diagnostic? =
      some ⟨"E-TAG", "expected a valid tag name", 1, 18⟩ := by
    rw [← hf]
    decide +kernel
  have hlocation : Diagnostic.location ⟨"E-TAG", "expected a valid tag name", 1, 18⟩ fragments =
      ⟨3, 5⟩ := by
    rw [← hf]
    decide +kernel
  have hne : fragments ≠ [] := by
    rw [← hf]
    exact List.cons_ne_nil _ _
  have hlength : fragments.length < 0x80000000 := by
    rw [← hf]
    decide
  have hbytes : ∀ f ∈ fragments, f.utf8ByteSize < 0x80000000 := by
    rw [← hf, List.forall_mem_cons, List.forall_mem_singleton]
    decide
  have hresult := Outcome.result_of_diagnostic? hresult
  exact ⟨_, hresult, rfl, rfl, rfl, hlocation, compile_pointsTo hne hlength hbytes hresult⟩

end Stencil
