import Stencil.Proofs.Positions

/-!
# Where the caret of a frame stands

The frame of a diagnostic shows its message, an empty line, all lines of the fragment and a
line with a caret. The caret is in the column of the diagnostic, but its line comes after the
whole fragment and not after the line that the diagnostic is about. So it points to the place
that is meant if this place is in the last line, and otherwise to the last line all the same
(`Diagnostic.Framed`).

For this the line and the column of a diagnostic are related to the lines of its fragment. The
walk that counts them comes as far as the offset allows (`Location.exists_walk`), and the text in
front of that place ends with the beginning of the line (`Text.lines_append`).
-/

namespace Stencil

/-! ## Lines -/

namespace Text

/-- The lines of a text, of which a text always has one. -/
def lines (cs : List Char) : List (List Char) :=
  cs.splitOn '\n'

theorem lines_append_line_end (front cs : List Char) :
    lines (front ++ '\n' :: cs) = lines front ++ lines cs :=
  List.splitOnP_append_cons front cs rfl

theorem lines_of_not_mem {cs : List Char} (h : '\n' ∉ cs) : lines cs = [cs] :=
  List.splitOn_eq_singleton h

theorem length_lines (cs : List Char) : (lines cs).length = 1 + cs.count '\n' := by
  induction cs with
  | nil => rfl
  | cons c cs ih =>
    by_cases hc : c = '\n'
    · subst hc
      have hsplit : lines ('\n' :: cs) = [] :: lines cs := lines_append_line_end [] cs
      rw [hsplit, List.length_cons, ih, List.count_cons_self]
      omega
    · have hsplit : lines (c :: cs) = (lines cs).modifyHead (List.cons c) := by
        rw [lines, List.splitOn_cons_eq_if_modifyHead, if_neg (by simpa using hc)]
        rfl
      rw [hsplit, List.length_modifyHead, ih, List.count_cons_of_ne hc]

/-- The first line goes on to where a line ends. -/
theorem lines_eq_cons (cs : List Char) : ∃ more, lines cs = cs.takeWhile (· != '\n') :: more := by
  induction cs with
  | nil => exact ⟨[], rfl⟩
  | cons c cs ih =>
    by_cases hc : c = '\n'
    · subst hc
      exact ⟨lines cs, lines_append_line_end [] cs⟩
    · obtain ⟨more, hmore⟩ := ih
      refine ⟨more, ?_⟩
      rw [lines, List.splitOn_cons_eq_if_modifyHead, if_neg (by simpa using hc),
        List.takeWhile_cons_of_pos (by simpa using hc), ← lines, hmore]
      rfl

/-- The line that goes on after a text has as many lines before it as end in the text. -/
theorem lines_append (front rest : List Char) :
    ∃ above below, above.length = front.count '\n'
      ∧ lines (front ++ rest) =
        above ++ (front.rtakeWhile (· != '\n') ++ rest.takeWhile (· != '\n')) :: below := by
  -- from the end of the text, as its last character decides whether a line begins
  induction front using List.reverseRecOn generalizing rest with
  | nil =>
    obtain ⟨more, hmore⟩ := lines_eq_cons rest
    exact ⟨[], more, rfl, hmore⟩
  | append_singleton front c ih =>
    rw [List.append_assoc, List.singleton_append]
    by_cases hc : c = '\n'
    · subst hc
      obtain ⟨more, hmore⟩ := lines_eq_cons rest
      refine ⟨lines front, more, ?_, ?_⟩
      · rw [length_lines, List.count_append, List.count_singleton_self]
        omega
      · rw [lines_append_line_end, hmore, List.rtakeWhile_concat_neg _ _ _ (by decide)]
        rfl
    · obtain ⟨above, below, hlength, hlines⟩ := ih (c :: rest)
      have hkeep : (c != '\n') = true := by simpa using hc
      refine ⟨above, below, ?_, ?_⟩
      · rw [hlength, List.count_append, List.count_singleton, if_neg (by simpa using hc)]
        rfl
      · rw [hlines, List.takeWhile_cons_of_pos (p := (· != '\n')) hkeep,
          List.rtakeWhile_concat_pos (p := (· != '\n')) _ _ hkeep, List.append_assoc,
          List.singleton_append]

end Text

/-! ## The place that an offset leads to -/

/-- The walk takes every character that ends at or before the offset. -/
theorem Location.exists_walk (l : Location) (n : Nat) (cs : List Char) :
    ∃ front rest, cs = front ++ rest ∧ Text.units front ≤ n
      ∧ (∀ c ∈ rest.head?, n < Text.units front + Text.charUnits c)
      ∧ l.walk n cs = front.foldl advance l := by
  induction cs generalizing l n with
  | nil => exact ⟨[], [], rfl, Nat.zero_le n, by simp, rfl⟩
  | cons c cs ih =>
    by_cases hc : Text.charUnits c ≤ n
    · obtain ⟨front, rest, rfl, hle, hlt, hwalk⟩ := ih (l.advance c) (n - Text.charUnits c)
      refine ⟨c :: front, rest, rfl, ?_, ?_, ?_⟩
      · rw [Text.units_cons]
        omega
      · intro d hd
        have := hlt d hd
        rw [Text.units_cons]
        omega
      · rw [walk, if_pos hc, hwalk, List.foldl_cons]
    · refine ⟨[], c :: cs, rfl, Nat.zero_le n, ?_, ?_⟩
      · intro d hd
        obtain rfl : c = d := Option.some.inj hd
        rw [Text.units_nil]
        omega
      · rw [walk, if_neg hc, List.foldl_nil]

/-! ## Frames -/

namespace Diagnostic

variable {fragments : List String} {d : Diagnostic}

/-- The line of the caret. -/
def caretLine (fragments : List String) (d : Diagnostic) : List Char :=
  List.replicate ((d.location fragments).column - 1) ' ' ++ ['^']

/-- The line right above the caret is the one that the diagnostic is about. -/
def CaretUnder (fragments : List String) (d : Diagnostic) : Prop :=
  ∃ shown line, Text.lines (d.frame fragments).toList = shown ++ [line, d.caretLine fragments, []]
    ∧ (Text.lines (d.text fragments))[(d.location fragments).line - 1]? = some line

/-- What a frame shows of a diagnostic with `front` before it in its fragment and `rest` after. -/
structure Framed (fragments : List String) (front rest : List Char) (d : Diagnostic) : Prop where
  text : d.text fragments = front ++ rest
  /-- The offset is at the end of `front`, or inside the character that comes next. -/
  offset : Text.units front ≤ d.offset.toNat
    ∧ ∀ c ∈ rest.head?, d.offset.toNat < Text.units front + Text.charUnits c
  location : d.location fragments = .after front
  lines : Text.lines (d.frame fragments).toList =
    [d.message.toList, []] ++ Text.lines (d.text fragments) ++ [d.caretLine fragments, []]
  /-- The line that the diagnostic is about, in two parts. -/
  line : (Text.lines (d.text fragments))[(d.location fragments).line - 1]? =
    some (front.rtakeWhile (· != '\n') ++ rest.takeWhile (· != '\n'))
  /-- The caret has as much in front of it as the first part is long. -/
  column : (d.location fragments).column - 1 = (front.rtakeWhile (· != '\n')).length
  /-- The caret is that many lines too low. -/
  below : (Text.lines (d.text fragments)).length =
    (d.location fragments).line + rest.count '\n'
  caretUnder_iff : d.CaretUnder fragments ↔
    (Text.lines (d.text fragments))[(d.location fragments).line - 1]? =
      (Text.lines (d.text fragments)).getLast?

theorem frame_eq (fragments : List String) (d : Diagnostic) :
    (d.frame fragments).toList =
      d.message.toList ++ '\n' :: ([] ++ '\n' :: (d.text fragments ++
        '\n' :: (d.caretLine fragments ++ '\n' :: []))) := by
  simp [frame, caretLine]

theorem lines_frame (fragments : List String) (hmessage : '\n' ∉ d.message.toList) :
    Text.lines (d.frame fragments).toList =
      [d.message.toList, []] ++ Text.lines (d.text fragments) ++ [d.caretLine fragments, []] := by
  have hcaret : '\n' ∉ d.caretLine fragments := by
    simp [caretLine, List.mem_replicate]
  rw [frame_eq, Text.lines_append_line_end, Text.lines_append_line_end,
    Text.lines_append_line_end, Text.lines_append_line_end, Text.lines_of_not_mem hmessage,
    Text.lines_of_not_mem hcaret]
  simp [Text.lines]

/-- A line of the fragment comes right above the caret if it is the last one. -/
theorem caretUnder_iff (hmessage : '\n' ∉ d.message.toList) :
    d.CaretUnder fragments ↔
      (Text.lines (d.text fragments))[(d.location fragments).line - 1]? =
        (Text.lines (d.text fragments)).getLast? := by
  have hlines := lines_frame fragments hmessage
  obtain ⟨more, hmore⟩ := Text.lines_eq_cons (d.text fragments)
  obtain ⟨above, last, hlast⟩ : ∃ above last, Text.lines (d.text fragments) = above ++ [last] :=
    (List.eq_nil_or_concat' _).resolve_left (by simp [hmore])
  have hgetLast : (Text.lines (d.text fragments)).getLast? = some last := by
    rw [hlast, List.getLast?_concat]
  have hshown : Text.lines (d.frame fragments).toList =
      ([d.message.toList, []] ++ above) ++ [last, d.caretLine fragments, []] := by
    rw [hlines, hlast]
    simp
  rw [hgetLast]
  constructor
  · rintro ⟨shown, line, hsplit, hline⟩
    have hsame := List.append_inj_right' (hsplit.symm.trans hshown) rfl
    rw [hline, (List.cons.inj hsame).1]
  · intro hline
    exact ⟨_, last, hshown, hline⟩

/-- Any diagnostic whose message is on one line is framed like this, whatever its numbers. -/
theorem exists_framed (fragments : List String) (hmessage : '\n' ∉ d.message.toList) :
    ∃ front rest, d.Framed fragments front rest := by
  obtain ⟨front, rest, htext, hle, hlt, hwalk⟩ :=
    Location.exists_walk {} d.offset.toNat (d.text fragments)
  have hlocation : d.location fragments = .after front := by
    rw [location, hwalk, Location.foldl_advance]
  obtain ⟨above, below, hlength, hlines⟩ := Text.lines_append front rest
  have hnumber : (d.location fragments).line - 1 = above.length := by
    rw [hlocation, hlength]
    exact Nat.add_sub_cancel_left _ _
  refine ⟨front, rest, htext, ⟨hle, hlt⟩, hlocation, lines_frame fragments hmessage, ?_, ?_, ?_,
    caretUnder_iff hmessage⟩
  · rw [hnumber, htext, hlines, List.getElem?_append_right (Nat.le_refl _), Nat.sub_self]
    rfl
  · rw [hlocation]
    exact Nat.add_sub_cancel_left _ _
  · rw [hlocation, htext, Text.length_lines, List.count_append]
    exact (Nat.add_assoc _ _ _).symm

end Diagnostic

theorem Fault.not_mem_message (fault : Fault) : '\n' ∉ fault.message.toList := by
  cases fault <;> decide +kernel

/-- A diagnostic of a template has the message of a fault. -/
theorem message_of_compile {oracle : Oracle} {svg : Bool} {fragments : List String} {d : Diagnostic}
    (h : (compile oracle svg fragments).result = .error d) :
    ∃ fault : Fault, d.message = fault.message := by
  by_cases hne : fragments = []
  · subst hne
    cases h
    exact ⟨.emptyTemplate, rfl⟩
  · obtain ⟨failure, rfl, _⟩ := compile_eq_error hne h
    exact ⟨failure.fault, rfl⟩

/--
**The caret stands under the last line of the fragment,** in the column of the diagnostic. It is
under the place that the diagnostic is about if and only if that line is the one it is about, as it
is when no line ends after the place.
-/
theorem compile_framed {oracle : Oracle} {svg : Bool} {fragments : List String} {d : Diagnostic}
    (h : (compile oracle svg fragments).result = .error d) :
    ∃ front rest, d.Framed fragments front rest
      ∧ ('\n' ∉ rest → d.CaretUnder fragments
        ∧ (Text.lines (d.text fragments)).getLast? =
          some (front.rtakeWhile (· != '\n') ++ rest)) := by
  obtain ⟨fault, hfault⟩ := message_of_compile h
  obtain ⟨front, rest, hframed⟩ :=
    Diagnostic.exists_framed (d := d) fragments (hfault ▸ fault.not_mem_message)
  refine ⟨front, rest, hframed, fun hrest => ?_⟩
  have hlast : (Text.lines (d.text fragments))[(d.location fragments).line - 1]? =
      (Text.lines (d.text fragments)).getLast? := by
    have hbelow := hframed.below
    rw [List.count_eq_zero.mpr hrest, Nat.add_zero] at hbelow
    rw [List.getLast?_eq_getElem?, hbelow]
  have hwhole : rest.takeWhile (· != '\n') = rest := by
    rw [List.takeWhile_eq_self_iff]
    intro c hc
    have hne : c ≠ '\n' := fun heq => hrest (heq ▸ hc)
    simpa using hne
  refine ⟨hframed.caretUnder_iff.mpr hlast, ?_⟩
  rw [← hlast, hframed.line, hwhole]

/-- An equals sign is missing at the end of the second line of three, and the caret is under the
third. -/
theorem compile_framed_second_line :
    ∃ d, (compile (fun _ => false) false ["div\n  span @click\n  p 'x'"]).result = .error d
      ∧ d.location ["div\n  span @click\n  p 'x'"] = ⟨2, 14⟩
      ∧ d.frame ["div\n  span @click\n  p 'x'"] =
        "expected a '=' character\n\ndiv\n  span @click\n  p 'x'\n             ^\n"
      ∧ ¬ d.CaretUnder ["div\n  span @click\n  p 'x'"]
      ∧ ∃ front rest, d.Framed ["div\n  span @click\n  p 'x'"] front rest := by
  generalize hf : ["div\n  span @click\n  p 'x'"] = fragments
  have hresult : (compile (fun _ => false) false fragments).diagnostic? =
      some ⟨"E-EQ", "expected a '=' character", 0, 17⟩ := by
    rw [← hf]
    decide +kernel
  generalize hd : (⟨"E-EQ", "expected a '=' character", 0, 17⟩ : Diagnostic) = d at hresult
  have hlocation : d.location fragments = ⟨2, 14⟩ := by
    rw [← hf, ← hd]
    decide +kernel
  have hframe : d.frame fragments =
      "expected a '=' character\n\ndiv\n  span @click\n  p 'x'\n             ^\n" := by
    rw [← hf, ← hd]
    decide +kernel
  have hlines : (Text.lines (d.text fragments))[1]? ≠ (Text.lines (d.text fragments)).getLast? := by
    rw [← hf, ← hd]
    decide +kernel
  have hresult := Outcome.result_of_diagnostic? hresult
  obtain ⟨front, rest, hframed, _⟩ := compile_framed hresult
  refine ⟨d, hresult, hlocation, hframe, fun hunder => hlines ?_, front, rest, hframed⟩
  have hline := hframed.caretUnder_iff.mp hunder
  rwa [hlocation] at hline

end Stencil
