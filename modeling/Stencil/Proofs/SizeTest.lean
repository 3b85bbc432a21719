import Stencil.Proofs.Reading

/-!
# Reading with and without the size test

A nested element may turn out too large, and only there does reading depend on more than the
fragments. So a test can do one thing: it cuts a reading short. Compared with reading that
tests nothing, the result is the same, or it is the fault of the test at a reader that the
other one came past. What was asked by then is the beginning of what is asked without tests.
-/

namespace Stencil

namespace Reader

variable {α β : Type}

/-- The reader that a step stopped at. -/
def last : Except Failure (α × Reader) → Reader
  | .ok (_, s) => s
  | .error failure => failure.reader

/-- `y` is `x`, or `x` cut short by a size test. -/
def Cut (x y : Except Failure (α × Reader)) : Prop :=
  y = x ∨ ∃ s, y = .error ⟨.templateSize, s⟩ ∧ s.asked <:+ (last x).asked

/-- Wherever a step stopped, the reader has moved forward to there. -/
theorem Promises.reads_last {r : Reader} {taken asked : α → List Nat} {good : α → Prop}
    {x : Except Failure (α × Reader)} (h : Promises r taken asked good x) :
    ∃ exprs asks, Reads r (last x) exprs asks := by
  cases x with
  | error failure => exact h
  | ok found => exact ⟨_, _, h.1⟩

/-- Reading on only adds to what is asked. -/
theorem Promises.asked_suffix {r : Reader} {taken asked : α → List Nat} {good : α → Prop}
    {x : Except Failure (α × Reader)} (h : Promises r taken asked good x) :
    r.asked <:+ (last x).asked := by
  obtain ⟨_, _, hreads⟩ := h.reads_last
  exact ⟨_, hreads.asked.symm⟩

theorem Cut.asked_suffix {x y : Except Failure (α × Reader)} (h : Cut x y) :
    (last y).asked <:+ (last x).asked := by
  rcases h with rfl | ⟨s, rfl, hs⟩
  · exact List.suffix_rfl
  · exact hs

/-- A step that hands faults on and stops where the step before it stopped is cut with it. -/
theorem Cut.step {x y : Except Failure (α × Reader)} {x' y' : Except Failure (β × Reader)}
    (h : Cut x y) (hsame : y = x → y' = x')
    (herror : ∀ failure, y = .error failure → y' = .error failure)
    (hlast : last x' = last x) : Cut x' y' := by
  rcases h with heq | ⟨s, heq, hs⟩
  · exact .inl (hsame heq)
  · refine .inr ⟨s, herror _ heq, ?_⟩
    rw [hlast]
    exact hs

theorem element_content_cut (fits : Element → Bool) :
    (∀ r : Reader, Cut (r.element fun _ => true) (r.element fits))
      ∧ ∀ base (r : Reader), Cut (r.content (fun _ => true) base) (r.content fits base) := by
  refine element_content_induction ?_ ?_
  · intro r ih
    rw [element_eq, element_eq]
    cases hhead : r.head with
    | error failure => exact .inl rfl
    | ok found =>
      obtain ⟨head, s⟩ := found
      dsimp only
      by_cases hvoid : head.isVoid = true
      · rw [if_pos hvoid, if_pos hvoid]
        exact .inl rfl
      · have hcut := ih r.indent s (remaining_of_head hhead)
        rw [if_neg hvoid, if_neg hvoid]
        refine hcut.step (fun h => by rw [h]) (fun _ h => by rw [h]) ?_
        cases s.content (fun _ => true) r.indent <;> rfl
  · intro base r ihElement ihContent
    rw [content_eq, content_eq]
    by_cases hindent : r.indent ≤ base
    · rw [if_pos hindent, if_pos hindent]
      exact .inl rfl
    rw [if_neg hindent, if_neg hindent]
    by_cases hend : r.atEnd = true
    · rw [if_pos hend, if_pos hend]
      cases htake : r.takeExpr? with
      | none => exact .inl rfl
      | some found =>
        obtain ⟨i, s⟩ := found
        have hcut := ihContent s.skipBlank
          (Nat.lt_of_le_of_lt (remaining_skipBlank_le s) (remaining_of_takeExpr? htake))
        dsimp only
        refine hcut.step (fun h => by rw [h]) (fun _ h => by rw [h]) ?_
        cases s.skipBlank.content (fun _ => true) base <;> rfl
    rw [if_neg hend, if_neg hend]
    cases hliteral : r.literal with
    | error failure => exact .inl rfl
    | ok found =>
      obtain ⟨text, s⟩ := found
      dsimp only
      by_cases htext : text ≠ ""
      · have hcut := ihContent s.skipBlank
          (Nat.lt_of_le_of_lt (remaining_skipBlank_le s) (remaining_lt_of_literal hliteral htext))
        rw [if_pos htext, if_pos htext]
        refine hcut.step (fun h => by rw [h]) (fun _ h => by rw [h]) ?_
        cases s.skipBlank.content (fun _ => true) base <;> rfl
      rw [if_neg htext, if_neg htext]
      have helement := ihElement s (remaining_of_literal hliteral)
      cases hchild : s.element fun _ => true with
      | error failure =>
        rw [hchild] at helement
        rcases helement with heq | ⟨u, heq, hu⟩
        · rw [heq]
          exact .inl rfl
        · rw [heq]
          exact .inr ⟨u, rfl, hu⟩
      | ok found =>
        obtain ⟨child, t⟩ := found
        rw [hchild] at helement
        have hlt : t.skipBlank.remaining < r.remaining :=
          Nat.lt_of_le_of_lt (remaining_skipBlank_le t)
            (Nat.lt_of_lt_of_le (remaining_of_element hchild) (remaining_of_literal hliteral))
        have hcut := ihContent t.skipBlank hlt
        -- whatever is cut off, the other reading has come past this element
        have hpast : t.asked <:+ (last (t.skipBlank.content (fun _ => true) base)).asked :=
          ((element_content_promises fun _ => true).2 base t.skipBlank).asked_suffix
        dsimp only
        generalize t.skipBlank.content (fun _ => true) base = x at hcut hpast ⊢
        rw [if_pos rfl]
        rcases helement with heq | ⟨u, heq, hu⟩
        · rw [heq]
          dsimp only
          by_cases hfits : fits child = true
          · rw [if_pos hfits]
            refine hcut.step (fun h => by rw [h]) (fun _ h => by rw [h]) ?_
            cases x <;> rfl
          · rw [if_neg hfits]
            refine .inr ⟨t, rfl, ?_⟩
            cases x <;> exact hpast
        · rw [heq]
          refine .inr ⟨u, rfl, ?_⟩
          cases x <;> exact hu.trans hpast

end Reader

/-- **A size test only cuts reading short.** -/
theorem Template.read_cut (fits : Element → Bool) (r : Reader) :
    Reader.Cut (Template.read (fun _ => true) r) (Template.read fits r) := by
  unfold Template.read
  cases r.options with
  | error failure => exact .inl rfl
  | ok found =>
    obtain ⟨disableCloning, s⟩ := found
    dsimp only
    have hcut := (Reader.element_content_cut fits).1 s
    refine hcut.step (fun h => by rw [h]) (fun _ h => by rw [h]) ?_
    cases s.element fun _ => true <;> rfl

end Stencil
