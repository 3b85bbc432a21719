import Stencil.Element.Markup

/-!
# Markup up to where its texts are cut

Neighbouring texts are joined in a skeleton, so where the markup of a template is cut into
texts makes no difference to it. `Merges` says of two pieces of markup that they make the
same skeleton whatever comes after them. Whatever comes before makes no difference either
(`Merges.append`), so a change inside a template is looked at on its own.

The markup of an element is `Framed`: holes never stand side by side or at an end of it.
-/

namespace Stencil

namespace Part

/-- The two pieces of markup are the same once texts are joined, also with more behind. -/
def Merges (a b : List Part) : Prop :=
  ∀ rest, merge (a ++ rest) = merge (b ++ rest)

/-- What is joined to a text depends on what follows only through its own joined form. -/
theorem merge_cons_congr (p : Part) {x y : List Part} (h : merge x = merge y) :
    merge (p :: x) = merge (p :: y) := by
  cases p with
  | expr i => rw [merge, merge, h]
  | text s => rw [merge, merge, h]

theorem merge_append_congr (a : List Part) {x y : List Part} (h : merge x = merge y) :
    merge (a ++ x) = merge (a ++ y) := by
  induction a with
  | nil => exact h
  | cons p a ih => exact merge_cons_congr p ih

theorem isEmpty_merge (a : List Part) : (merge a).isEmpty = a.isEmpty := by
  cases a with
  | nil => rfl
  | cons p a =>
    cases p with
    | expr i => rfl
    | text s =>
      rw [merge]
      split <;> rfl

/-- Two texts in a row are as good as one. -/
theorem merge_text_text (s t : String) (rest : List Part) :
    merge (text s :: text t :: rest) = merge (text (s ++ t) :: rest) := by
  rw [merge, merge, merge]
  cases merge rest with
  | nil => rfl
  | cons p rest =>
    cases p with
    | expr i => rfl
    | text u =>
      dsimp only
      rw [String.append_assoc]

namespace Merges

theorem refl (a : List Part) : Merges a a := fun _ => rfl

theorem append {a a' b b' : List Part} (h : Merges a a') (h' : Merges b b') :
    Merges (a ++ b) (a' ++ b') := by
  intro rest
  calc merge (a ++ b ++ rest) = merge (a ++ (b ++ rest)) := by rw [List.append_assoc]
    _ = merge (a' ++ (b ++ rest)) := h _
    _ = merge (a' ++ (b' ++ rest)) := merge_append_congr a' (h' rest)
    _ = merge (a' ++ b' ++ rest) := by rw [List.append_assoc]

theorem merge_eq {a b : List Part} (h : Merges a b) : merge a = merge b := by
  have hnil := h []
  rwa [List.append_nil, List.append_nil] at hnil

theorem isEmpty_eq {a b : List Part} (h : Merges a b) : a.isEmpty = b.isEmpty := by
  rw [← isEmpty_merge a, h.merge_eq, isEmpty_merge]

end Merges

/-- Holes can be filled before or after texts are joined. -/
theorem merge_map_merge {f : Part → Part} (hf : ∀ s, f (text s) = text s) (parts : List Part) :
    merge ((merge parts).map f) = merge (parts.map f) := by
  induction parts with
  | nil => rfl
  | cons p rest ih =>
    have hcons : merge ((p :: merge rest).map f) = merge ((p :: rest).map f) :=
      merge_cons_congr (f p) ih
    cases p with
    | expr i => exact hcons
    | text s =>
      rw [← hcons, merge]
      split
      · next t rest' hrest =>
        rw [hrest, List.map_cons, List.map_cons, List.map_cons, hf, hf, hf, merge_text_text]
      · rfl

/-! ## Texts around holes -/

/-- A text stands at both ends, and between any two holes. -/
inductive Framed : List Part → Prop
  | single (s : String) : Framed [text s]
  | text (s : String) {rest : List Part} (h : Framed rest) : Framed (text s :: rest)
  | hole (s : String) (i : Nat) {rest : List Part} (h : Framed rest) :
    Framed (text s :: expr i :: rest)

theorem Framed.append {a b : List Part} (ha : Framed a) (hb : Framed b) : Framed (a ++ b) := by
  induction ha with
  | single s => exact .text s hb
  | text s _ ih => exact .text s ih
  | hole s i _ ih => exact .hole s i ih

end Part

theorem ClassPart.framed_markup (oracle : Oracle) (cls : ClassPart) :
    cls.markup oracle = [] ∨ Part.Framed (cls.markup oracle) := by
  cases cls with
  | names list =>
    cases list with
    | nil => exact .inl rfl
    | cons n ns => exact .inr (.single _)
  | expr i =>
    rw [markup]
    split
    · exact .inr (.hole _ _ (.single _))
    · exact .inl rfl

theorem Binding.framed_markup (oracle : Oracle) (b : Binding) :
    b.markup oracle = [] ∨ Part.Framed (b.markup oracle) := by
  cases b with
  | flag name => exact .inr (.single _)
  | value name text => exact .inr (.single _)
  | named kind name i =>
    rw [markup]
    split
    · exact .inr (.hole _ _ (.single _))
    · exact .inl rfl
  | directive i => exact .inl rfl

namespace Head

theorem framed_opening (oracle : Oracle) (head : Head) : Part.Framed (head.opening oracle) := by
  have hbindings : ∀ bs : List Binding,
      Part.Framed (bs.flatMap (·.markup oracle) ++ [.text ">"]) := by
    intro bs
    induction bs with
    | nil => exact .single _
    | cons b bs ih =>
      rw [List.flatMap_cons, List.append_assoc]
      rcases b.framed_markup oracle with hnil | hframed
      · rw [hnil]
        exact ih
      · exact hframed.append ih
  rw [opening, attrs, List.cons_append, List.append_assoc]
  refine .text _ ?_
  rcases head.cls.framed_markup oracle with hnil | hframed
  · rw [hnil]
    exact hbindings _
  · exact hframed.append (hbindings _)

theorem framed_append_closing {parts : List Part} (h : Part.Framed parts) (head : Head) :
    Part.Framed (parts ++ head.closing) := by
  unfold closing
  split
  · rwa [List.append_nil]
  · exact h.append (.single _)

end Head

theorem Content.framed_append_markup {parts : List Part} (h : Part.Framed parts) (oracle : Oracle)
    (before : Before) (c : Content) : Part.Framed (parts ++ c.markup oracle before) := by
  induction c generalizing parts before with
  | nil => rwa [markup, List.append_nil]
  | text s next ih =>
    rw [markup]
    split
    · have hboth := (h.append (.single "<!>")).append (.single (Text.escape .running s))
      simpa using ih hboth .afterText
    · have htext := h.append (.single (Text.escape .running s))
      simpa using ih htext .afterText
  | expr i next ih => exact ih h _
  | element head inner next ihInner ihNext =>
    have hinner := ihInner (h.append (head.framed_opening oracle)) .nothing
    have hclosed := Head.framed_append_closing hinner head
    simpa [markup] using ihNext hclosed .nothing

theorem Element.framed_markup (oracle : Oracle) (e : Element) : Part.Framed (e.markup oracle) :=
  Head.framed_append_closing
    (Content.framed_append_markup (e.head.framed_opening oracle) oracle .nothing e.content) e.head

end Stencil
