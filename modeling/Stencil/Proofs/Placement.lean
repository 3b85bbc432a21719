import Stencil.Proofs.Artifact

/-!
# Placing the dynamic children

The values of expressions are put among the static children of an element by its group of
child ops, from the last to the first. `Row.place` is what one placement does: the children
so far are cut in two at the insertion point, a value goes right in front of the point and
becomes the point itself, and a `before` moves the point to a static node. It has to be there.

The main theorem says that this gives back the content of each element in the order of the
template, with every static child and every expression once.
-/

namespace Stencil

/-- A child of an element: a static node with its place, or the value of an expression. -/
inductive Child where
  | text (place : Place) (chars : List Char)
  | element (place : Place) (tag : String)
  | value (expr : Nat)
  deriving DecidableEq, Repr

def Child.place? : Child → Option Place
  | text place _ => some place
  | element place _ => some place
  | value _ => none

/-- The static children of the element at `p` from node `i` on. Anchors are gone by the time
that children are placed. -/
def Nodes.children (p : Place) : Nat → Nodes → List Child
  | _, nil => []
  | i, text cs next => .text (i :: p) cs :: next.children p (i + 1)
  | i, anchor next => next.children p (i + 1)
  | i, element tag _ _ next => .element (i :: p) tag :: next.children p (i + 1)

/-- The children of the element at `p` in the order of the template, from node `i` on. -/
def Content.children : Before → Place → Nat → Content → List Child
  | _, _, _, nil => []
  | before, p, i, text s next =>
    .text ((i + before.anchors) :: p) (Text.escape .running s).toList ::
      next.children .afterText p (i + before.anchors + 1)
  | before, p, i, expr j next => .value j :: next.children before.afterExpr p i
  | _, p, i, element head _ next => .element (i :: p) head.tag :: next.children .nothing p (i + 1)

/-- Children with the insertion point between those in front of it and the rest. -/
structure Row where
  front : List Child
  back : List Child
  deriving DecidableEq, Repr

namespace Row

def place (row : Row) : Placement → Option Row
  | .value e => some ⟨row.front, .value e :: row.back⟩
  | .before q =>
    let all := row.front ++ row.back
    if all.any (·.place? == some q) then
      some ⟨all.takeWhile (·.place? != some q), all.dropWhile (·.place? != some q)⟩
    else none

def placeAll (row : Row) (placements : List Placement) : Option Row :=
  placements.foldlM place row

/-- The children after all placements, with the insertion point at the end at first. -/
def fill (children : List Child) (placements : List Placement) : Option (List Child) :=
  (placeAll ⟨children, []⟩ placements).map fun row => row.front ++ row.back

theorem placeAll_snoc {row row' : Row} {ps : List Placement} (h : row.placeAll ps = some row')
    (x : Placement) : row.placeAll (ps ++ [x]) = row'.place x := by
  unfold placeAll at h ⊢
  rw [List.foldlM_append, h]
  simp

theorem place_before {row : Row} {a b : List Child} {x : Child} {q : Place}
    (hrow : row.front ++ row.back = a ++ x :: b) (hx : x.place? = some q)
    (ha : ∀ y ∈ a, y.place? ≠ some q) : row.place (.before q) = some ⟨a, x :: b⟩ := by
  -- the node is the first with its place, so cutting there leaves `a` in front
  have ha' : ∀ y ∈ a, (y.place? != some q) = true := by
    intro y hy
    simpa using ha y hy
  have hany : (a ++ x :: b).any (·.place? == some q) = true := by
    simp [hx]
  rw [place, hrow, if_pos hany, List.takeWhile_append_of_pos ha', List.dropWhile_append_of_pos ha',
    List.takeWhile_cons_of_neg (by simp [hx]), List.dropWhile_cons_of_neg (by simp [hx]),
    List.append_nil]

end Row

/-- None of these children is node `i` of the element at `p`, or one after it. -/
def Child.AllBefore (p : Place) (i : Nat) (a : List Child) : Prop :=
  ∀ x ∈ a, ∀ k, i ≤ k → x.place? ≠ some (k :: p)

theorem Child.AllBefore.mono {p : Place} {i j : Nat} {a : List Child} (h : AllBefore p i a)
    (hij : i ≤ j) : AllBefore p j a :=
  fun x hx k hk => h x hx k (Nat.le_trans hij hk)

theorem Child.AllBefore.snoc {p : Place} {i : Nat} {a : List Child} {x : Child}
    (h : AllBefore p i a) (hx : x.place? = some (i :: p)) : AllBefore p (i + 1) (a ++ [x]) := by
  intro y hy k hk
  rcases List.mem_append.mp hy with hy | hy
  · exact h y hy k (by omega)
  · rw [List.mem_singleton.mp hy, hx]
    intro heq
    have hik : i = k := (List.cons.inj (Option.some.inj heq)).1
    omega

namespace Content

theorem children_nodes_text (oracle : Oracle) (before : Before) (p : Place) (i : Nat) (s : String)
    (next : Content) :
    ((text s next).nodes oracle before).children p i =
      .text ((i + before.anchors) :: p) (Text.escape .running s).toList ::
        (next.nodes oracle .afterText).children p (i + before.anchors + 1) := by
  rw [nodes]
  by_cases h : before.needsAnchor = true
  · rw [if_pos h, anchors_eq_one h]
    rfl
  · rw [if_neg h, anchors_eq_zero h]
    rfl

/-- A node that comes after an expression, with the children before it in `a`. -/
theorem placeAll_insertPoint {before : Before} {ps : List Placement} {q : Place}
    {row start : Row} {a b : List Child} {x : Child} (hx : x.place? = some q)
    (ha : ∀ y ∈ a, y.place? ≠ some q) (hps : start.placeAll ps.reverse = some row)
    (hrow : row.front ++ row.back = a ++ x :: b) :
    ∃ row,
      start.placeAll ((if before.expr then [Placement.before q] else []) ++ ps).reverse = some row
      ∧ row.front ++ row.back = a ++ x :: b
      ∧ (before.expr = true → row = ⟨a, x :: b⟩) := by
  by_cases hb : before.expr = true
  · refine ⟨⟨a, x :: b⟩, ?_, rfl, fun _ => rfl⟩
    rw [if_pos hb, List.singleton_append, List.reverse_cons, Row.placeAll_snoc hps]
    exact Row.place_before hrow hx ha
  · refine ⟨row, ?_, hrow, fun h => absurd h hb⟩
    rw [if_neg hb]
    exact hps

/--
**Placements give the content in order**, behind children `a` that come before it. If an
expression is what comes before, the insertion point ends up between `a` and the content.
-/
theorem placeAll_placements (oracle : Oracle) (c : Content) (before : Before) (p : Place) (i : Nat)
    (a : List Child) (ha : Child.AllBefore p i a) :
    ∃ row, Row.placeAll ⟨a ++ (c.nodes oracle before).children p i, []⟩
        (c.placements before p i).reverse = some row
      ∧ row.front ++ row.back = a ++ c.children before p i
      ∧ (before.expr = true → row = ⟨a, c.children before p i⟩) := by
  induction c generalizing before i a with
  | nil => exact ⟨⟨a, []⟩, by rw [placements, nodes, Nodes.children, List.append_nil]; rfl,
      rfl, fun _ => rfl⟩
  | text s next ih =>
    have ha' := ha.mono (Nat.le_add_right i before.anchors)
    -- for what comes after it, the text is one of the children in front
    have hfront := ha'.snoc
      (x := .text ((i + before.anchors) :: p) (Text.escape .running s).toList) rfl
    obtain ⟨row, hrow, hchildren, _⟩ := ih .afterText (i + before.anchors + 1) _ hfront
    rw [List.append_assoc] at hrow hchildren
    rw [placements, children, children_nodes_text]
    exact placeAll_insertPoint rfl (fun y hy => ha' y hy _ (Nat.le_refl _)) hrow hchildren
  | expr j next ih =>
    -- all that comes after is placed, and the point is where the value goes
    obtain ⟨row, hrow, _, hpoint⟩ := ih before.afterExpr i a ha
    refine ⟨⟨a, .value j :: next.children before.afterExpr p i⟩, ?_, rfl, fun _ => rfl⟩
    rw [placements, List.reverse_cons, nodes, Row.placeAll_snoc hrow, hpoint rfl]
    rfl
  | element head inner next _ ihNext =>
    have hfront := ha.snoc (x := .element (i :: p) head.tag) rfl
    obtain ⟨row, hrow, hchildren, _⟩ := ihNext .nothing (i + 1) _ hfront
    rw [List.append_assoc] at hrow hchildren
    rw [placements, children, nodes, Nodes.children]
    exact placeAll_insertPoint rfl (fun y hy => ha y hy _ (Nat.le_refl _)) hrow hchildren

theorem fill_placements (oracle : Oracle) (c : Content) (p : Place) :
    Row.fill ((c.nodes oracle .nothing).children p 0) (c.placements .nothing p 0).reverse =
      some (c.children .nothing p 0) := by
  obtain ⟨row, hrow, hchildren, _⟩ :=
    placeAll_placements oracle c .nothing p 0 [] (fun x hx => absurd hx List.not_mem_nil)
  rw [List.nil_append] at hrow hchildren
  rw [Row.fill, hrow, Option.map_some, hchildren]

end Content

namespace Element

/-- The elements that values are placed in. The root is always one of them. -/
def parents (e : Element) : List Located :=
  ⟨[], e.head, e.content⟩ :: (e.content.located .nothing [] 0).filter (·.inner.hasExpr)

theorem placementGroups_eq (e : Element) :
    e.placementGroups = e.parents.map Located.placements := by
  have hfilter : ∀ l : Located, (!l.placements.acts.isEmpty) = l.inner.hasExpr := by
    intro l
    rw [Located.placements, List.isEmpty_reverse, Content.isEmpty_placements .nothing rfl,
      Bool.not_not]
  rw [placementGroups, parents, List.map_cons, List.filter_map]
  refine congrArg (_ :: List.map _ ·) (List.filter_congr fun l _ => hfilter l)

theorem located_of_mem_parents {e : Element} {l : Located} (h : l ∈ e.parents) : l ∈ e.located := by
  rcases List.mem_cons.mp h with rfl | h
  · exact List.mem_cons_self ..
  · exact List.mem_cons_of_mem _ (List.mem_of_mem_filter h)

end Element

/--
The child ops of `a`, read with the nodes that a run over the tree of `e` saves, fall into
one group for each element that values are placed in. Carried out on the static children
that the tree has there, a group gives the children in the order of the template.
-/
structure Artifact.Rebuilds (oracle : Oracle) (e : Element) (saves : List Place)
    (groups : List (Group Placement)) (a : Artifact) : Prop where
  run : StateOp.run [] 0 (e.tree oracle).inside a.stateOps = some saves
  stream : Group.ofStream (ChildOp.meaning ⟨[] :: saves, a.exprs, a.data⟩) [] a.childOps =
    some groups
  children : List.Forall₂ (fun l g => g.place = l.place
    ∧ Row.fill (((e.tree oracle).find l.place).inside.children l.place 0) g.acts =
      some (l.inner.children .nothing l.place 0)) e.parents groups

theorem Template.rebuilds_compiled (oracle : Oracle) (svg : Bool) (t : Template) :
    ∃ saves groups, (t.compiled oracle svg).Rebuilds oracle t.root saves groups := by
  refine ⟨_, _, Content.run_walk oracle t.root.content,
    Element.ofStream_childOps oracle t.root, ?_⟩
  rw [Element.placementGroups_eq, List.forall₂_map_right_iff, List.forall₂_same]
  intro l hl
  obtain ⟨next, hfind⟩ := Element.find_located oracle t.root l (Element.located_of_mem_parents hl)
  refine ⟨rfl, ?_⟩
  rw [hfind]
  exact Content.fill_placements oracle l.inner l.place

/-- **Child ops rebuild the content of every element in the order of the template.** -/
theorem compile_rebuilds {oracle : Oracle} {svg : Bool} {fragments : List String} {a : Artifact}
    (h : (compile oracle svg fragments).result = .ok a) :
    ∃ t r, Template.read (Element.fits oracle) (Reader.ofFragments fragments) = .ok (t, r)
      ∧ ∃ saves groups, a.Rebuilds oracle t.root saves groups := by
  obtain ⟨_, t, r, hread, rfl, _⟩ := compile_eq_ok h
  exact ⟨t, r, hread, t.rebuilds_compiled oracle svg⟩

/-- Two expressions at the start, one between two texts, one in an element and one at the end. -/
theorem compile_rebuilds_mixed :
    ∃ a, (compile (fun _ => false) false
        ["div ", " ", " 'a' ", " 'b'\n  p ", "\n  ", ""]).result = .ok a
      ∧ a.childOps = [.child 4, .setNext 2, .child 2, .setNext 1, .child 1, .child 0,
        .setParent 3, .child 3]
      ∧ ∃ e : Element, e.content.children .nothing [] 0 =
          [.value 0, .value 1, .text [0] ['a'], .value 2, .text [2] ['b'], .element [3] "p",
            .value 4]
        ∧ ∃ saves groups, a.Rebuilds (fun _ => false) e saves groups := by
  generalize hf : ["div ", " ", " 'a' ", " 'b'\n  p ", "\n  ", ""] = fragments
  have hops : (compile (fun _ => false) false fragments).result.toOption.map Artifact.childOps =
      some [.child 4, .setNext 2, .child 2, .setNext 1, .child 1, .child 0, .setParent 3,
        .child 3] := by
    rw [← hf]
    decide +kernel
  have hchildren : (Template.read (Element.fits fun _ => false)
      (Reader.ofFragments fragments)).toOption.map (·.1.root.content.children .nothing [] 0) =
      some [.value 0, .value 1, .text [0] ['a'], .value 2, .text [2] ['b'], .element [3] "p",
        .value 4] := by
    rw [← hf]
    decide +kernel
  obtain ⟨a, hresult, hops⟩ := exists_of_toOption_map hops
  obtain ⟨t, r, hread, hrebuilds⟩ := compile_rebuilds hresult
  rw [hread] at hchildren
  exact ⟨a, hresult, hops, t.root, Option.some.inj hchildren, hrebuilds⟩

end Stencil
