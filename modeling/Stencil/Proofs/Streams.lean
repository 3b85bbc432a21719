import Mathlib.Data.List.Forall2
import Stencil.Proofs.Walk

/-!
# What the op streams say

A stream of ops is read with three tables at hand: the place of the node in each slot,
the dynamic expressions, and the stored names. An op then either goes to a node or acts on
the current one, and the stream falls into groups of acts, one for each node it goes to.
An op that refers to nothing in the tables has no meaning, and neither has its stream.

What the streams of a template should say is read off its elements: `Head.updates` for the
bindings of one element, `Content.placements` for the dynamic children of one element. Every
site that the compiler makes meets the element it was made for (`forall₂_meets`), so emission
never gets stuck, and the two streams are the groups of the elements in the order of their
opening tags.
-/

namespace Stencil

/-! ## Streams fall into groups -/

/-- Acts on one node, in order. -/
structure Group (α : Type) where
  place : Place
  acts : List α
  deriving DecidableEq, Repr

namespace Group

variable {Op α : Type} {meaning : Op → Option (Place ⊕ α)} {place : Place}

def push (act : α) : List (Group α) → List (Group α)
  | [] => []
  | g :: gs => { g with acts := act :: g.acts } :: gs

/-- The groups of a stream that starts at the node at `place`. -/
def ofStream (meaning : Op → Option (Place ⊕ α)) (place : Place) :
    List Op → Option (List (Group α))
  | [] => some [⟨place, []⟩]
  | op :: ops =>
    match meaning op with
    | none => none
    -- the acts so far were all there is for the node here
    | some (.inl next) => (ofStream meaning next ops).map (⟨place, []⟩ :: ·)
    | some (.inr act) => (ofStream meaning place ops).map (push act)

/-- The ops act on the current node, and these are their acts. -/
abbrev Acts (meaning : Op → Option (Place ⊕ α)) (ops : List Op) (acts : List α) : Prop :=
  List.Forall₂ (fun op act => meaning op = some (.inr act)) ops acts

/-- The ops of one group: they go to its node and act there. A group without acts has none. -/
def IsSegment (meaning : Op → Option (Place ⊕ α)) (g : Group α) (ops : List Op) : Prop :=
  (g.acts = [] ∧ ops = [])
    ∨ g.acts ≠ [] ∧ ∃ marker rest, ops = marker :: rest ∧ meaning marker = some (.inl g.place)
        ∧ Acts meaning rest g.acts

theorem ofStream_acts {ops rest : List Op} {acts : List α} {gs : List (Group α)}
    (h : Acts meaning ops acts) (hr : ofStream meaning place rest = some (⟨place, []⟩ :: gs)) :
    ofStream meaning place (ops ++ rest) = some (⟨place, acts⟩ :: gs) := by
  induction h with
  | nil => exact hr
  | cons hop _ ih =>
    rw [List.cons_append, ofStream, hop]
    dsimp only
    rw [ih]
    rfl

/-- **Segments in a row are the groups that have acts, in order.** -/
theorem ofStream_segments {groups : List (Group α)} {segments : List (List Op)}
    (h : List.Forall₂ (IsSegment meaning) groups segments) (place : Place) :
    ofStream meaning place segments.flatten =
      some (⟨place, []⟩ :: groups.filter (!·.acts.isEmpty)) := by
  induction h generalizing place with
  | nil => rfl
  | @cons g ops groups segments hg _ ih =>
    rcases hg with ⟨hacts, hops⟩ | ⟨hacts, marker, rest, hops, hmarker, hrest⟩
    · rw [hops, List.flatten_cons, List.nil_append, ih, List.filter_cons_of_neg (by simp [hacts])]
    · have hgroup := ofStream_acts hrest (ih g.place)
      rw [hops, List.flatten_cons, List.cons_append, ofStream, hmarker]
      dsimp only
      rw [hgroup, List.filter_cons_of_pos (by simp [hacts])]
      rfl

end Group

/-! ## What ops mean -/

/-- What the numbers in ops refer to. -/
structure Tables where
  /-- The place of the node in each slot. -/
  places : List Place
  exprs : List Nat
  data : List String

/-- An update of a node, by the expression that gives its value. -/
inductive Update where
  | common (prop : CommonProp) (expr : Nat)
  | named (kind : NamedProp) (name : String) (expr : Nat)
  | directive (expr : Nat)
  deriving DecidableEq, Repr

def Update.expr : Update → Nat
  | common _ e => e
  | named _ _ e => e
  | directive e => e

/-- Something done among the children of a node, from the last child to the first. -/
inductive Placement where
  /-- The value of an expression goes before what was placed last. -/
  | value (expr : Nat)
  /-- What follows goes before the node at a place. -/
  | before (place : Place)
  deriving DecidableEq, Repr

def PropOp.meaning (tables : Tables) : PropOp → Option (Place ⊕ Update)
  | setNode slot => tables.places[slot]?.map .inl
  | common prop input => tables.exprs[input]?.map fun e => .inr (.common prop e)
  | named kind input data =>
    tables.exprs[input]?.bind fun e => tables.data[data]?.map fun name => .inr (.named kind name e)
  | directive input => tables.exprs[input]?.map fun e => .inr (.directive e)

def ChildOp.meaning (tables : Tables) : ChildOp → Option (Place ⊕ Placement)
  | child input => tables.exprs[input]?.map fun e => .inr (.value e)
  | setNext slot => tables.places[slot]?.map fun q => .inr (.before q)
  | setParent slot => tables.places[slot]?.map .inl

/-! ## What the elements of a template ask for -/

namespace ClassPart

def updates (oracle : Oracle) : ClassPart → List Update
  | names _ => []
  | expr i => if oracle i then [] else [.common .className i]

end ClassPart

namespace Binding

def updates (oracle : Oracle) (b : Binding) : List Update :=
  match b with
  | named kind name i => if b.isHoisted oracle then [] else [.named kind name i]
  | directive i => [.directive i]
  | _ => []

end Binding

namespace Head

/-- The updates of an element: its class and its bindings, as far as they are not known. -/
def updates (oracle : Oracle) (head : Head) : List Update :=
  head.cls.updates oracle ++ head.bindings.flatMap (·.updates oracle)

/-- The dynamic expressions of an element are those of its updates. -/
theorem map_expr_updates (oracle : Oracle) (head : Head) :
    (head.updates oracle).map Update.expr = head.exprs oracle := by
  have hcls : (head.cls.updates oracle).map Update.expr = head.cls.exprs oracle := by
    unfold ClassPart.updates ClassPart.exprs
    cases head.cls with
    | names list => rfl
    | expr i =>
      dsimp only
      split <;> rfl
  have hbinding : ∀ b : Binding, (b.updates oracle).map Update.expr = b.exprs oracle := by
    intro b
    unfold Binding.updates Binding.exprs
    cases b with
    | named kind name i =>
      dsimp only
      split <;> rfl
    | _ => rfl
  rw [updates, exprs, List.map_append, hcls, List.map_flatMap]
  simp only [hbinding]

end Head

namespace Content

/-- The placements among the children of the element at `p`, from node `i` on, with the first
child first. A node that comes after an expression is what the expression goes before. -/
def placements : Before → Place → Nat → Content → List Placement
  | _, _, _, nil => []
  | before, p, i, text _ next =>
    (if before.expr then [.before ((i + before.anchors) :: p)] else [])
      ++ next.placements .afterText p (i + before.anchors + 1)
  | before, p, i, expr j next => .value j :: next.placements before.afterExpr p i
  | before, p, i, element _ _ next =>
    (if before.expr then [.before (i :: p)] else []) ++ next.placements .nothing p (i + 1)

theorem isEmpty_placements (before : Before) (hb : before.expr = false) (p : Place) (i : Nat)
    (c : Content) : (c.placements before p i).isEmpty = !c.hasExpr := by
  induction c generalizing before i with
  | nil => rfl
  | text s next ih =>
    rw [placements, hb]
    exact ih _ rfl _
  | expr j next _ => rfl
  | element head inner next _ ihNext =>
    rw [placements, hb]
    exact ihNext _ rfl _

end Content

/-! ## Numbers find their entries -/

section Tables

variable {α : Type} {xs a b : List α} {n : Nat}

/-- Entries that a table has from number `n` on. -/
theorem getElem?_of_prefix_drop {x : α} (h : x :: a <+: xs.drop n) : xs[n]? = some x := by
  obtain ⟨rest, hrest⟩ := h
  have hhead := congrArg (·[0]?) hrest
  simpa using hhead.symm

theorem prefix_drop_append (h : a ++ b <+: xs.drop n) :
    a <+: xs.drop n ∧ b <+: xs.drop (n + a.length) := by
  obtain ⟨rest, hrest⟩ := h
  refine ⟨⟨b ++ rest, by rw [← hrest, List.append_assoc]⟩, rest, ?_⟩
  rw [← List.drop_drop, ← hrest, List.append_assoc, List.drop_left]

theorem prefix_drop_left (a b : List α) : b <+: (a ++ b).drop a.length :=
  ⟨[], by rw [List.append_nil, List.drop_left]⟩

end Tables

section Updates

variable {oracle : Oracle} {tables : Tables}

theorem ClassPart.acts_props {cls : ClassPart} {n : Nat}
    (h : cls.exprs oracle <+: tables.exprs.drop n) :
    Group.Acts (PropOp.meaning tables) (cls.props oracle n) (cls.updates oracle) := by
  cases cls with
  | names list => exact .nil
  | expr i =>
    rw [ClassPart.exprs] at h
    rw [ClassPart.props, ClassPart.updates]
    by_cases ho : oracle i = true
    · rw [if_pos ho, if_pos ho]
      exact .nil
    · rw [if_neg ho] at h
      rw [if_neg ho, if_neg ho]
      refine .cons ?_ .nil
      rw [PropOp.meaning, getElem?_of_prefix_drop h]
      rfl

theorem Binding.acts_props {b : Binding} {n m : Nat}
    (h : b.exprs oracle <+: tables.exprs.drop n) (hd : b.data oracle <+: tables.data.drop m) :
    Group.Acts (PropOp.meaning tables) (b.props oracle n m) (b.updates oracle) := by
  cases b with
  | flag name => exact .nil
  | value name text => exact .nil
  | named kind name i =>
    rw [Binding.exprs] at h
    rw [Binding.data] at hd
    rw [Binding.props, Binding.updates]
    by_cases hh : (Binding.named kind name i).isHoisted oracle = true
    · rw [if_pos hh, if_pos hh]
      exact .nil
    · -- one op, with the next entry of each table
      rw [if_neg hh] at h hd
      rw [if_neg hh, if_neg hh]
      refine .cons ?_ .nil
      rw [PropOp.meaning, getElem?_of_prefix_drop h, getElem?_of_prefix_drop hd]
      rfl
  | directive i =>
    refine .cons ?_ .nil
    rw [PropOp.meaning, getElem?_of_prefix_drop h]
    rfl

theorem Binding.acts_propsAll {bs : List Binding} {n m : Nat}
    (h : bs.flatMap (·.exprs oracle) <+: tables.exprs.drop n)
    (hd : bs.flatMap (·.data oracle) <+: tables.data.drop m) :
    Group.Acts (PropOp.meaning tables) (Binding.propsAll oracle n m bs)
      (bs.flatMap (·.updates oracle)) := by
  induction bs generalizing n m with
  | nil => exact .nil
  | cons b bs ih =>
    rw [List.flatMap_cons] at h hd
    obtain ⟨hb, hbs⟩ := prefix_drop_append h
    obtain ⟨hdb, hdbs⟩ := prefix_drop_append hd
    rw [Binding.propsAll, List.flatMap_cons]
    exact List.rel_append (Binding.acts_props hb hdb) (ih hbs hdbs)

theorem Head.acts_props {head : Head} {n m : Nat}
    (h : head.exprs oracle <+: tables.exprs.drop n)
    (hd : head.data oracle <+: tables.data.drop m) :
    Group.Acts (PropOp.meaning tables) (head.props oracle n m) (head.updates oracle) := by
  obtain ⟨hcls, hbindings⟩ := prefix_drop_append h
  exact List.rel_append (ClassPart.acts_props hcls) (Binding.acts_propsAll hbindings hd)

end Updates

/-! ## Every site meets its element -/

/-- The op of a mark has a slot, and the slot holds the node at the mark's place. -/
def Mark.Held (slots : Slots) (tables : Tables) (mark : Mark) : Prop :=
  ∃ slot, slots.get? mark.step = some slot ∧ tables.places[slot]? = some mark.place

/-- An insert becomes an op that does this placement. -/
def Insert.Places (slots : Slots) (tables : Tables) (i : Insert) (x : Placement) : Prop :=
  ∃ op, i.resolve? slots = some op ∧ ChildOp.meaning tables op = some (.inr x)

/-- A site says what its element asks for, and its slot holds the element's node. -/
structure Site.Meets (oracle : Oracle) (slots : Slots) (tables : Tables) (l : Located)
    (s : Site) : Prop where
  updates : Group.Acts (PropOp.meaning tables) s.props (l.head.updates oracle)
  placements : List.Forall₂ (Insert.Places slots tables) s.inserts
    (l.inner.placements .nothing l.place 0)
  node : isUpdated oracle l.head l.inner = true →
    ∃ slot, s.slot? slots = some slot ∧ tables.places[slot]? = some l.place

namespace Content

variable {oracle : Oracle} {slots : Slots} {tables : Tables}

theorem places_insertPoint {before : Before} {pos : Nat} {place : Place}
    (h : before.expr = true → Mark.Held slots tables ⟨pos, place⟩) :
    List.Forall₂ (Insert.Places slots tables) (before.insertPoint pos)
      (if before.expr then [.before place] else []) := by
  unfold Before.insertPoint
  by_cases hb : before.expr = true
  · obtain ⟨slot, hslot, hplace⟩ := h hb
    dsimp only at hslot hplace
    rw [if_pos hb, if_pos hb]
    refine .cons ⟨.setNext slot, ?_, ?_⟩ .nil
    · rw [Insert.resolve?, hslot]
      rfl
    · rw [ChildOp.meaning, hplace]
      rfl
  · rw [if_neg hb, if_neg hb]
    exact .nil

theorem places_inserts {c : Content} {before : Before} {pos n i : Nat} {p : Place}
    (hm : ∀ mark ∈ c.marks oracle before pos p i, mark.Held slots tables)
    (h : c.exprs oracle <+: tables.exprs.drop n) :
    List.Forall₂ (Insert.Places slots tables) (c.inserts oracle before pos n)
      (c.placements before p i) := by
  induction c generalizing before pos n i with
  | nil => exact .nil
  | text s next ih =>
    rw [inserts, placements]
    refine List.rel_append (places_insertPoint fun hb => hm _ ?_)
      (ih (fun mark hmark => hm mark ?_) h)
    · rw [marks, if_pos hb]
      exact List.mem_cons_self ..
    · rw [marks]
      exact List.mem_append_right _ hmark
  | expr j next ih =>
    obtain ⟨hj, hnext⟩ := prefix_drop_append (a := [j]) h
    refine .cons ⟨.child n, rfl, ?_⟩ (ih hm hnext)
    rw [ChildOp.meaning, getElem?_of_prefix_drop hj]
    rfl
  | element head inner next _ ihNext =>
    -- what the element uses up itself is for its own site
    rw [exprs] at h
    obtain ⟨_, hnext⟩ := prefix_drop_append h
    rw [List.length_append, ← Nat.add_assoc] at hnext
    rw [inserts, placements]
    refine List.rel_append (places_insertPoint fun hb => hm _ ?_)
      (ihNext (fun mark hmark => hm mark ?_) hnext)
    · rw [marks, hb, Bool.true_or, if_pos rfl]
      exact List.mem_cons_self ..
    · rw [marks]
      exact List.mem_append_right _ (List.mem_append_right _ hmark)

/-- **Every site of content meets its element**, if the tables hold what is numbered. -/
theorem forall₂_meets {c : Content} {before : Before} {pos n m i : Nat} {p : Place}
    (hm : ∀ mark ∈ c.marks oracle before pos p i, mark.Held slots tables)
    (h : c.exprs oracle <+: tables.exprs.drop n) (hd : c.data oracle <+: tables.data.drop m) :
    List.Forall₂ (Site.Meets oracle slots tables) (c.located before p i)
      (c.sites oracle before pos n m).flatten := by
  induction c generalizing before pos n m i p with
  | nil => exact .nil
  | text s next ih =>
    rw [located, sites]
    refine ih (fun mark hmark => hm mark ?_) h hd
    rw [marks]
    exact List.mem_append_right _ hmark
  | expr j next ih =>
    obtain ⟨_, hnext⟩ := prefix_drop_append (a := [j]) h
    exact ih hm hnext hd
  | element head inner next ihInner ihNext =>
    -- the head, what is inside and what comes after each take their part of the tables
    rw [exprs] at h
    rw [data] at hd
    rw [marks] at hm
    obtain ⟨hleft, hnext⟩ := prefix_drop_append h
    obtain ⟨hhead, hinner⟩ := prefix_drop_append hleft
    obtain ⟨hdleft, hdnext⟩ := prefix_drop_append hd
    obtain ⟨hdhead, hdinner⟩ := prefix_drop_append hdleft
    rw [List.length_append, ← Nat.add_assoc] at hnext hdnext
    have hmInner := fun mark hmark =>
      hm mark (List.mem_append_right _ (List.mem_append_left _ hmark))
    have hmNext := fun mark hmark =>
      hm mark (List.mem_append_right _ (List.mem_append_right _ hmark))
    rw [located, sites, Sites.flatten]
    refine .cons ⟨Head.acts_props hhead hdhead, places_inserts hmInner hinner, fun hu => ?_⟩
      (List.rel_append (ihInner hmInner hinner hdinner) (ihNext hmNext hnext hdnext))
    -- an element that is updated has a mark of its own
    dsimp only at hu
    refine hm ⟨pos, i :: p⟩ (List.mem_append_left _ ?_)
    rw [hu, Bool.or_true, if_pos rfl]
    exact List.mem_cons_self ..

end Content

/-! ## The ops of a site are the segments of its element -/

theorem forall_mem_of_forall₂ {α β : Type} {R : α → β → Prop} {P : α → Prop} {xs : List α}
    {ys : List β} (h : List.Forall₂ R xs ys) (hP : ∀ x y, R x y → P x) : ∀ x ∈ xs, P x := by
  induction h with
  | nil => exact List.forall_mem_nil _
  | cons hxy _ ih => exact List.forall_mem_cons.mpr ⟨hP _ _ hxy, ih⟩

theorem flatMap_of_forall₂ {α β : Type} {R : α → α → Prop} {f g : α → List β} {xs ys : List α}
    (h : List.Forall₂ R xs ys) (hfg : ∀ {x y}, R x y → g y = f x) :
    ys.flatMap g = xs.flatMap f := by
  induction h with
  | nil => rfl
  | cons hxy _ ih => rw [List.flatMap_cons, List.flatMap_cons, hfg hxy, ih]

theorem Insert.resolved_of_places {slots : Slots} {tables : Tables} {is : List Insert}
    {xs : List Placement} (h : List.Forall₂ (Insert.Places slots tables) is xs) :
    ∀ i ∈ is, (i.resolve? slots).isSome := by
  refine forall_mem_of_forall₂ h ?_
  rintro i x ⟨op, hop, _⟩
  rw [hop]
  rfl

theorem Insert.acts_of_places {slots : Slots} {tables : Tables} {is : List Insert}
    {xs : List Placement} (h : List.Forall₂ (Insert.Places slots tables) is xs) :
    Group.Acts (ChildOp.meaning tables) (is.filterMap (·.resolve? slots)) xs := by
  induction h with
  | nil => exact .nil
  | cons hi _ ih =>
    obtain ⟨op, hop, hmeaning⟩ := hi
    rw [List.filterMap_cons_some hop]
    exact .cons hmeaning ih

namespace Located

/-- The updates of an element. -/
def updates (oracle : Oracle) (l : Located) : Group Update :=
  ⟨l.place, l.head.updates oracle⟩

/-- The placements among an element's children, from the last to the first. -/
def placements (l : Located) : Group Placement :=
  ⟨l.place, (l.inner.placements .nothing l.place 0).reverse⟩

end Located

namespace Site

variable {oracle : Oracle} {slots : Slots} {tables : Tables} {l : Located} {s : Site}

theorem Meets.isSegment_propOps (h : s.Meets oracle slots tables l) :
    Group.IsSegment (PropOp.meaning tables) (l.updates oracle) (s.propOps slots) := by
  have hacts := h.updates
  unfold propOps Located.updates
  by_cases hu : l.head.updates oracle = []
  · left
    rw [hu] at hacts
    rw [List.forall₂_nil_right_iff.mp hacts]
    exact ⟨hu, rfl⟩
  · right
    have hprops : s.props ≠ [] := by
      intro hp
      rw [hp] at hacts
      exact hu (List.forall₂_nil_left_iff.mp hacts)
    -- an element with updates has dynamic expressions, so its node is kept in a slot
    have hexprs : l.head.exprs oracle ≠ [] := by
      rw [← Head.map_expr_updates]
      simpa using hu
    obtain ⟨slot, hslot, hplace⟩ := h.node (by simp [isUpdated, hexprs])
    refine ⟨hu, .setNode slot, s.props, ?_, ?_, hacts⟩
    · rw [if_neg (by simpa using hprops), hslot]
      rfl
    · rw [PropOp.meaning, hplace]
      rfl

theorem Meets.isSegment_childOps (h : s.Meets oracle slots tables l) :
    Group.IsSegment (ChildOp.meaning tables) l.placements (s.childOps slots) := by
  have hplaces := h.placements
  rw [childOps_eq]
  unfold Located.placements
  by_cases hp : l.inner.placements .nothing l.place 0 = []
  · left
    rw [hp] at hplaces
    rw [List.forall₂_nil_right_iff.mp hplaces, hp]
    exact ⟨rfl, rfl⟩
  · right
    have hinserts : s.inserts ≠ [] := by
      intro hi
      rw [hi] at hplaces
      exact hp (List.forall₂_nil_left_iff.mp hplaces)
    -- placements come from expressions, and for them the node is kept in a slot
    have hempty : ¬(!l.inner.hasExpr) = true := by
      rw [← Content.isEmpty_placements .nothing rfl l.place 0 l.inner, List.isEmpty_iff]
      exact hp
    have hexpr : l.inner.hasExpr = true := by simpa using hempty
    obtain ⟨slot, hslot, hplace⟩ := h.node (by simp [isUpdated, hexpr])
    refine ⟨by simpa using hp, .setParent slot, _, ?_, ?_,
      Insert.acts_of_places (List.forall₂_reverse_iff.mpr hplaces)⟩
    · rw [if_neg (by simpa using hinserts), hslot]
      rfl
    · rw [ChildOp.meaning, hplace]
      rfl

end Site

/-! ## The streams of a template -/

namespace Element

def slots (oracle : Oracle) (e : Element) : Slots :=
  Slots.ofWalk (e.content.walk oracle)

/-- The tables of a template, with the root in slot 0 and after it the nodes that the walk
saves. -/
def tables (oracle : Oracle) (e : Element) : Tables where
  places := [] :: (e.content.marks oracle .nothing 0 [] 0).map Mark.place
  exprs := e.exprs oracle
  data := e.data oracle

/-- There is a slot for the root and one for each mark. -/
theorem size_slots (oracle : Oracle) (e : Element) :
    (e.slots oracle).size = 1 + (e.content.marks oracle .nothing 0 [] 0).length := by
  rw [slots, Slots.size_ofWalk, Content.findIdxs_walk, List.length_map]

theorem held_marks (oracle : Oracle) (e : Element) :
    ∀ mark ∈ e.content.marks oracle .nothing 0 [] 0,
      mark.Held (e.slots oracle) (e.tables oracle) := by
  intro mark hmark
  -- slots and saved nodes are both numbered by the list of marks
  obtain ⟨k, hk⟩ := List.mem_iff_getElem?.mp hmark
  refine ⟨k + 1, Slots.get?_of_steps ?_, ?_⟩
  · rw [Content.findIdxs_walk, List.getElem?_map, hk]
    rfl
  · rw [tables, List.getElem?_cons_succ, List.getElem?_map, hk]
    rfl

/-- The sites inside the root. -/
def innerSites (oracle : Oracle) (e : Element) : List Site :=
  (e.content.sites oracle .nothing 0 (e.head.exprs oracle).length
    (e.head.data oracle).length).flatten

theorem forall₂_meets (oracle : Oracle) (e : Element) :
    List.Forall₂ (Site.Meets oracle (e.slots oracle) (e.tables oracle))
      (e.content.located .nothing [] 0) (e.innerSites oracle) :=
  Content.forall₂_meets (held_marks oracle e) (prefix_drop_left _ _) (prefix_drop_left _ _)

theorem acts_head_props (oracle : Oracle) (e : Element) :
    Group.Acts (PropOp.meaning (e.tables oracle)) (e.head.props oracle 0 0)
      (e.head.updates oracle) :=
  Head.acts_props (List.prefix_append _ _) (List.prefix_append _ _)

theorem places_inserts (oracle : Oracle) (e : Element) :
    List.Forall₂ (Insert.Places (e.slots oracle) (e.tables oracle))
      (e.content.inserts oracle .nothing 0 (e.head.exprs oracle).length)
      (e.content.placements .nothing [] 0) :=
  Content.places_inserts (held_marks oracle e) (prefix_drop_left _ _)

end Element
end Stencil
