import Mathlib.Data.List.Perm.Basic
import Stencil.Proofs.Artifact

/-!
# Every reference has its target, and every target its reference

Ops refer to dynamic expressions, to stored names and to slots by number. This module counts
these references. Every expression is used by one op, the names come up in the order they are
stored, and every slot that the walk gives out is named by some op and no other slot is.

The counts follow the content: the numbers that an element uses up start where those before
it end. For slots the marks of the walk stand in between. A mark is there because an op names
its node, and the sites that a marker is emitted for have their marks in the same order.
-/

namespace Stencil

namespace PropOp

def node? : PropOp → Option Nat
  | setNode slot => some slot
  | _ => none

end PropOp

namespace ChildOp

def input? : ChildOp → Option Nat
  | child input => some input
  | _ => none

def next? : ChildOp → Option Nat
  | setNext slot => some slot
  | _ => none

def parent? : ChildOp → Option Nat
  | setParent slot => some slot
  | _ => none

end ChildOp

namespace Insert

def input? : Insert → Option Nat
  | child input => some input
  | before _ => none

theorem inputs_child (n : Nat) (is : List Insert) :
    (child n :: is).filterMap input? = n :: is.filterMap input? := rfl

theorem bind_resolve?_input? (slots : Slots) (i : Insert) :
    (i.resolve? slots).bind ChildOp.input? = i.input? := by
  cases i with
  | child input => rfl
  | before step =>
    rw [resolve?]
    cases slots.get? step with
    | none => rfl
    | some slot => rfl

end Insert

/-! ## Numbers of one element -/

section Heads

variable (oracle : Oracle)

theorem ClassPart.map_input?_props (n : Nat) (cls : ClassPart) :
    (cls.props oracle n).map PropOp.input? =
      (List.range' n (cls.exprs oracle).length).map some := by
  cases cls with
  | names list => rfl
  | expr i =>
    rw [props, exprs]
    split <;> rfl

theorem ClassPart.data_props (n : Nat) (cls : ClassPart) :
    (cls.props oracle n).filterMap PropOp.data? = [] := by
  cases cls with
  | names list => rfl
  | expr i =>
    rw [props]
    split <;> rfl

theorem Binding.map_input?_props (n m : Nat) (b : Binding) :
    (b.props oracle n m).map PropOp.input? =
      (List.range' n (b.exprs oracle).length).map some := by
  cases b with
  | named kind name i =>
    rw [props, exprs]
    split <;> rfl
  | _ => rfl

theorem Binding.data_props (n m : Nat) (b : Binding) :
    (b.props oracle n m).filterMap PropOp.data? = List.range' m (b.data oracle).length := by
  cases b with
  | named kind name i =>
    rw [props, data]
    split <;> rfl
  | _ => rfl

theorem Binding.map_input?_propsAll (n m : Nat) (bs : List Binding) :
    (propsAll oracle n m bs).map PropOp.input? =
      (List.range' n (bs.flatMap (·.exprs oracle)).length).map some := by
  induction bs generalizing n m with
  | nil => rfl
  | cons b bs ih =>
    rw [propsAll, List.map_append, map_input?_props, ih, List.flatMap_cons, List.length_append,
      ← List.range'_append_1, List.map_append]

theorem Binding.data_propsAll (n m : Nat) (bs : List Binding) :
    (propsAll oracle n m bs).filterMap PropOp.data? =
      List.range' m (bs.flatMap (·.data oracle)).length := by
  induction bs generalizing n m with
  | nil => rfl
  | cons b bs ih =>
    rw [propsAll, List.filterMap_append, data_props, ih, List.flatMap_cons, List.length_append,
      List.range'_append_1]

theorem Head.map_input?_props (n m : Nat) (head : Head) :
    (head.props oracle n m).map PropOp.input? =
      (List.range' n (head.exprs oracle).length).map some := by
  rw [props, exprs, List.map_append, ClassPart.map_input?_props, Binding.map_input?_propsAll,
    List.length_append, ← List.range'_append_1, List.map_append]

theorem Head.inputs_props (n m : Nat) (head : Head) :
    (head.props oracle n m).filterMap PropOp.input? =
      List.range' n (head.exprs oracle).length := by
  have hsome := congrArg (List.filterMap id) (Head.map_input?_props oracle n m head)
  rwa [List.filterMap_map, List.filterMap_map, Function.id_comp, Function.id_comp,
    List.filterMap_some] at hsome

theorem Head.isEmpty_props (n m : Nat) (head : Head) :
    (head.props oracle n m).isEmpty = (head.exprs oracle).isEmpty := by
  have hlength := congrArg List.length (Head.map_input?_props oracle n m head)
  rw [List.length_map, List.length_map, List.length_range'] at hlength
  rw [Bool.eq_iff_iff, List.isEmpty_iff_length_eq_zero, List.isEmpty_iff_length_eq_zero, hlength]

theorem Head.data_props (n m : Nat) (head : Head) :
    (head.props oracle n m).filterMap PropOp.data? = List.range' m (head.data oracle).length := by
  rw [props, data, List.filterMap_append, ClassPart.data_props, Binding.data_propsAll,
    List.nil_append]

end Heads

/-! ## Numbers of content -/

/-- The expressions that a site refers to. -/
def Site.inputs (s : Site) : List Nat :=
  s.props.filterMap PropOp.input? ++ s.inserts.filterMap Insert.input?

namespace Content

variable (oracle : Oracle)

theorem inputs_insertPoint (before : Before) (pos : Nat) :
    (before.insertPoint pos).filterMap Insert.input? = [] := by
  unfold Before.insertPoint
  split <;> rfl

/-- **The sites of content and what is placed in it use up the numbers of its expressions.** -/
theorem inputs_perm (c : Content) (before : Before) (pos n m : Nat) :
    ((c.inserts oracle before pos n).filterMap Insert.input?
        ++ (c.sites oracle before pos n m).flatten.flatMap Site.inputs).Perm
      (List.range' n (c.exprs oracle).length) := by
  induction c generalizing before pos n m with
  | nil => exact .nil
  | text s next ih =>
    rw [inserts, sites, List.filterMap_append, inputs_insertPoint, List.nil_append]
    exact ih _ _ _ _
  | expr j next ih =>
    rw [inserts, sites, Insert.inputs_child, List.cons_append, exprs, List.length_cons,
      List.range'_succ]
    exact (ih _ _ _ _).cons n
  | element head inner next ihInner ihNext =>
    have hinner := ihInner .nothing (pos + 1) (n + (head.exprs oracle).length)
      (m + (head.data oracle).length)
    have hnext := ihNext .nothing (pos + inner.width oracle)
      (n + (head.exprs oracle).length + (inner.exprs oracle).length)
      (m + (head.data oracle).length + (inner.data oracle).length)
    rw [inserts, sites, Sites.flatten, List.filterMap_append, inputs_insertPoint, List.nil_append,
      List.flatMap_cons, List.flatMap_append, exprs, List.length_append, List.length_append,
      ← List.range'_append_1, ← List.range'_append_1, Site.inputs, Head.inputs_props]
    rw [Nat.add_assoc] at hnext
    -- both sides have the same pieces; what is placed after the element moves behind its sites
    refine List.Perm.trans ?_ ((hinner.append_left _).append hnext)
    simp only [List.append_assoc, Nat.add_assoc]
    refine List.perm_append_comm_assoc _ _ _ |>.trans (List.Perm.append_left _ ?_)
    refine List.perm_append_comm_assoc _ _ _ |>.trans (List.Perm.append_left _ ?_)
    exact List.perm_append_comm_assoc _ _ _

theorem data_sites (c : Content) (before : Before) (pos n m : Nat) :
    ((c.sites oracle before pos n m).flatten.flatMap fun s => s.props.filterMap PropOp.data?) =
      List.range' m (c.data oracle).length := by
  induction c generalizing before pos n m with
  | nil => rfl
  | text s next ih => exact ih _ _ _ _
  | expr j next ih => exact ih _ _ _ _
  | element head inner next ihInner ihNext =>
    rw [sites, Sites.flatten, List.flatMap_cons, List.flatMap_append, ihInner, ihNext,
      Head.data_props, data, List.length_append, List.length_append, ← List.range'_append_1,
      ← List.range'_append_1, List.append_assoc, Nat.add_assoc]

theorem length_inputs (c : Content) (before : Before) (pos n m : Nat) :
    ((c.inserts oracle before pos n).filterMap Insert.input?).length
        + ((c.sites oracle before pos n m).flatten.flatMap fun s =>
            s.inserts.filterMap Insert.input?).length =
      c.exprCount := by
  induction c generalizing before pos n m with
  | nil => rfl
  | text s next ih =>
    rw [inserts, sites, List.filterMap_append, inputs_insertPoint, List.nil_append]
    exact ih _ _ _ _
  | expr j next ih =>
    have hnext := ih before.afterExpr pos (n + 1) m
    rw [inserts, sites, Insert.inputs_child, List.length_cons, exprCount]
    omega
  | element head inner next ihInner ihNext =>
    have hinner := ihInner .nothing (pos + 1) (n + (head.exprs oracle).length)
      (m + (head.data oracle).length)
    have hnext := ihNext .nothing (pos + inner.width oracle)
      (n + (head.exprs oracle).length + (inner.exprs oracle).length)
      (m + (head.data oracle).length + (inner.data oracle).length)
    rw [inserts, sites, Sites.flatten, List.filterMap_append, inputs_insertPoint, List.nil_append,
      List.flatMap_cons, List.flatMap_append, List.length_append, List.length_append, exprCount]
    dsimp only
    omega

end Content

/-! ## Sites and the marks of the walk -/

namespace Site

/-- Is anything emitted for a site? -/
def isUpdated (s : Site) : Bool :=
  !s.props.isEmpty || !s.inserts.isEmpty

/-- An op of a site names the node that op `step` of the walk reaches: the site's own node, or
one that something is placed before. -/
def Names (s : Site) (step : Nat) : Prop :=
  .before step ∈ s.inserts ∨ s.step = some step ∧ s.isUpdated = true

end Site

namespace Content

variable (oracle : Oracle)

theorem isEmpty_inserts (before : Before) (hb : before.expr = false) (pos n : Nat) (c : Content) :
    (c.inserts oracle before pos n).isEmpty = !c.hasExpr := by
  induction c generalizing before pos n with
  | nil => rfl
  | text s next ih =>
    rw [inserts, Before.insertPoint, hb]
    exact ih _ rfl _ _
  | expr j next _ => rfl
  | element head inner next _ ihNext =>
    rw [inserts, Before.insertPoint, hb]
    exact ihNext _ rfl _ _

/-- Something is emitted for a site exactly if its node is kept for that. -/
theorem isUpdated_site (step : Option Nat) (pos n n' m : Nat) (head : Head) (inner : Content) :
    Site.isUpdated ⟨step, head.props oracle n m, inner.inserts oracle .nothing pos n'⟩ =
      isUpdated oracle head inner := by
  rw [Site.isUpdated, isUpdated, Head.isEmpty_props, isEmpty_inserts oracle .nothing rfl,
    Bool.not_not]

theorem mem_insertPoint {before : Before} (h : before.expr = true) (pos : Nat) :
    Insert.before pos ∈ before.insertPoint pos := by
  rw [Before.insertPoint, if_pos h]
  exact List.mem_cons_self ..

/-- **No node is kept for nothing**: every mark is there because an op names it. -/
theorem named_of_mark {c : Content} {before : Before} {pos n m i : Nat} {p : Place} :
    ∀ mark ∈ c.marks oracle before pos p i,
      .before mark.step ∈ c.inserts oracle before pos n
        ∨ ∃ s ∈ (c.sites oracle before pos n m).flatten, s.Names mark.step := by
  induction c generalizing before pos n m i p with
  | nil =>
    intro mark hmark
    cases hmark
  | text s next ih =>
    intro mark hmark
    rw [marks] at hmark
    rcases List.mem_append.mp hmark with hmark | hmark
    · split at hmark
      · next hb =>
        rw [List.mem_singleton.mp hmark]
        exact .inl (List.mem_append_left _ (mem_insertPoint hb pos))
      · cases hmark
    · rcases ih mark hmark with hinsert | hsite
      · exact .inl (List.mem_append_right _ hinsert)
      · exact .inr hsite
  | expr j next ih =>
    intro mark hmark
    rcases ih mark hmark with hinsert | hsite
    · exact .inl (List.mem_cons_of_mem _ hinsert)
    · exact .inr hsite
  | element head inner next ihInner ihNext =>
    intro mark hmark
    rw [marks] at hmark
    rw [inserts, sites, Sites.flatten]
    rcases List.mem_append.mp hmark with hmark | hmark
    · -- the element itself, kept for what comes before it or for its own site
      split at hmark
      · next hsaves =>
        rw [List.mem_singleton.mp hmark]
        rcases Bool.or_eq_true_iff.mp hsaves with hb | hu
        · exact .inl (List.mem_append_left _ (mem_insertPoint hb pos))
        · refine .inr ⟨_, List.mem_cons_self .., .inr ⟨rfl, ?_⟩⟩
          rw [isUpdated_site, hu]
      · cases hmark
    · rcases List.mem_append.mp hmark with hmark | hmark
      · rcases ihInner mark hmark with hinsert | ⟨s, hs, hnames⟩
        · exact .inr ⟨_, List.mem_cons_self .., .inl hinsert⟩
        · exact .inr ⟨s, List.mem_cons_of_mem _ (List.mem_append_left _ hs), hnames⟩
      · rcases ihNext mark hmark with hinsert | ⟨s, hs, hnames⟩
        · exact .inl (List.mem_append_right _ hinsert)
        · exact .inr ⟨s, List.mem_cons_of_mem _ (List.mem_append_right _ hs), hnames⟩

/-- **Sites that something is emitted for have their marks in the same order.** -/
theorem steps_sublist (c : Content) (before : Before) (pos n m : Nat) (p : Place) (i : Nat) :
    (((c.sites oracle before pos n m).flatten.filter Site.isUpdated).filterMap Site.step).Sublist
      ((c.marks oracle before pos p i).map Mark.step) := by
  induction c generalizing before pos n m p i with
  | nil => exact .slnil
  | text s next ih =>
    rw [sites, marks, List.map_append]
    exact List.sublist_append_of_sublist_right (ih _ _ _ _ _ _)
  | expr j next ih => exact ih _ _ _ _ _ _
  | element head inner next ihInner ihNext =>
    rw [sites, marks, Sites.flatten, List.map_append, List.map_append, List.filter_cons,
      isUpdated_site, List.filter_append]
    have hrest := (ihInner .nothing (pos + 1) (n + (head.exprs oracle).length)
      (m + (head.data oracle).length) (i :: p) 0).append
      (ihNext .nothing (pos + inner.width oracle)
        (n + (head.exprs oracle).length + (inner.exprs oracle).length)
        (m + (head.data oracle).length + (inner.data oracle).length) p (i + 1))
    rw [← List.filterMap_append] at hrest
    -- a mark may also be there for another reason, so this is no equality
    by_cases hu : isUpdated oracle head inner = true
    · rw [if_pos hu, hu, Bool.or_true, if_pos rfl]
      exact hrest.cons_cons pos
    · rw [if_neg hu]
      exact List.sublist_append_of_sublist_right hrest

end Content

/-! ## What the ops of one site refer to -/

namespace Site

variable (slots : Slots) (s : Site)

theorem filterMap_propOps {f : PropOp → Option Nat} (hf : ∀ slot, f (.setNode slot) = none) :
    (s.propOps slots).filterMap f = s.props.filterMap f := by
  unfold propOps
  split
  · next h => rw [List.isEmpty_iff.mp h]
  · rw [List.filterMap_append]
    cases s.slot? slots with
    | none => rfl
    | some slot =>
      rw [Option.toList_some, List.map_singleton, List.filterMap_cons_none (hf slot)]
      rfl

theorem inputs_propOps :
    (s.propOps slots).filterMap PropOp.input? = s.props.filterMap PropOp.input? :=
  filterMap_propOps slots s fun _ => rfl

theorem data_propOps :
    (s.propOps slots).filterMap PropOp.data? = s.props.filterMap PropOp.data? :=
  filterMap_propOps slots s fun _ => rfl

theorem nodes_propOps (h : s.props.filterMap PropOp.node? = []) :
    (s.propOps slots).filterMap PropOp.node? =
      if s.props.isEmpty then [] else (s.slot? slots).toList := by
  unfold propOps
  split
  · rfl
  · rw [List.filterMap_append, h, List.append_nil]
    cases s.slot? slots <;> rfl

/-- A part of the placements of a site, without the marker for its node. -/
theorem filterMap_childOps {f : ChildOp → Option Nat} (hf : ∀ slot, f (.setParent slot) = none) :
    (s.childOps slots).filterMap f =
      (s.inserts.filterMap fun i => (i.resolve? slots).bind f).reverse := by
  rw [childOps_eq]
  split
  · next h => rw [List.isEmpty_iff.mp h]; rfl
  · rw [List.filterMap_append, List.filterMap_filterMap, ← List.filterMap_reverse]
    cases s.slot? slots with
    | none => rfl
    | some slot =>
      rw [Option.toList_some, List.map_singleton, List.filterMap_cons_none (hf slot)]
      rfl

theorem parents_childOps :
    (s.childOps slots).filterMap ChildOp.parent? =
      if s.inserts.isEmpty then [] else (s.slot? slots).toList := by
  have hresolve : ∀ i : Insert, (i.resolve? slots).bind ChildOp.parent? = none := by
    intro i
    cases i with
    | child input => rfl
    | before step =>
      rw [Insert.resolve?]
      cases slots.get? step <;> rfl
  rw [childOps_eq]
  split
  · rfl
  · rw [List.filterMap_append, List.filterMap_filterMap]
    simp only [hresolve, List.filterMap_none, List.append_nil]
    cases s.slot? slots <;> rfl

theorem inputs_childOps :
    (s.childOps slots).filterMap ChildOp.input? =
      (s.inserts.filterMap Insert.input?).reverse := by
  rw [filterMap_childOps slots s fun _ => rfl]
  simp only [Insert.bind_resolve?_input?]

theorem mem_nexts_childOps {slot : Nat} :
    slot ∈ (s.childOps slots).filterMap ChildOp.next? ↔
      ∃ step, .before step ∈ s.inserts ∧ slots.get? step = some slot := by
  rw [filterMap_childOps slots s fun _ => rfl, List.mem_reverse, List.mem_filterMap]
  constructor
  · rintro ⟨i, hi, hslot⟩
    cases i with
    | child input => cases hslot
    | before step =>
      obtain ⟨op, hop, hnext⟩ := Option.bind_eq_some_iff.mp hslot
      obtain ⟨slot', hget, rfl⟩ := Option.map_eq_some_iff.mp hop
      cases hnext
      exact ⟨step, hi, hget⟩
  · rintro ⟨step, hi, hget⟩
    refine ⟨.before step, hi, ?_⟩
    rw [Insert.resolve?, hget]
    rfl

/-- The slots that the ops of a site name are those of the nodes it is about. -/
theorem named_iff (h : s.props.filterMap PropOp.node? = []) (slot : Nat) :
    (slot ∈ (s.propOps slots).filterMap PropOp.node?
        ∨ slot ∈ (s.childOps slots).filterMap ChildOp.parent?
        ∨ slot ∈ (s.childOps slots).filterMap ChildOp.next?) ↔
      ∃ step, s.Names step ∧ slots.get? step = some slot := by
  rw [nodes_propOps slots s h, parents_childOps, mem_nexts_childOps]
  constructor
  · rintro (hmem | hmem | ⟨step, hi, hget⟩)
    · split at hmem
      · cases hmem
      · next hprops =>
        obtain ⟨step, hstep, hget⟩ := Option.bind_eq_some_iff.mp (Option.mem_toList.mp hmem)
        exact ⟨step, .inr ⟨hstep, by simp [isUpdated, hprops]⟩, hget⟩
    · split at hmem
      · cases hmem
      · next hinserts =>
        obtain ⟨step, hstep, hget⟩ := Option.bind_eq_some_iff.mp (Option.mem_toList.mp hmem)
        exact ⟨step, .inr ⟨hstep, by simp [isUpdated, hinserts]⟩, hget⟩
    · exact ⟨step, .inl hi, hget⟩
  · rintro ⟨step, hi | ⟨hstep, hupdated⟩, hget⟩
    · exact .inr (.inr ⟨step, hi, hget⟩)
    · have hmem : slot ∈ (s.slot? slots).toList := by
        rw [slot?, hstep]
        exact Option.mem_toList.mpr hget
      rcases Bool.or_eq_true_iff.mp hupdated with hprops | hinserts
      · left
        rwa [if_neg (by simpa using hprops)]
      · right
        left
        rwa [if_neg (by simpa using hinserts)]

end Site

/-! ## What the streams of a template refer to -/

namespace Element

variable (oracle : Oracle) (e : Element)

theorem inputs_perm_range :
    ((e.propOps oracle).filterMap PropOp.input?
        ++ (e.childOps oracle).filterMap ChildOp.input?).Perm
      (List.range (e.exprs oracle).length) := by
  have hcontent := Content.inputs_perm oracle e.content .nothing 0 (e.head.exprs oracle).length
    (e.head.data oracle).length
  have hreverse : ((e.sites oracle).flatten.flatMap fun s =>
      (s.inserts.filterMap Insert.input?).reverse).Perm
      ((e.sites oracle).flatten.flatMap fun s => s.inserts.filterMap Insert.input?) :=
    List.Perm.flatMap_left _ fun s _ => List.reverse_perm _
  rw [propOps, childOps, List.filterMap_flatMap, List.filterMap_flatMap]
  simp only [Site.inputs_propOps, Site.inputs_childOps]
  refine (hreverse.append_left _).trans ((List.flatMap_append_perm _ _ _).trans ?_)
  rw [flatten_sites, List.flatMap_cons, List.range_eq_range', exprs, List.length_append,
    ← List.range'_append_1, Nat.zero_add, rootSite, Head.inputs_props, List.append_assoc]
  exact hcontent.append_left _

theorem data_eq_range :
    (e.propOps oracle).filterMap PropOp.data? = List.range (e.data oracle).length := by
  have hcontent := Content.data_sites oracle e.content .nothing 0 (e.head.exprs oracle).length
    (e.head.data oracle).length
  rw [propOps, List.filterMap_flatMap]
  simp only [Site.data_propOps]
  rw [flatten_sites, List.flatMap_cons, innerSites, hcontent, List.range_eq_range', data,
    List.length_append, ← List.range'_append_1, Nat.zero_add, rootSite, Head.data_props]

theorem length_inputs_childOps :
    ((e.childOps oracle).filterMap ChildOp.input?).length = e.content.exprCount := by
  have hcontent := Content.length_inputs oracle e.content .nothing 0 (e.head.exprs oracle).length
    (e.head.data oracle).length
  rw [childOps, List.filterMap_flatMap]
  simp only [Site.inputs_childOps]
  rw [flatten_sites, List.flatMap_cons, List.length_append, List.length_reverse, ← hcontent]
  refine congrArg (_ + ·) ?_
  simp only [List.length_flatMap, List.length_reverse]
  rfl

/-- Only the emitter makes markers. -/
theorem nodes_props : ∀ s ∈ (e.sites oracle).flatten, s.props.filterMap PropOp.node? = [] := by
  have hacts : ∀ {ops : List PropOp} {updates : List Update},
      Group.Acts (PropOp.meaning (e.tables oracle)) ops updates →
        ops.filterMap PropOp.node? = [] := by
    intro ops updates h
    rw [List.filterMap_eq_nil_iff]
    refine forall_mem_of_forall₂ h ?_
    intro op update hmeaning
    cases op with
    | setNode slot =>
      -- a marker goes to a node and is no act
      obtain ⟨q, _, hq⟩ := Option.map_eq_some_iff.mp hmeaning
      cases hq
    | _ => rfl
  rw [flatten_sites, List.forall_mem_cons]
  constructor
  · exact hacts (acts_head_props oracle e)
  · intro s hs
    obtain ⟨l, hmeets⟩ := exists_meets oracle e s hs
    exact hacts hmeets.updates

theorem pairwise_step : (e.sites oracle).flatten.Pairwise fun s s' =>
    s.isUpdated = true → s'.isUpdated = true →
      ∀ i j, s.step = some i → s'.step = some j → i < j := by
  -- the steps of all marks increase, since they are found by going through the walk once
  have hsorted : ((e.content.marks oracle .nothing 0 [] 0).map Mark.step).Pairwise (· < ·) := by
    rw [← Content.findIdxs_walk]
    exact List.pairwise_findIdxs
  have hinner := hsorted.sublist (Content.steps_sublist oracle e.content .nothing 0
    (e.head.exprs oracle).length (e.head.data oracle).length [] 0)
  rw [List.pairwise_filterMap, List.pairwise_filter] at hinner
  rw [flatten_sites, List.pairwise_cons]
  constructor
  · -- the root is reached by no step
    intro s _ _ _ i j hi
    cases hi
  · refine hinner.imp ?_
    intro s s' h hs hs' i j hi hj
    exact h hs hs' i hi j hj

/-- Markers come in the order of the walk, whichever sites they are emitted for. -/
theorem pairwise_slots {markers : Site → List Nat}
    (h : ∀ s ∈ (e.sites oracle).flatten,
      markers s = [] ∨ s.isUpdated = true ∧ markers s = (s.slot? (e.slots oracle)).toList) :
    ((e.sites oracle).flatten.flatMap markers).Pairwise (· < ·) := by
  rw [List.pairwise_flatMap]
  constructor
  · intro s hs
    rcases h s hs with hnil | ⟨_, hslot⟩
    · rw [hnil]
      exact .nil
    · rw [hslot]
      cases s.slot? (e.slots oracle) with
      | none => exact .nil
      | some slot => exact List.pairwise_singleton ..
  · refine (pairwise_step oracle e).imp_of_mem ?_
    intro s s' hs hs' hsteps slot hslot slot' hslot'
    rcases h s hs with hnil | ⟨hu, heq⟩
    · rw [hnil] at hslot
      cases hslot
    rcases h s' hs' with hnil | ⟨hu', heq'⟩
    · rw [hnil] at hslot'
      cases hslot'
    rw [heq] at hslot
    rw [heq'] at hslot'
    obtain ⟨i, hi, hget⟩ := Option.bind_eq_some_iff.mp (Option.mem_toList.mp hslot)
    obtain ⟨j, hj, hget'⟩ := Option.bind_eq_some_iff.mp (Option.mem_toList.mp hslot')
    exact Slots.get?_lt_get? (hsteps hu hu' i j hi hj) hget hget'

theorem pairwise_nodes : ((e.propOps oracle).filterMap PropOp.node?).Pairwise (· < ·) := by
  rw [propOps, List.filterMap_flatMap]
  refine pairwise_slots oracle e fun s hs => ?_
  rw [Site.nodes_propOps _ s (nodes_props oracle e s hs)]
  split
  · exact .inl rfl
  · next h => exact .inr ⟨by simp [Site.isUpdated, h], rfl⟩

theorem pairwise_parents : ((e.childOps oracle).filterMap ChildOp.parent?).Pairwise (· < ·) := by
  rw [childOps, List.filterMap_flatMap]
  refine pairwise_slots oracle e fun s hs => ?_
  rw [Site.parents_childOps]
  split
  · exact .inl rfl
  · next h => exact .inr ⟨by simp [Site.isUpdated, h], rfl⟩

theorem exists_names_of_step {step : Nat} (h : step ∈ Slots.steps (e.content.walk oracle)) :
    ∃ s ∈ (e.sites oracle).flatten, s.Names step := by
  rw [Content.findIdxs_walk] at h
  obtain ⟨mark, hmark, rfl⟩ := List.mem_map.mp h
  rw [flatten_sites]
  rcases Content.named_of_mark oracle mark hmark with hinsert | ⟨s, hs, hnames⟩
  · exact ⟨_, List.mem_cons_self .., .inl hinsert⟩
  · exact ⟨s, List.mem_cons_of_mem _ hs, hnames⟩

/-- **The slots that ops name are those that the walk gives out.** -/
theorem named_iff {slot : Nat} :
    (slot ∈ (e.propOps oracle).filterMap PropOp.node?
        ∨ slot ∈ (e.childOps oracle).filterMap ChildOp.parent?
        ∨ slot ∈ (e.childOps oracle).filterMap ChildOp.next?) ↔
      1 ≤ slot ∧ slot < (e.slots oracle).size := by
  rw [propOps, childOps, List.filterMap_flatMap, List.filterMap_flatMap, List.filterMap_flatMap,
    List.mem_flatMap, List.mem_flatMap, List.mem_flatMap]
  have hsite := fun s hs => Site.named_iff (e.slots oracle) s (nodes_props oracle e s hs) slot
  constructor
  · intro h
    have hnamed : ∃ step, (e.slots oracle).get? step = some slot := by
      rcases h with ⟨s, hs, hmem⟩ | ⟨s, hs, hmem⟩ | ⟨s, hs, hmem⟩
      · obtain ⟨step, _, hget⟩ := (hsite s hs).mp (.inl hmem)
        exact ⟨step, hget⟩
      · obtain ⟨step, _, hget⟩ := (hsite s hs).mp (.inr (.inl hmem))
        exact ⟨step, hget⟩
      · obtain ⟨step, _, hget⟩ := (hsite s hs).mp (.inr (.inr hmem))
        exact ⟨step, hget⟩
    exact (Slots.exists_get?_iff _ _).mpr hnamed
  · rintro ⟨hpos, hlt⟩
    -- a slot that is given out has its op in the walk, and some site names that op
    obtain ⟨k, rfl⟩ := Nat.exists_eq_add_of_le' hpos
    rw [slots, Slots.size_ofWalk] at hlt
    have hk : (Slots.steps (e.content.walk oracle))[k]? = some _ :=
      List.getElem?_eq_getElem (by omega)
    obtain ⟨s, hs, hnames⟩ := exists_names_of_step oracle e (List.mem_of_getElem? hk)
    rcases (hsite s hs).mpr ⟨_, hnames, Slots.get?_of_steps hk⟩ with hmem | hmem | hmem
    · exact .inl ⟨s, hs, hmem⟩
    · exact .inr (.inl ⟨s, hs, hmem⟩)
    · exact .inr (.inr ⟨s, hs, hmem⟩)

end Element

/--
References and their targets fit. An expression is used by one op and no other number is
used; the stored names are used in order; the slots that ops name are those that the state
ops give out, never the root's slot 0; and markers come in the order of the slots.
-/
structure Artifact.RefersExactly (a : Artifact) : Prop where
  inputs : (a.propOps.filterMap PropOp.input? ++ a.childOps.filterMap ChildOp.input?).Perm
    (List.range a.exprs.length)
  data : a.propOps.filterMap PropOp.data? = List.range a.data.length
  slots : a.flags.slots = 1 + a.stateOps.countP StateOp.assignsSlot
  named : ∀ slot, (slot ∈ a.propOps.filterMap PropOp.node?
      ∨ slot ∈ a.childOps.filterMap ChildOp.parent?
      ∨ slot ∈ a.childOps.filterMap ChildOp.next?) ↔
    1 ≤ slot ∧ slot < a.flags.slots
  nodes : (a.propOps.filterMap PropOp.node?).Pairwise (· < ·)
  parents : (a.childOps.filterMap ChildOp.parent?).Pairwise (· < ·)
  children : a.flags.children = (a.childOps.filterMap ChildOp.input?).length

/-- **Every reference of a compiled template has its target, and every target a reference.** -/
theorem compile_refersExactly {oracle : Oracle} {svg : Bool} {fragments : List String}
    {a : Artifact} (h : (compile oracle svg fragments).result = .ok a) : a.RefersExactly := by
  obtain ⟨_, t, r, _, rfl, _⟩ := compile_eq_ok h
  exact {
    inputs := Element.inputs_perm_range oracle t.root
    data := Element.data_eq_range oracle t.root
    slots := rfl
    named := fun _ => Element.named_iff oracle t.root
    nodes := Element.pairwise_nodes oracle t.root
    parents := Element.pairwise_parents oracle t.root
    children := (Element.length_inputs_childOps oracle t.root).symm
  }

/-- A class and a binding of the root, a hoisted attribute, and elements inside each other. -/
theorem compile_refersExactly_nested :
    ∃ a, (compile (· == 1) false ["ul", " :a=", " 'x' ", "\n  li 'y' ", " 'z'\n    i @c=", " ~d=",
        "\n      b ", ""]).result = .ok a
      ∧ a.propOps = [.common .className 0, .setNode 3, .named .event 3 0, .named .style 4 1]
      ∧ a.childOps = [.setNext 1, .child 1, .setParent 1, .setNext 2, .child 2, .setParent 4,
        .child 5]
      ∧ a.RefersExactly := by
  generalize hf : ["ul", " :a=", " 'x' ", "\n  li 'y' ", " 'z'\n    i @c=", " ~d=", "\n      b ",
    ""] = fragments
  have hops : (compile (· == 1) false fragments).result.toOption.map
      (fun a => (a.propOps, a.childOps)) =
      some ([.common .className 0, .setNode 3, .named .event 3 0, .named .style 4 1],
        [.setNext 1, .child 1, .setParent 1, .setNext 2, .child 2, .setParent 4, .child 5]) := by
    rw [← hf]
    decide +kernel
  obtain ⟨a, hresult, hops⟩ := exists_of_toOption_map hops
  obtain ⟨hprops, hchildren⟩ := Prod.mk.inj hops
  exact ⟨a, hresult, hprops, hchildren, compile_refersExactly hresult⟩

end Stencil
