import Mathlib.Data.List.Chain
import Mathlib.Data.List.Perm.Subperm
import Mathlib.Logic.Relation
import Stencil.Proofs.Emission

/-!
# Emission goes through records in pre-order

Records refer to the records inside them by number, and a record may be inside several others. To
emit what is under a root, records are unfolded into a forest, down to as many levels as there are
records. Two things have to be seen.

The limit cuts nothing off as long as no record is inside itself. The records on a way down are
then all different, and there are no more than their number.

What is emitted is what a walk over the records in depth-first pre-order would write: each record
first and then what is inside it in the order of its list, every time it is come upon. `Visits`
is this walk. Emission stops exactly if the walk comes to a record that places something before a
node without a slot.
-/

namespace Stencil

/-! ## Slots by position -/

namespace Slots

/-- The numbers that a table gives to the ops of a walk. -/
structure Numbers (slots : Slots) (walk : List StateOp) : Prop where
  /-- The slot of an op counts the ops before it that give one. -/
  get : ∀ i, slots.get? i =
    if (walk[i]?).any StateOp.assignsSlot then
      some (1 + (walk.take i).countP StateOp.assignsSlot)
    else none
  size : slots.size = 1 + walk.countP StateOp.assignsSlot
  increasing : ∀ {i j s t}, i < j → slots.get? i = some s → slots.get? j = some t → s < t
  /-- The numbers from 1 on are given out, each to one op. -/
  bijective : ∀ slot, 1 ≤ slot ∧ slot < slots.size ↔ ∃! i, slots.get? i = some slot

theorem numbers_ofWalk (walk : List StateOp) : (ofWalk walk).Numbers walk where
  get := get?_ofWalk walk
  size := rfl
  increasing := get?_lt_get?
  bijective := by
    intro slot
    rw [exists_get?_iff]
    constructor
    · rintro ⟨i, hi⟩
      exact ⟨i, hi, fun j hj => get?_inj hj hi⟩
    · rintro ⟨i, hi, _⟩
      exact ⟨i, hi⟩

end Slots

/-! ## What stops emission -/

theorem Emission.fault_andThen (a b : Emission) : (a.andThen b).fault = a.fault.or b.fault := by
  unfold andThen
  cases h : a.fault with
  | none => rfl
  | some fault => exact h

theorem Insert.fault_resolveAll (slots : Slots) (is : List Insert) :
    (resolveAll slots is).fault = none ∧ (∀ i ∈ is, (i.resolve? slots).isSome)
      ∨ (resolveAll slots is).fault = some .unresolvedAnchor
        ∧ ∃ i ∈ is, i.resolve? slots = none := by
  induction is with
  | nil => exact .inl ⟨rfl, fun i hi => by cases hi⟩
  | cons i is ih =>
    rw [resolveAll]
    cases hi : i.resolve? slots with
    | none => exact .inr ⟨rfl, i, List.mem_cons_self .., hi⟩
    | some op =>
      dsimp only
      rw [Emission.fault_andThen, Option.none_or]
      rcases ih with ⟨hfault, hall⟩ | ⟨hfault, j, hj, hnone⟩
      · refine .inl ⟨hfault, List.forall_mem_cons.mpr ⟨?_, hall⟩⟩
        rw [hi]
        rfl
      · exact .inr ⟨hfault, j, List.mem_cons_of_mem _ hj, hnone⟩

/-- A placement in the site goes before a node that no slot holds. -/
def Site.Dangles (slots : Slots) (s : Site) : Prop :=
  ∃ step, Insert.before step ∈ s.inserts ∧ slots.get? step = none

theorem Insert.resolve?_eq_none {slots : Slots} {i : Insert} :
    i.resolve? slots = none ↔ ∃ step, i = .before step ∧ slots.get? step = none := by
  cases i with
  | child input => simp [resolve?]
  | before step => simp [resolve?]

theorem Site.dangles_iff {slots : Slots} {s : Site} :
    s.Dangles slots ↔ ∃ i ∈ s.inserts, i.resolve? slots = none := by
  constructor
  · rintro ⟨step, hmem, hnone⟩
    exact ⟨_, hmem, Insert.resolve?_eq_none.mpr ⟨step, rfl, hnone⟩⟩
  · rintro ⟨i, hmem, hnone⟩
    obtain ⟨step, rfl, hstep⟩ := Insert.resolve?_eq_none.mp hnone
    exact ⟨step, hmem, hstep⟩

theorem Sites.fault_emitSite (slots : Slots) (s : Site) :
    (emitSite slots s.step s.props s.inserts).fault = none ∧ s.Resolved slots
      ∨ (emitSite slots s.step s.props s.inserts).fault = some .unresolvedAnchor
        ∧ s.Dangles slots := by
  unfold emitSite
  dsimp only
  rw [Emission.fault_andThen, Option.none_or]
  rcases Insert.fault_resolveAll slots s.inserts.reverse with
    ⟨hfault, hall⟩ | ⟨hfault, i, hi, hnone⟩
  · exact .inl ⟨hfault, fun i hi => hall i (List.mem_reverse.mpr hi)⟩
  · exact .inr ⟨hfault, Site.dangles_iff.mpr ⟨i, List.mem_reverse.mp hi, hnone⟩⟩

/-- Nothing stops emission, or some site does. -/
theorem Sites.fault_emit (slots : Slots) (sites : Sites) :
    (sites.emit slots).fault = none ∧ (∀ s ∈ sites.flatten, s.Resolved slots)
      ∨ (sites.emit slots).fault = some .unresolvedAnchor
        ∧ ∃ s ∈ sites.flatten, s.Dangles slots := by
  induction sites with
  | nil => exact .inl ⟨rfl, fun s hs => by cases hs⟩
  | site step props inserts inner next ihInner ihNext =>
    rw [emit, Emission.fault_andThen, Emission.fault_andThen, flatten]
    rcases fault_emitSite slots ⟨step, props, inserts⟩ with ⟨hfault, hs⟩ | ⟨hfault, hs⟩
    · rw [hfault, Option.none_or]
      rcases ihInner with ⟨hinner, hallInner⟩ | ⟨hinner, s, hmem, hdangles⟩
      · rw [hinner, Option.none_or]
        rcases ihNext with ⟨hnext, hallNext⟩ | ⟨hnext, s, hmem, hdangles⟩
        · refine .inl ⟨hnext, List.forall_mem_cons.mpr ⟨hs, ?_⟩⟩
          exact List.forall_mem_append.mpr ⟨hallInner, hallNext⟩
        · exact .inr ⟨hnext, s, List.mem_cons_of_mem _ (List.mem_append_right _ hmem), hdangles⟩
      · rw [hinner]
        exact .inr ⟨rfl, s, List.mem_cons_of_mem _ (List.mem_append_left _ hmem), hdangles⟩
    · rw [hfault]
      exact .inr ⟨rfl, _, List.mem_cons_self .., hs⟩

/-! ## Records that refer to each other -/

namespace SiteRecord

/-- A record without what is inside it. -/
def site (r : SiteRecord) : Site :=
  ⟨r.step, r.props, r.inserts⟩

/-- The record numbered `outer` lists `inner` among what is inside it. -/
def Inside (records : Array SiteRecord) (inner outer : Nat) : Prop :=
  ∃ r, records[outer]? = some r ∧ inner ∈ r.inner

/-- Every reference leads to a record, and no record is inside itself at any depth. -/
structure Acyclic (records : Array SiteRecord) : Prop where
  inRange : ∀ {inner outer}, Inside records inner outer → inner < records.size
  irrefl : ∀ id, ¬Relation.TransGen (Inside records) id id

/--
Going through the records numbered `ids` in depth-first pre-order, one comes upon `visited`: each
record first, then what is inside it, then the records after it.
-/
inductive Visits (records : Array SiteRecord) : List Nat → List SiteRecord → Prop where
  | nil : Visits records [] []
  | cons {id : Nat} {r : SiteRecord} {ids : List Nat} {inside after : List SiteRecord}
      (hid : records[id]? = some r) (hinner : Visits records r.inner inside)
      (hnext : Visits records ids after) : Visits records (id :: ids) (r :: (inside ++ after))

variable {records : Array SiteRecord}

theorem Visits.unique {ids : List Nat} {visited other : List SiteRecord}
    (h : Visits records ids visited) (ho : Visits records ids other) : other = visited := by
  induction h generalizing other with
  | nil =>
    cases ho
    rfl
  | cons hid _ _ ihInner ihNext =>
    cases ho with
    | cons hid' hinner' hnext' =>
      obtain rfl := Option.some.inj (hid.symm.trans hid')
      rw [ihInner hinner', ihNext hnext']

/-- The walk comes upon exactly the records that are reached from where it starts. -/
theorem Visits.mem_iff {ids : List Nat} {visited : List SiteRecord}
    (h : Visits records ids visited) (r : SiteRecord) :
    r ∈ visited ↔ ∃ start ∈ ids, ∃ id, Relation.ReflTransGen (Inside records) id start
      ∧ records[id]? = some r := by
  induction h with
  | nil => simp
  | @cons first outer ids inside after hfirst _ _ ihInner ihNext =>
    rw [List.mem_cons, List.mem_append, ihInner, ihNext]
    constructor
    · rintro (rfl | ⟨start, hstart, id, hreach, hid⟩ | ⟨start, hstart, id, hreach, hid⟩)
      · exact ⟨first, List.mem_cons_self .., first, .refl, hfirst⟩
      · exact ⟨first, List.mem_cons_self .., id, hreach.tail ⟨outer, hfirst, hstart⟩, hid⟩
      · exact ⟨start, List.mem_cons_of_mem _ hstart, id, hreach, hid⟩
    · rintro ⟨start, hstart, id, hreach, hid⟩
      rcases List.mem_cons.mp hstart with rfl | hstart
      · -- the last step of the way up leads to `start` itself, from one of those inside it
        rcases Relation.ReflTransGen.cases_tail hreach with
          heq | ⟨inner, hreach, outer', houter, hinner⟩
        · rw [← heq, hfirst] at hid
          exact .inl (Option.some.inj hid).symm
        · obtain rfl := Option.some.inj (hfirst.symm.trans houter)
          exact .inr (.inl ⟨inner, hinner, id, hreach, hid⟩)
      · exact .inr (.inr ⟨start, hstart, id, hreach, hid⟩)

/-- Where every record is numbered after those inside it, none is inside itself. -/
theorem Acyclic.of_lt (h : ∀ {inner outer}, Inside records inner outer → inner < outer) :
    Acyclic records where
  inRange := by
    rintro inner outer hinside
    have hlt := h hinside
    obtain ⟨r, hr, _⟩ := hinside
    obtain ⟨hsize, _⟩ := Array.getElem?_eq_some_iff.mp hr
    exact hlt.trans hsize
  irrefl := by
    intro id hcycle
    have hlt : ∀ {a b}, Relation.TransGen (Inside records) a b → a < b := by
      intro a b hab
      induction hab with
      | single hstep => exact h hstep
      | tail _ hstep ih => exact ih.trans (h hstep)
    exact Nat.lt_irrefl id (hlt hcycle)

/-! ## The limit on the depth -/

/-- On a way down, every record is another one. -/
theorem Acyclic.nodup (h : Acyclic records) {path : List Nat}
    (hpath : path.IsChain (Inside records)) : path.Nodup := by
  have hreach : path.Pairwise (Relation.TransGen (Inside records)) :=
    (hpath.imp fun _ _ => Relation.TransGen.single).pairwise
  refine hreach.imp ?_
  rintro a b hab rfl
  exact h.irrefl a hab

/-- A way down has no more records than there are. -/
theorem Acyclic.length_le (h : Acyclic records) {path : List Nat}
    (hpath : path.IsChain (Inside records)) (hlt : ∀ id ∈ path, id < records.size) :
    path.length ≤ records.size := by
  have hsubset : path ⊆ List.range records.size := fun id hid => List.mem_range.mpr (hlt id hid)
  have hle := (List.subperm_of_subset (h.nodup hpath) hsubset).length_le
  rwa [List.length_range] at hle

/--
Below `path`, as many levels are left as there are records that are not on it, and they are
enough for all that is there.
-/
theorem Acyclic.exists_visits (h : Acyclic records) (depth : Nat) (path ids : List Nat)
    (hdepth : path.length + depth = records.size)
    (hpath : ∀ id ∈ ids, (id :: path).IsChain (Inside records))
    (hlt : ∀ id ∈ ids, ∀ i ∈ id :: path, i < records.size) :
    ∃ visited, Visits records ids visited
      ∧ (Sites.unfold records depth ids).flatten = visited.map site := by
  -- the depth for what is inside a record, and at the same depth the records side by side
  induction depth generalizing path ids with
  | zero =>
    cases ids with
    | nil => exact ⟨[], .nil, rfl⟩
    | cons id ids =>
      -- one more record on the way down would be one too many
      have hle := h.length_le (hpath id (List.mem_cons_self ..)) (hlt id (List.mem_cons_self ..))
      rw [List.length_cons] at hle
      omega
  | succ depth ih =>
    induction ids with
    | nil => exact ⟨[], .nil, rfl⟩
    | cons id ids ihIds =>
      obtain ⟨hpathId, hpathIds⟩ := List.forall_mem_cons.mp hpath
      obtain ⟨hltId, hltIds⟩ := List.forall_mem_cons.mp hlt
      obtain ⟨r, hid⟩ : ∃ r, records[id]? = some r :=
        ⟨_, Array.getElem?_eq_getElem (hltId id (List.mem_cons_self ..))⟩
      have hinside : ∀ inner ∈ r.inner, Inside records inner id :=
        fun inner hinner => ⟨r, hid, hinner⟩
      obtain ⟨inside, hinner, hflatInner⟩ := ih (id :: path) r.inner
        (by rw [List.length_cons]; omega)
        (fun inner hinner => List.isChain_cons_cons.mpr ⟨hinside inner hinner, hpathId⟩)
        (fun inner hinner => List.forall_mem_cons.mpr ⟨h.inRange (hinside inner hinner), hltId⟩)
      obtain ⟨after, hnext, hflatNext⟩ := ihIds hpathIds hltIds
      refine ⟨_, .cons hid hinner hnext, ?_⟩
      rw [Sites.unfold] at hflatNext ⊢
      rw [List.foldr_cons, hid]
      dsimp only
      rw [Sites.flatten, hflatInner, hflatNext, List.map_cons, List.map_append]
      rfl

/-- Unfolding what is under a root gives the records in pre-order. -/
theorem Acyclic.exists_flatten (h : Acyclic records) {root : Nat} (hroot : root < records.size) :
    ∃ visited, Visits records [root] visited
      ∧ (Sites.ofRecords records root).flatten = visited.map site := by
  refine h.exists_visits records.size [] [root] (Nat.zero_add _) ?_ ?_
  · rintro id -
    exact List.isChain_singleton id
  · intro id hid i hi
    rw [List.mem_singleton.mp hid, List.mem_singleton] at hi
    rwa [hi]

/--
What is emitted for the records under `root`, if one comes upon `visited` in going through them.
-/
structure Emits (records : Array SiteRecord) (root : Nat) (slots : Slots)
    (visited : List SiteRecord) (emission : Emission) : Prop where
  visits : Visits records [root] visited
  reached : ∀ r, r ∈ visited ↔
    ∃ id, Relation.ReflTransGen (Inside records) id root ∧ records[id]? = some r
  code : ∀ fault, emission.fault = some fault → fault.code = "E-INTERNAL"
  /-- Emission fails exactly at a record that places something before a node without a slot. -/
  fails : emission.fault ≠ none ↔
    ∃ id r, Relation.ReflTransGen (Inside records) id root ∧ records[id]? = some r
      ∧ ∃ step, Insert.before step ∈ r.inserts ∧ slots.get? step = none
  props : emission.fault = none → emission.props = visited.flatMap (·.site.propOps slots)
  children : emission.fault = none → emission.children = visited.flatMap (·.site.childOps slots)

/--
**Emission is pre-order flattening.** The ops of a walk that give out slots are numbered from 1 in
order, and what is emitted for the records under a root, none of which is inside itself, is the
concatenation over the records in depth-first pre-order of what the single records give.
-/
theorem emits_preorder (h : Acyclic records) {root : Nat} (hroot : root < records.size)
    (walk : List StateOp) :
    (Slots.ofWalk walk).Numbers walk
      ∧ ∃! visited, Emits records root (Slots.ofWalk walk) visited
        ((Sites.ofRecords records root).emit (Slots.ofWalk walk)) := by
  refine ⟨Slots.numbers_ofWalk walk, ?_⟩
  obtain ⟨visited, hvisits, hflat⟩ := h.exists_flatten hroot
  have hmem : ∀ r, r ∈ visited ↔
      ∃ id, Relation.ReflTransGen (Inside records) id root ∧ records[id]? = some r := by
    intro r
    rw [hvisits.mem_iff]
    simp only [List.mem_singleton, exists_eq_left]
  refine ⟨visited, ?_, fun other hother => hvisits.unique hother.visits⟩
  -- from here on any table of slots will do
  generalize Slots.ofWalk walk = slots
  have hcases := Sites.fault_emit slots (Sites.ofRecords records root)
  rw [hflat] at hcases
  rcases hcases with ⟨hnone, hall⟩ | ⟨hsome, s, hs, hdangles⟩
  · rw [← hflat] at hall
    have hemit := Sites.emit_of_resolved hall
    rw [hflat] at hall hemit
    rw [List.flatMap_map, List.flatMap_map] at hemit
    refine ⟨hvisits, hmem, ?_, ?_, fun _ => by rw [hemit], fun _ => by rw [hemit]⟩
    · intro fault hfault
      rw [hnone] at hfault
      cases hfault
    · refine iff_of_false (fun hne => hne hnone) ?_
      rintro ⟨id, r, hreach, hid, step, hstep, hget⟩
      have hr : r.site ∈ visited.map site := List.mem_map_of_mem ((hmem r).mpr ⟨id, hreach, hid⟩)
      have hresolved := hall _ hr _ hstep
      rw [Insert.resolve?_eq_none.mpr ⟨step, rfl, hget⟩] at hresolved
      cases hresolved
  · have hfails : ((Sites.ofRecords records root).emit slots).fault ≠ none := by
      rw [hsome]
      exact Option.some_ne_none _
    refine ⟨hvisits, hmem, ?_, ?_, fun hnone => absurd hnone hfails,
      fun hnone => absurd hnone hfails⟩
    · intro fault hfault
      rw [← Option.some.inj (hsome.symm.trans hfault)]
      rfl
    · refine iff_of_true hfails ?_
      obtain ⟨r, hr, rfl⟩ := List.mem_map.mp hs
      obtain ⟨id, hreach, hid⟩ := (hmem r).mp hr
      exact ⟨id, r, hreach, hid, hdangles⟩

/-- A root with one record inside it twice, and once more inside another. -/
def shared : Array SiteRecord := #[
  ⟨some 0, [.named .event 0 0], [.child 1, .before 1], []⟩,
  ⟨some 1, [], [.child 4], [0]⟩,
  ⟨none, [.named .attr 2 1], [.child 3], [0, 1, 0]⟩]

theorem acyclic_shared : Acyclic shared := by
  refine .of_lt ?_
  rintro inner outer ⟨r, hr, hinner⟩
  rcases outer with _ | _ | _ | outer
  · cases hr
    cases hinner
  · cases hr
    revert inner
    decide
  · cases hr
    revert inner
    decide
  · cases hr

/-- The record that is inside three times is emitted three times; without a second slot in the
walk, it cannot be emitted at all. -/
theorem emits_preorder_shared :
    (∃ visited, Visits shared [2] visited
      ∧ visited.map (·.step) = [none, some 0, some 1, some 0, some 0]
      ∧ ((Sites.ofRecords shared 2).emit (Slots.ofWalk [.next true, .next true])).props
        = visited.flatMap (·.site.propOps (Slots.ofWalk [.next true, .next true]))
      ∧ ((Sites.ofRecords shared 2).emit (Slots.ofWalk [.next true, .next true])).children
        = [.child 3, .setParent 1, .setNext 2, .child 1, .setParent 2, .child 4,
          .setParent 1, .setNext 2, .child 1, .setParent 1, .setNext 2, .child 1])
      ∧ ((Sites.ofRecords shared 2).emit (Slots.ofWalk [.next true, .next false])).fault
        ≠ none := by
  obtain ⟨_, visited, hemits, _⟩ :=
    emits_preorder acyclic_shared (by decide : 2 < shared.size) [.next true, .next true]
  obtain ⟨_, _, hfailing, _⟩ :=
    emits_preorder acyclic_shared (by decide : 2 < shared.size) [.next true, .next false]
  have hleaf : Visits shared [0] (shared[0] :: ([] ++ [])) := .cons rfl .nil .nil
  have hlast : Visits shared [1, 0] (shared[1] :: ([shared[0]] ++ [shared[0]])) :=
    .cons rfl hleaf hleaf
  have hinner : Visits shared [0, 1, 0] (shared[0] :: ([] ++ [shared[1], shared[0], shared[0]])) :=
    .cons rfl .nil hlast
  have hvisits : Visits shared [2]
      (shared[2] :: ([shared[0], shared[1], shared[0], shared[0]] ++ [])) := .cons rfl hinner .nil
  obtain rfl := hvisits.unique hemits.visits
  refine ⟨⟨_, hvisits, rfl, hemits.props (by decide), ?_⟩, ?_⟩
  · rw [hemits.children (by decide)]
    decide
  · exact hfailing.fails.mpr ⟨0, shared[0], .single ⟨shared[2], rfl, by decide⟩, rfl, 1, by decide,
      by decide⟩

end SiteRecord
end Stencil
