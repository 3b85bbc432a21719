import Mathlib.Data.List.Basic
import Stencil.Emission

/-!
# What emission gives

The emitter goes through a forest of sites with two streams that grow, and stops at
the first placement that no slot holds. Read in the order of the opening tags, a
forest is a list of sites. If every placement in it can be resolved, nothing stops
the emitter, and each stream is the concatenation of what the single sites give.

The second part is about slot numbers. The ops that give out a slot, listed by where
they stand in the walk, are numbered from 1 in that order and no other op has a
number. This is the one fact about `Slots` that later proofs use.
-/

namespace Stencil

/-- What a placement says: a value goes here, or before the node in this slot. -/
def Insert.op? (slots : Slots) : Insert → Option ChildOp
  | child input => some (.child input)
  | before step =>
    match slots.get? step with
    | some slot => some (.setNext slot)
    | none => none

/-- One site, apart from the sites in it and after it. -/
structure Site where
  step : Option Nat
  props : List PropOp
  inserts : List Insert
  deriving DecidableEq, Repr

theorem Insert.resolve?_eq (slots : Slots) (i : Insert) : i.resolve? slots = i.op? slots := by
  cases i with
  | child input => rfl
  | before step =>
    rw [resolve?, op?]
    cases slots.get? step <;> rfl

namespace Site

/-- The slot of the node that a site is about. The root has none. -/
def slot? (slots : Slots) (s : Site) : Option Nat :=
  s.step.bind slots.get?

/-- The updates of a site, with the marker for its node. -/
def propOps (slots : Slots) (s : Site) : List PropOp :=
  if s.props.isEmpty then [] else (s.slot? slots).toList.map .setNode ++ s.props

/-- The placements of a site from the last to the first, with the marker for its node. -/
def childOps (slots : Slots) (s : Site) : List ChildOp :=
  if s.inserts.isEmpty then []
  else (s.slot? slots).toList.map .setParent ++ s.inserts.reverse.filterMap (·.op? slots)

/-- Every node that something is placed before has a slot. -/
def Resolved (slots : Slots) (s : Site) : Prop :=
  ∀ i ∈ s.inserts, (i.resolve? slots).isSome

/-- The emitter writes placements as they are to be written. -/
theorem childOps_eq (slots : Slots) (s : Site) :
    s.childOps slots =
      if s.inserts.isEmpty then []
      else
        (s.slot? slots).toList.map .setParent
          ++ s.inserts.reverse.filterMap (·.resolve? slots) := by
  simp only [Insert.resolve?_eq]
  rfl

end Site

/-- The sites of a forest in the order of their opening tags. -/
def Sites.flatten : Sites → List Site
  | nil => []
  | site step props inserts inner next =>
    ⟨step, props, inserts⟩ :: (inner.flatten ++ next.flatten)

/-! ## A forest is emitted site by site -/

theorem Emission.andThen_of_fault_none {a : Emission} (b : Emission) (h : a.fault = none) :
    a.andThen b = ⟨a.props ++ b.props, a.children ++ b.children, b.fault⟩ := by
  unfold andThen
  rw [h]

theorem Insert.resolveAll_of_resolved {slots : Slots} {is : List Insert}
    (h : ∀ i ∈ is, (i.resolve? slots).isSome) :
    resolveAll slots is = ⟨[], is.filterMap (·.resolve? slots), none⟩ := by
  induction is with
  | nil => rfl
  | cons i is ih =>
    obtain ⟨op, hop⟩ := Option.isSome_iff_exists.mp (h i (List.mem_cons_self ..))
    have hrest := ih (fun j hj => h j (List.mem_cons_of_mem _ hj))
    rw [resolveAll, hop]
    dsimp only
    rw [hrest, Emission.andThen_of_fault_none _ rfl, List.filterMap_cons_some hop]
    rfl

theorem Sites.emitSite_of_resolved {slots : Slots} {s : Site} (h : s.Resolved slots) :
    emitSite slots s.step s.props s.inserts = ⟨s.propOps slots, s.childOps slots, none⟩ := by
  have hrev : ∀ i ∈ s.inserts.reverse, (i.resolve? slots).isSome :=
    fun i hi => h i (List.mem_reverse.mp hi)
  unfold emitSite
  dsimp only
  rw [Insert.resolveAll_of_resolved hrev, Emission.andThen_of_fault_none _ rfl, Site.childOps_eq]
  unfold Site.propOps Site.slot?
  by_cases hi : s.inserts = []
  · simp [hi]
  · simp [hi]

/-- **Nothing stops the emitter if every placement can be resolved**, and each stream is
the concatenation over the sites in the order of their opening tags. -/
theorem Sites.emit_of_resolved {slots : Slots} :
    ∀ {sites : Sites}, (∀ s ∈ sites.flatten, s.Resolved slots) →
      sites.emit slots =
        ⟨sites.flatten.flatMap (·.propOps slots), sites.flatten.flatMap (·.childOps slots),
          none⟩ := by
  intro sites
  induction sites with
  | nil => intro _; rfl
  | site step props inserts inner next ihInner ihNext =>
    intro h
    rw [flatten] at h ⊢
    have hs := emitSite_of_resolved (h ⟨step, props, inserts⟩ (List.mem_cons_self ..))
    have hi := ihInner fun s hs =>
      h s (List.mem_cons_of_mem _ (List.mem_append_left _ hs))
    have hn := ihNext fun s hs =>
      h s (List.mem_cons_of_mem _ (List.mem_append_right _ hs))
    dsimp only at hs
    rw [emit, hs, hi, hn, Emission.andThen_of_fault_none _ rfl,
      Emission.andThen_of_fault_none _ rfl]
    simp

/-! ## Slots are numbered in the order of the walk -/

namespace Slots

/-- Where in a walk the ops stand that give out a slot. -/
def steps (walk : List StateOp) : List Nat :=
  walk.findIdxs StateOp.assignsSlot

/-- An op that gives out a slot gets the free one, and the ops before it that do come first. -/
theorem join_assign (walk : List StateOp) (free i : Nat) :
    (assign free walk)[i]?.join =
      if (walk[i]?).any StateOp.assignsSlot then
        some (free + (walk.take i).countP StateOp.assignsSlot)
      else none := by
  induction walk generalizing free i with
  | nil => simp [assign]
  | cons op ops ih =>
    rw [assign]
    by_cases hop : op.assignsSlot = true
    · rw [if_pos hop]
      cases i with
      | zero => simp [hop]
      | succ i =>
        rw [List.getElem?_cons_succ, ih, List.getElem?_cons_succ, List.take_succ_cons,
          List.countP_cons_of_pos hop]
        simp only [Nat.add_assoc, Nat.add_comm 1]
    · rw [if_neg hop]
      cases i with
      | zero => simp [hop]
      | succ i =>
        rw [List.getElem?_cons_succ, ih, List.getElem?_cons_succ, List.take_succ_cons,
          List.countP_cons_of_neg hop]

/-- The slot of an op counts the ops before it that give one. -/
theorem get?_ofWalk (walk : List StateOp) (i : Nat) :
    (ofWalk walk).get? i =
      if (walk[i]?).any StateOp.assignsSlot then
        some (1 + (walk.take i).countP StateOp.assignsSlot)
      else none := by
  rw [get?, ofWalk, List.getElem?_toArray, join_assign]

/-- Where the ops that give out a slot stand, by the number of such ops before them. -/
theorem getElem?_steps {walk : List StateOp} {k j : Nat} :
    (steps walk)[k]? = some j ↔
      (walk[j]?).any StateOp.assignsSlot = true
        ∧ (walk.take j).countP StateOp.assignsSlot = k := by
  rw [← List.countPBefore_eq_countP_take]
  constructor
  · intro h
    obtain ⟨hj, hassigns⟩ :=
      List.mem_findIdxs_iff_exists_getElem_pos.mp (List.mem_of_getElem? h)
    obtain ⟨hk, hnth⟩ := List.getElem?_eq_some_iff.mp h
    have hk' : k < walk.countP StateOp.assignsSlot := by
      rwa [steps, List.length_findIdxs] at hk
    refine ⟨by rw [List.getElem?_eq_getElem hj]; exact hassigns, ?_⟩
    have hfind : walk.findIdxNth StateOp.assignsSlot k = j :=
      List.getElem_findIdxs_eq_findIdxNth.symm.trans hnth
    rw [← hfind]
    exact List.countPBefore_findIdxNth_of_lt_countP hk'
  · rintro ⟨hany, rfl⟩
    obtain ⟨hj, hassigns⟩ : ∃ hj : j < walk.length, walk[j].assignsSlot = true := by
      by_cases hj : j < walk.length
      · rw [List.getElem?_eq_getElem hj] at hany
        exact ⟨hj, hany⟩
      · rw [List.getElem?_eq_none (Nat.le_of_not_lt hj)] at hany
        cases hany
    refine List.getElem?_eq_some_iff.mpr ⟨?_, ?_⟩
    · rw [steps, List.length_findIdxs]
      exact List.countPBefore_lt_countP_of_lt_length_of_pos hassigns
    · exact List.getElem_findIdxs_eq_findIdxNth.trans
        (List.findIdxNth_countPBefore_of_lt_length_of_pos hassigns)

/-- **The slot of an op is its number among the ops that give one.** -/
theorem get?_eq_some {walk : List StateOp} {j slot : Nat} :
    (ofWalk walk).get? j = some slot ↔ ∃ k, slot = k + 1 ∧ (steps walk)[k]? = some j := by
  simp only [get?_ofWalk, getElem?_steps]
  constructor
  · intro h
    split at h
    · next hany => exact ⟨_, by rw [← Option.some.inj h, Nat.add_comm], hany, rfl⟩
    · cases h
  · rintro ⟨k, rfl, hany, rfl⟩
    rw [if_pos hany, Nat.add_comm]

theorem get?_of_steps {walk : List StateOp} {k j : Nat} (h : (steps walk)[k]? = some j) :
    (ofWalk walk).get? j = some (k + 1) :=
  get?_eq_some.mpr ⟨k, rfl, h⟩

theorem size_ofWalk (walk : List StateOp) : (ofWalk walk).size = 1 + (steps walk).length := by
  rw [steps, List.length_findIdxs]
  rfl

/-- Later ops have larger slots. -/
theorem get?_lt_get? {walk : List StateOp} {i j s t : Nat} (hij : i < j)
    (hi : (ofWalk walk).get? i = some s) (hj : (ofWalk walk).get? j = some t) : s < t := by
  obtain ⟨k, rfl, hk⟩ := get?_eq_some.mp hi
  obtain ⟨l, rfl, hl⟩ := get?_eq_some.mp hj
  have hsorted : (steps walk).Pairwise (· < ·) := List.pairwise_findIdxs
  rcases Nat.lt_or_ge k l with hkl | hlk
  · omega
  · exfalso
    obtain ⟨hk', rfl⟩ := List.getElem?_eq_some_iff.mp hk
    obtain ⟨hl', rfl⟩ := List.getElem?_eq_some_iff.mp hl
    rcases Nat.lt_or_eq_of_le hlk with h | h
    · have := List.pairwise_iff_getElem.mp hsorted l k hl' hk' h
      omega
    · subst h
      omega

theorem get?_inj {walk : List StateOp} {i j slot : Nat} (hi : (ofWalk walk).get? i = some slot)
    (hj : (ofWalk walk).get? j = some slot) : i = j := by
  rcases Nat.lt_trichotomy i j with h | h | h
  · exact absurd (get?_lt_get? h hi hj) (Nat.lt_irrefl _)
  · exact h
  · exact absurd (get?_lt_get? h hj hi) (Nat.lt_irrefl _)

/-- The slots that are given out are those from 1 on. -/
theorem exists_get?_iff (walk : List StateOp) (slot : Nat) :
    1 ≤ slot ∧ slot < (ofWalk walk).size ↔ ∃ i, (ofWalk walk).get? i = some slot := by
  rw [size_ofWalk]
  constructor
  · rintro ⟨hpos, hlt⟩
    have hk : slot - 1 < (steps walk).length := by omega
    refine ⟨(steps walk)[slot - 1], get?_eq_some.mpr ⟨slot - 1, by omega, ?_⟩⟩
    exact List.getElem?_eq_getElem hk
  · rintro ⟨i, hi⟩
    obtain ⟨k, rfl, hk⟩ := get?_eq_some.mp hi
    obtain ⟨hlt, _⟩ := List.getElem?_eq_some_iff.mp hk
    omega

end Slots
end Stencil
