import Mathlib.Data.List.Destutter
import Mathlib.Data.List.Sort
import Mathlib.Data.String.Basic
import Stencil.Descriptor

/-!
# Imports depend on the set of helpers only

Descriptors name the helpers they refer to in any order and any number of times, and the import
of several descriptors lists each helper once. Names are put into the list one by one, so the
list could still depend on the order they came in. It does not:

* the list is strictly increasing, and its members are the names that were put in;
* there is only one strictly increasing list with given members.

The same two facts say that every other way to such a list ends in the same one. In particular
names may be sorted first, by any method, and repetitions dropped afterwards where they stand side
by side: in a sorted list they always do.
-/

namespace Stencil

namespace Text

/-- The code points of a text. -/
def codePoints (text : String) : List Nat :=
  text.toList.map Char.toNat

theorem map_toNat_lt {cs ds : List Char} :
    cs.map Char.toNat < ds.map Char.toNat ↔ cs < ds := by
  induction cs generalizing ds with
  | nil => cases ds <;> simp
  | cons c cs ih =>
    cases ds with
    | nil => simp
    | cons d ds =>
      rw [List.map_cons, List.map_cons, List.cons_lt_cons_iff, List.cons_lt_cons_iff, ih,
        Char.toNat_inj]
      exact Iff.rfl

/-- Names are compared by their code points, the first that differ. -/
theorem codePoints_lt {a b : String} : codePoints a < codePoints b ↔ a < b := by
  rw [String.lt_iff_toList_lt]
  exact map_toNat_lt

theorem codePoints_le {a b : String} : codePoints a ≤ codePoints b ↔ a ≤ b := by
  rw [← not_lt, ← not_lt, codePoints_lt]

/-! ## Names in order -/

theorem mem_insertName {a name : String} {names : List String} :
    a ∈ insertName name names ↔ a = name ∨ a ∈ names := by
  induction names with
  | nil => exact List.mem_singleton.trans (by simp)
  | cons n ns ih =>
    unfold insertName
    split
    · exact List.mem_cons
    · split
      · rename_i heq
        rw [List.mem_cons, heq, or_iff_right_of_imp Or.inl]
      · rw [List.mem_cons, List.mem_cons, ih, or_left_comm]

theorem pairwise_insertName {name : String} {names : List String}
    (h : names.Pairwise (· < ·)) : (insertName name names).Pairwise (· < ·) := by
  induction names with
  | nil => exact List.pairwise_singleton _ _
  | cons n ns ih =>
    obtain ⟨hn, hns⟩ := List.pairwise_cons.mp h
    unfold insertName
    split
    · rename_i hlt
      refine List.pairwise_cons.mpr ⟨?_, h⟩
      intro a ha
      rcases List.mem_cons.mp ha with rfl | ha
      · exact hlt
      · exact hlt.trans (hn a ha)
    · split
      · exact h
      · -- neither below the first name nor equal to it
        rename_i hlt hne
        refine List.pairwise_cons.mpr ⟨?_, ih hns⟩
        intro a ha
        rcases mem_insertName.mp ha with rfl | ha
        · exact lt_of_le_of_ne (not_lt.mp hlt) (Ne.symm hne)
        · exact hn a ha

theorem mem_inOrder {a : String} {names : List String} : a ∈ inOrder names ↔ a ∈ names := by
  induction names with
  | nil => exact Iff.rfl
  | cons n ns ih => rw [inOrder, List.foldr_cons, mem_insertName, ← inOrder, ih, List.mem_cons]

theorem pairwise_inOrder (names : List String) : (inOrder names).Pairwise (· < ·) := by
  induction names with
  | nil => exact List.Pairwise.nil
  | cons n ns ih => exact pairwise_insertName ih

/-- A strictly increasing list is determined by its members. -/
theorem eq_inOrder {list names : List String} (hlist : list.Pairwise (· < ·))
    (hmem : ∀ a, a ∈ list ↔ a ∈ names) : list = inOrder names :=
  hlist.eq_of_mem_iff (pairwise_inOrder names) fun a => (hmem a).trans mem_inOrder.symm

/-! ## Sorting and dropping repetitions -/

theorem mem_destutter' {a b : String} {names : List String} :
    a ∈ names.destutter' (· ≠ ·) b ↔ a = b ∨ a ∈ names := by
  induction names generalizing b with
  | nil => simp
  | cons n ns ih =>
    rw [List.destutter'_cons]
    split
    · rw [List.mem_cons, ih, List.mem_cons]
    · rename_i heq
      rw [ih, List.mem_cons, Decidable.not_not.mp heq, or_self_left]

theorem mem_destutter {a : String} {names : List String} :
    a ∈ names.destutter (· ≠ ·) ↔ a ∈ names := by
  cases names with
  | nil => exact Iff.rfl
  | cons n ns => rw [List.destutter_cons', mem_destutter', List.mem_cons]

/-- In a sorted list, repetitions stand side by side. -/
theorem pairwise_destutter {names : List String} (h : names.Pairwise (· ≤ ·)) :
    (names.destutter (· ≠ ·)).Pairwise (· < ·) := by
  have hle : (names.destutter (· ≠ ·)).IsChain (· ≤ ·) :=
    (h.sublist (List.destutter_sublist _ names)).isChain
  have hne : (names.destutter (· ≠ ·)).IsChain (· ≠ ·) := List.isChain_destutter _ names
  -- neighbours are in order and differ; being transitive, `<` goes from them to all pairs
  have hlt : (names.destutter (· ≠ ·)).IsChain (· < ·) :=
    List.isChain_iff_getElem.mpr fun i hi =>
      lt_of_le_of_ne (List.isChain_iff_getElem.mp hle i hi) (List.isChain_iff_getElem.mp hne i hi)
  exact hlt.pairwise

/-- However names are sorted, without repetitions they are in order. -/
theorem destutter_eq_inOrder {sorted names : List String} (hperm : sorted.Perm names)
    (hsorted : sorted.Pairwise (· ≤ ·)) : sorted.destutter (· ≠ ·) = inOrder names :=
  eq_inOrder (pairwise_destutter hsorted) fun _ => mem_destutter.trans hperm.mem_iff

end Text

namespace Descriptor

/-- The helpers that descriptors refer to. -/
def imported (ds : List Descriptor) : Set String :=
  {name | ∃ d ∈ ds, name ∈ d.imports}

variable {ds es : List Descriptor}

theorem mem_helpers {name : String} : name ∈ helpers ds ↔ name ∈ imported ds :=
  Text.mem_inOrder.trans List.mem_flatMap

theorem helpers_eq_nil : helpers ds = [] ↔ imported ds = ∅ := by
  rw [List.eq_nil_iff_forall_not_mem, Set.eq_empty_iff_forall_notMem]
  exact forall_congr' fun name => not_congr mem_helpers

theorem helpers_eq_of_imported_eq (h : imported ds = imported es) : helpers ds = helpers es := by
  refine Text.eq_inOrder (Text.pairwise_inOrder _) fun name => ?_
  calc name ∈ helpers ds ↔ name ∈ imported ds := mem_helpers
    _ ↔ name ∈ imported es := by rw [h]
    _ ↔ name ∈ es.flatMap imports := List.mem_flatMap.symm

theorem renderImports_eq_empty {runtimeModule : String} :
    renderImports ds runtimeModule = "" ↔ helpers ds = [] := by
  unfold renderImports
  split
  · rename_i hnil
    exact iff_of_true rfl hnil
  · rename_i hne
    refine iff_of_false (fun htext => ?_) hne
    have hnil := congrArg String.toList htext
    simp at hnil

/--
**Imports depend on the set of helpers only.** Descriptors that refer to the same helpers have the
same import. It lists them in the order of their code points, each once, as one would get by
sorting all references and dropping repetitions; and there is no text if there is no helper.
-/
theorem renderImports_canonical (h : imported ds = imported es) (runtimeModule : String) :
    renderImports ds runtimeModule = renderImports es runtimeModule
      ∧ (renderImports ds runtimeModule = "" ↔ imported ds = ∅)
      ∧ ∃ names : List String,
        (names.map Text.codePoints).Pairwise (· < ·)
        ∧ (∀ name, name ∈ names ↔ name ∈ imported ds)
        ∧ (imported ds ≠ ∅ → renderImports ds runtimeModule =
          "import \x7b " ++ String.intercalate ", " names ++ " \x7d from "
            ++ Json.quote runtimeModule ++ ";")
        ∧ ∀ sorted : List String, sorted.Perm (ds.flatMap (·.imports)) →
          (sorted.map Text.codePoints).Pairwise (· ≤ ·) → sorted.destutter (· ≠ ·) = names := by
  refine ⟨?_, renderImports_eq_empty.trans helpers_eq_nil, helpers ds, ?_, fun _ => mem_helpers,
    ?_, ?_⟩
  · rw [renderImports, helpers_eq_of_imported_eq h, ← renderImports]
  · rw [List.pairwise_map]
    exact (Text.pairwise_inOrder _).imp Text.codePoints_lt.mpr
  · intro hne
    unfold renderImports
    split
    · rename_i hnil
      exact absurd (helpers_eq_nil.mp hnil) hne
    · rfl
  · intro sorted hperm hsorted
    rw [List.pairwise_map] at hsorted
    exact Text.destutter_eq_inOrder hperm (hsorted.imp Text.codePoints_le.mp)

/-- Three descriptors and one, with repetitions and in different orders. Two of the names are in
the opposite order when they are compared by UTF-16 code units. -/
theorem renderImports_canonical_repeated :
    renderImports [⟨"", "", ["_T", "_hE", "_t"]⟩, ⟨"", "", ["_t", "😀", "_T"]⟩, ⟨"", "", ["ﬀ"]⟩]
          "ivi"
        = "import \x7b _T, _hE, _t, ﬀ, 😀 \x7d from \"ivi\";"
      ∧ renderImports [⟨"", "", ["ﬀ", "ﬀ", "😀", "_t", "_hE", "_t", "_T"]⟩] "ivi"
        = "import \x7b _T, _hE, _t, ﬀ, 😀 \x7d from \"ivi\";" := by
  have hset : imported [⟨"", "", ["_T", "_hE", "_t"]⟩, ⟨"", "", ["_t", "😀", "_T"]⟩, ⟨"", "", ["ﬀ"]⟩]
      = imported [⟨"", "", ["ﬀ", "ﬀ", "😀", "_t", "_hE", "_t", "_T"]⟩] := by
    ext name
    simp only [imported, Set.mem_ofPred_eq, List.mem_cons, List.not_mem_nil, or_false,
      exists_eq_or_imp, exists_eq_left]
    tauto
  have htext : renderImports [⟨"", "", ["_T", "_hE", "_t"]⟩, ⟨"", "", ["_t", "😀", "_T"]⟩,
      ⟨"", "", ["ﬀ"]⟩] "ivi" = "import \x7b _T, _hE, _t, ﬀ, 😀 \x7d from \"ivi\";" := by
    decide +kernel
  exact ⟨htext, (renderImports_canonical hset "ivi").1.symm.trans htext⟩

end Descriptor
end Stencil
