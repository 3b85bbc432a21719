import Mathlib.Data.List.Nodup
import Stencil.Proofs.Artifact
import Stencil.Proofs.SizeTest

/-!
# No expression is lost

The expressions of a template are taken one after the other. Some of them are asked about,
and those that the oracle calls invariant go into the markup; all others go into the table
of dynamic expressions. `Dealt` says that a list is dealt out to two others, each keeping
the order, and every kind of binding and content deals out its expressions in this way.

The oracle is asked for larger and larger numbers, so never twice for one. This is why an
oracle that remembers what it was asked is no different from one that goes by the number:
`exists_oracle_of_answers` finds the second for the first.
-/

namespace Stencil

/-- `whole` is dealt out to `xs` and `ys`, each in the same order. -/
structure Dealt (xs ys whole : List Nat) : Prop where
  left : xs.Sublist whole
  right : ys.Sublist whole
  perm : (xs ++ ys).Perm whole

namespace Dealt

variable {a b c a' b' c' : List Nat}

theorem nil : Dealt [] [] [] := ⟨.refl _, .refl _, .nil⟩

theorem toLeft (a : List Nat) : Dealt a [] a :=
  ⟨.refl _, List.nil_sublist _, by rw [List.append_nil]⟩

theorem toRight (b : List Nat) : Dealt [] b b :=
  ⟨List.nil_sublist _, .refl _, .refl _⟩

theorem append (h : Dealt a b c) (h' : Dealt a' b' c') :
    Dealt (a ++ a') (b ++ b') (c ++ c') where
  left := h.left.append h'.left
  right := h.right.append h'.right
  perm := by
    refine List.Perm.trans ?_ (h.perm.append h'.perm)
    rw [List.append_assoc, List.append_assoc]
    exact (List.perm_append_comm_assoc _ _ _).append_left _

theorem flatMap {α : Type} {f g k : α → List Nat} {xs : List α}
    (h : ∀ x ∈ xs, Dealt (f x) (g x) (k x)) :
    Dealt (xs.flatMap f) (xs.flatMap g) (xs.flatMap k) := by
  induction xs with
  | nil => exact .nil
  | cons x xs ih =>
    rw [List.flatMap_cons, List.flatMap_cons, List.flatMap_cons]
    exact (h x (List.mem_cons_self ..)).append (ih fun y hy => h y (List.mem_cons_of_mem _ hy))

end Dealt

/-! ## Every expression is hoisted or dynamic -/

section Dealing

variable (oracle : Oracle)

theorem ClassPart.dealt (cls : ClassPart) :
    Dealt (cls.asked.filter oracle) (cls.exprs oracle) cls.taken := by
  cases cls with
  | names list => exact .nil
  | expr i =>
    rw [asked, taken, exprs]
    by_cases h : oracle i = true
    · rw [if_pos h, List.filter_cons_of_pos h]
      exact .toLeft _
    · rw [if_neg h, List.filter_cons_of_neg h]
      exact .toRight _

theorem Binding.dealt (b : Binding) :
    Dealt (b.asked.filter oracle) (b.exprs oracle) b.taken := by
  cases b with
  | flag name => exact .nil
  | value name text => exact .nil
  | directive i => exact .toRight _
  | named kind name i =>
    cases kind with
    | attr =>
      rw [asked, taken, exprs, isHoisted]
      by_cases h : oracle i = true
      · rw [if_pos h, List.filter_cons_of_pos h]
        exact .toLeft _
      · rw [if_neg h, List.filter_cons_of_neg h]
        exact .toRight _
    | _ => exact .toRight _

theorem Head.dealt (head : Head) :
    Dealt (head.asked.filter oracle) (head.exprs oracle) head.taken := by
  rw [asked, List.filter_append, List.filter_flatMap]
  exact (head.cls.dealt oracle).append (.flatMap fun b _ => b.dealt oracle)

theorem Content.dealt (c : Content) :
    Dealt (c.asked.filter oracle) (c.exprs oracle) c.taken := by
  induction c with
  | nil => exact .nil
  | text s next ih => exact ih
  | expr i next ih => exact (Dealt.toRight [i]).append ih
  | element head inner next ihInner ihNext =>
    rw [asked, List.filter_append, List.filter_append]
    exact ((head.dealt oracle).append ihInner).append ihNext

theorem Element.dealt (e : Element) :
    Dealt (e.asked.filter oracle) (e.exprs oracle) e.taken := by
  rw [asked, List.filter_append]
  exact (e.head.dealt oracle).append (e.content.dealt oracle)

end Dealing

/-! ## The holes of the markup -/

namespace Part

def expr? : Part → Option Nat
  | text _ => none
  | expr i => some i

theorem exprs_merge (parts : List Part) :
    (merge parts).filterMap expr? = parts.filterMap expr? := by
  induction parts with
  | nil => rfl
  | cons part rest ih =>
    cases part with
    | expr i =>
      rw [merge]
      exact congrArg (i :: ·) ih
    | text s =>
      have hskip : (text s :: rest).filterMap expr? = rest.filterMap expr? := rfl
      rw [hskip, ← ih, merge]
      split
      · next tail rest' hm =>
        rw [hm]
        rfl
      · rfl

end Part

/-- The expressions whose values go into the markup, in its order. -/
def Skeleton.exprs : Skeleton → List Nat
  | tag _ => []
  | parts list => list.filterMap Part.expr?

section Holes

variable (oracle : Oracle)

theorem ClassPart.exprs_markup (cls : ClassPart) :
    (cls.markup oracle).filterMap Part.expr? = cls.asked.filter oracle := by
  cases cls with
  | names list => cases list <;> rfl
  | expr i =>
    rw [markup, asked, taken]
    by_cases h : oracle i = true
    · rw [if_pos h, List.filter_cons_of_pos h]
      rfl
    · rw [if_neg h, List.filter_cons_of_neg h]
      rfl

theorem Binding.exprs_markup (b : Binding) :
    (b.markup oracle).filterMap Part.expr? = b.asked.filter oracle := by
  cases b with
  | flag name => rfl
  | value name text => rfl
  | directive i => rfl
  | named kind name i =>
    cases kind with
    | attr =>
      rw [markup, asked, isHoisted]
      by_cases h : oracle i = true
      · rw [if_pos h, List.filter_cons_of_pos h]
        rfl
      · rw [if_neg h, List.filter_cons_of_neg h]
        rfl
    | _ => rfl

theorem Head.exprs_attrs (head : Head) :
    (head.attrs oracle).filterMap Part.expr? = head.asked.filter oracle := by
  rw [attrs, asked, List.filterMap_append, List.filter_append, ClassPart.exprs_markup,
    List.filterMap_flatMap, List.filter_flatMap]
  simp only [Binding.exprs_markup]

theorem Head.exprs_opening (head : Head) :
    (head.opening oracle).filterMap Part.expr? = head.asked.filter oracle := by
  rw [← Head.exprs_attrs, opening, List.filterMap_append]
  exact List.append_nil _

theorem Head.exprs_closing (head : Head) : head.closing.filterMap Part.expr? = [] := by
  unfold closing
  split <;> rfl

theorem Content.exprs_markup (before : Before) (c : Content) :
    (c.markup oracle before).filterMap Part.expr? = c.asked.filter oracle := by
  induction c generalizing before with
  | nil => rfl
  | text s next ih =>
    rw [markup, asked, ← ih .afterText]
    split <;> rfl
  | expr i next ih => exact ih _
  | element head inner next ihInner ihNext =>
    rw [markup, asked, List.filterMap_append, List.filterMap_append, List.filterMap_append,
      Head.exprs_opening, Head.exprs_closing, ihInner, ihNext, List.append_nil,
      List.filter_append, List.filter_append]

theorem Element.exprs_markup (e : Element) :
    (e.markup oracle).filterMap Part.expr? = e.asked.filter oracle := by
  rw [markup, asked, List.filterMap_append, List.filterMap_append, Head.exprs_opening,
    Head.exprs_closing, Content.exprs_markup, List.append_nil, List.filter_append]

theorem Content.markup_eq_nil {c : Content} (before : Before) (h : c.hasMarkup = false) :
    c.markup oracle before = [] := by
  induction c generalizing before with
  | nil => rfl
  | text s next _ => cases h
  | expr i next ih => exact ih _ h
  | element head inner next _ _ => cases h

/-- **The holes of the skeleton are the expressions that the oracle was asked about and called
invariant.** -/
theorem Element.exprs_skeleton (e : Element) :
    (e.skeleton oracle).exprs = e.asked.filter oracle := by
  rw [← exprs_markup]
  unfold skeleton
  by_cases h : e.isBare oracle = true
  · -- the bare tag has no holes, and neither has the markup it stands for
    rw [if_pos h]
    rw [isBare, Bool.and_eq_true, List.isEmpty_iff, Bool.not_eq_true'] at h
    rw [markup, List.filterMap_append, List.filterMap_append, Content.markup_eq_nil _ _ h.2,
      Head.exprs_opening, ← Head.exprs_attrs, h.1, Head.exprs_closing]
    rfl
  · rw [if_neg h]
    exact Part.exprs_merge _

end Holes

/-! ## What the oracle is asked -/

theorem compile_asked {fragments : List String} (oracle : Oracle) (svg : Bool)
    (h : fragments ≠ []) :
    (compile oracle svg fragments).asked =
      (Reader.last (Template.read (Element.fits oracle)
        (Reader.ofFragments fragments))).asked.reverse := by
  have hempty : ¬fragments.isEmpty = true := by simpa using h
  unfold compile
  rw [if_neg hempty]
  cases Template.read (Element.fits oracle) (Reader.ofFragments fragments) with
  | error failure => rfl
  | ok found =>
    obtain ⟨t, r⟩ := found
    dsimp only
    rw [Template.artifact_eq]
    dsimp only
    split <;> rfl

theorem Reader.asked_ofFragments (fragments : List String) :
    (Reader.ofFragments fragments).asked = [] := by
  cases fragments <;> rfl

/-- The oracle is asked for larger and larger numbers, wherever reading stops. -/
theorem Reader.Promises.pairwise_asked {α : Type} {r : Reader} {taken asked : α → List Nat}
    {good : α → Prop} {x : Except Failure (α × Reader)} (h : r.Promises taken asked good x)
    (hr : r.asked = []) : (Reader.last x).asked.reverse.Pairwise (· < ·) := by
  obtain ⟨exprs, asks, hreads⟩ := h.reads_last
  rw [hreads.asked, hr, List.append_nil, List.reverse_reverse]
  exact hreads.sortedLT_asks

theorem pairwise_asked (oracle : Oracle) (svg : Bool) (fragments : List String) :
    (compile oracle svg fragments).asked.Pairwise (· < ·) := by
  by_cases h : fragments = []
  · subst h
    exact .nil
  · rw [compile_asked oracle svg h]
    exact (Template.read_promises _ _).pairwise_asked (Reader.asked_ofFragments fragments)

/-- What is asked depends on the answers only in that a size test may stop it early. -/
theorem asked_isPrefix (oracle : Oracle) (svg : Bool) (fragments : List String) :
    (compile oracle svg fragments).asked <+:
      (Reader.last (Template.read (fun _ => true)
        (Reader.ofFragments fragments))).asked.reverse := by
  by_cases h : fragments = []
  · subst h
    exact List.nil_prefix
  · rw [compile_asked oracle svg h, List.reverse_prefix]
    exact (Template.read_cut _ _).asked_suffix

theorem takeWhile_lt_eq_take {all asked : List Nat} {k i : Nat} (h : all.Pairwise (· < ·))
    (hstarts : asked <+: all) (hk : asked[k]? = some i) :
    all.takeWhile (· < i) = asked.take k := by
  induction asked generalizing all k with
  | nil => cases hk
  | cons x asked ih =>
    obtain ⟨rest, rfl⟩ := hstarts
    obtain ⟨hx, hrest⟩ := List.pairwise_cons.mp h
    rw [List.cons_append]
    cases k with
    | zero =>
      cases hk
      exact List.takeWhile_cons_of_neg (by simp)
    | succ k =>
      have hlt : x < i := hx i (List.mem_append_left _ (List.mem_of_getElem? hk))
      rw [List.takeWhile_cons_of_pos (by simpa using hlt), List.take_succ_cons]
      exact congrArg (x :: ·) (ih hrest (List.prefix_append _ _) hk)

/-- **An oracle that remembers what it was asked is matched by one that goes by the number.** -/
theorem exists_oracle_of_answers (svg : Bool) (fragments : List String)
    (answer : List Nat → Nat → Bool) :
    ∃ oracle : Oracle, ∀ k i, (compile oracle svg fragments).asked[k]? = some i →
      oracle i = answer ((compile oracle svg fragments).asked.take k) i := by
  generalize hall : (Reader.last (Template.read (fun _ => true)
    (Reader.ofFragments fragments))).asked.reverse = all
  have hsorted : all.Pairwise (· < ·) := by
    rw [← hall]
    exact (Template.read_promises _ _).pairwise_asked (Reader.asked_ofFragments fragments)
  -- what was asked before `i` is what has a smaller number
  refine ⟨fun i => answer (all.takeWhile (· < i)) i, fun k i hk => ?_⟩
  have hstarts := asked_isPrefix (fun i => answer (all.takeWhile (· < i)) i) svg fragments
  rw [hall] at hstarts
  exact congrArg (answer · i) (takeWhile_lt_eq_take hsorted hstarts hk)

/-! ## All expressions are accounted for -/

/--
Of the `n` expressions of a template each is in the skeleton or in the table of `a`, never in
both and both times in order. Those in the skeleton are the ones that the oracle was `asked`
about and called invariant.
-/
structure Artifact.Accounts (oracle : Oracle) (asked : List Nat) (n : Nat) (a : Artifact) :
    Prop where
  hoisted : a.template.exprs = asked.filter oracle
  template_sorted : a.template.exprs.Pairwise (· < ·)
  exprs_sorted : a.exprs.Pairwise (· < ·)
  disjoint : a.template.exprs.Disjoint a.exprs
  complete : ∀ i, (i ∈ a.template.exprs ∨ i ∈ a.exprs) ↔ i < n

theorem Template.accounts_compiled (oracle : Oracle) (svg : Bool) {t : Template}
    (h : t.root.taken = List.range t.root.taken.length) :
    (t.compiled oracle svg).Accounts oracle t.root.asked t.root.taken.length := by
  have hdealt : Dealt (t.compiled oracle svg).template.exprs (t.compiled oracle svg).exprs
      (List.range t.root.taken.length) := by
    rw [← h]
    have hskeleton := Element.exprs_skeleton oracle t.root
    show Dealt (t.root.skeleton oracle).exprs (t.root.exprs oracle) _
    rw [hskeleton]
    exact t.root.dealt oracle
  have hsorted : (List.range t.root.taken.length).Pairwise (· < ·) := List.pairwise_lt_range
  have hnodup := hdealt.perm.nodup_iff.mpr List.nodup_range
  refine ⟨Element.exprs_skeleton oracle t.root, hsorted.sublist hdealt.left,
    hsorted.sublist hdealt.right, List.disjoint_of_nodup_append hnodup, fun i => ?_⟩
  rw [← List.mem_append, hdealt.perm.mem_iff, List.mem_range]

/--
**No expression is lost, doubled or moved**, and the oracle is asked about larger and larger
numbers whether or not the template compiles. The last part extends this to oracles whose
answers depend on what they were asked before.
-/
theorem compile_accounts (svg : Bool) (fragments : List String) :
    (∀ oracle : Oracle, (compile oracle svg fragments).asked.Pairwise (· < ·)
      ∧ ∀ a, (compile oracle svg fragments).result = .ok a →
        ∃ n < fragments.length, a.Accounts oracle (compile oracle svg fragments).asked n)
    ∧ ∀ answer : List Nat → Nat → Bool, ∃ oracle : Oracle,
        ∀ k i, (compile oracle svg fragments).asked[k]? = some i →
          oracle i = answer ((compile oracle svg fragments).asked.take k) i := by
  refine ⟨fun oracle => ⟨pairwise_asked oracle svg fragments, fun a h => ?_⟩,
    exists_oracle_of_answers svg fragments⟩
  obtain ⟨hne, t, r, hread, rfl, hasked⟩ := compile_eq_ok h
  have hpromises := Template.read_promises (Element.fits oracle) (Reader.ofFragments fragments)
  rw [hread] at hpromises
  obtain ⟨hreads, _⟩ := hpromises
  have hindex : (Reader.ofFragments fragments).index = 0 := by cases fragments <;> rfl
  have hlater : (Reader.ofFragments fragments).later.length < fragments.length := by
    cases fragments with
    | nil => exact absurd rfl hne
    | cons f fs => simp [Reader.ofFragments]
  have htaken : t.root.taken = List.range t.root.taken.length := by
    rw [List.range_eq_range', ← hindex]
    exact hreads.consecutive
  have hasks : r.asked.reverse = t.root.asked := by
    rw [hreads.asked, Reader.asked_ofFragments, List.append_nil, List.reverse_reverse]
  refine ⟨t.root.taken.length, Nat.lt_of_le_of_lt hreads.length_le hlater, ?_⟩
  rw [hasked, hasks]
  exact Template.accounts_compiled oracle svg htaken

/-- One expression of every kind, with the second one called invariant. -/
theorem compile_accounts_kinds :
    ∃ a, (compile (· == 1) false
        ["p", " :a=", " .b=", " *c=", " ~d=", " @e=", " $", " 'x' ", ""]).result = .ok a
      ∧ a.template.exprs = [1] ∧ a.exprs = [0, 2, 3, 4, 5, 6, 7]
      ∧ ∃ n < 9, a.Accounts (· == 1) [0, 1] n := by
  generalize hf : ["p", " :a=", " .b=", " *c=", " ~d=", " @e=", " $", " 'x' ", ""] = fragments
  have hexprs : (compile (· == 1) false fragments).result.toOption.map
      (fun a => (a.template.exprs, a.exprs)) = some ([1], [0, 2, 3, 4, 5, 6, 7]) := by
    rw [← hf]
    decide +kernel
  have hasked : (compile (· == 1) false fragments).asked = [0, 1] := by
    rw [← hf]
    decide +kernel
  have hlength : fragments.length = 9 := by
    rw [← hf]
    rfl
  obtain ⟨a, hresult, hexprs⟩ := exists_of_toOption_map hexprs
  obtain ⟨htemplate, htable⟩ := Prod.mk.inj hexprs
  have haccounts := ((compile_accounts false fragments).1 (· == 1)).2 a hresult
  rw [hasked, hlength] at haccounts
  exact ⟨a, hresult, htemplate, htable, haccounts⟩

end Stencil
