import Stencil.Proofs.InStep

/-!
# Templates that part at one place

A fork is a place in a fragment with two ways to go on from it. Two readers on either way
that both stand before the place are in step, as long as they keep before it: nothing they
read reaches over it, because it begins with an equals sign either way, or with a literal.

The two ways may also have different fragments after this one.
-/

namespace Stencil.Reader

/-- A place in the fragment number `index`, with two ways to go on. -/
structure Fork where
  index : Nat
  tail : List Char
  later : List (List Char)
  tail' : List Char
  later' : List (List Char)

namespace Fork

/-- Both ways begin with an equals sign, or both with a literal. -/
def Alike (k : Fork) : Prop :=
  k.tail.head? = some '=' ∧ k.tail'.head? = some '=' ∨ OpensLiteral k.tail ∧ OpensLiteral k.tail'

/-- Two readers stand before the place, one on each way. -/
inductive Before (k : Fork) : Reader → Reader → Prop where
  /-- In the fragment that parts. -/
  | here (front : List Char) (indent : Nat) (asked : List Nat) :
      Before k ⟨k.index, front ++ k.tail, k.later, indent, asked⟩
        ⟨k.index, front ++ k.tail', k.later', indent, asked⟩
  /-- In a fragment before it. -/
  | ahead (rest : List Char) (between : List (List Char)) (front : List Char) (indent : Nat)
      (asked : List Nat) {index : Nat} (h : index + between.length + 1 = k.index) :
      Before k ⟨index, rest, between ++ (front ++ k.tail) :: k.later, indent, asked⟩
        ⟨index, rest, between ++ (front ++ k.tail') :: k.later', indent, asked⟩

/-- How many symbols the first reader has left at the place. -/
def bound (k : Fork) : Nat :=
  Reader.remaining { index := k.index, rest := k.tail, later := k.later }

variable {k : Fork} {r r' s : Reader}

theorem Alike.head (h : k.Alike) :
    ∃ c cs c' cs', k.tail = c :: cs ∧ k.tail' = c' :: cs' ∧ isPlain c = false := by
  rcases h with ⟨h, h'⟩ | ⟨h | h, h' | h'⟩
  all_goals
    obtain ⟨cs, hcs⟩ := List.head?_eq_some_iff.mp h
    obtain ⟨cs', hcs'⟩ := List.head?_eq_some_iff.mp h'
    exact ⟨_, cs, _, cs', hcs, hcs', rfl⟩

/-- With the place still to come, the fragment ends with what stands there. -/
theorem exists_append_tail {indent : Nat} {asked : List Nat} {front rest : List Char}
    (h : k.bound ≤ Reader.remaining ⟨k.index, rest, k.later, indent, asked⟩)
    (hsuffix : rest <:+ front ++ k.tail) : ∃ front', rest = front' ++ k.tail := by
  have hlength : k.tail.length ≤ rest.length := by
    simp only [bound, remaining] at h
    omega
  obtain ⟨front', hfront'⟩ :=
    List.suffix_of_suffix_length_le (List.suffix_append front k.tail) hsuffix hlength
  exact ⟨front', hfront'.symm⟩

theorem Before.indent_eq (h : k.Before r r') : r'.indent = r.indent := by
  cases h <;> rfl

theorem Before.withIndent (indent : Nat) (h : k.Before r r') :
    k.Before { r with indent } { r' with indent } := by
  cases h with
  | here front => exact .here front indent _
  | ahead rest between front _ _ h => exact .ahead rest between front indent _ h

/-- A character before the place is read by both. -/
theorem Before.char {c : Char} {cs : List Char} (h : k.Before r r') (hplace : k.tail.head? ≠ some c)
    (hcs : r.rest = c :: cs) :
    ∃ cs', r'.rest = c :: cs' ∧ k.Before (r.withRest cs) (r'.withRest cs') := by
  cases h with
  | here front indent asked =>
    cases front with
    | nil => exact absurd (congrArg List.head? hcs) hplace
    | cons d front =>
      obtain ⟨rfl, rfl⟩ := List.cons.inj hcs
      exact ⟨_, rfl, .here front indent asked⟩
  | ahead rest between front indent asked h =>
    exact ⟨cs, hcs, .ahead cs between front indent asked h⟩

/-- No expression follows the fragment that parts, or none can be taken before the place. -/
theorem Before.expr {E : Nat → Nat → Prop} {i : Nat} (hE : ∀ i < k.index, E i i)
    (hplace : k.tail ≠ [] ∨ k.later = []) (h : k.Before r r')
    (hexpr : r.takeExpr? = some (i, s)) :
    ∃ i' s', r'.takeExpr? = some (i', s') ∧ E i i' ∧ k.Before s s'
      ∧ k.Before (s.ask i) (s'.ask i') := by
  cases h with
  | here front =>
    rcases hplace with htail | hlater
    · exact absurd (List.append_eq_nil_iff.mp (rest_of_takeExpr? hexpr)).2 htail
    · exact absurd hlater (later_ne_nil_of_takeExpr? hexpr)
  | @ahead rest between front indent asked index h =>
    obtain rfl : rest = [] := rest_of_takeExpr? hexpr
    cases between with
    | nil =>
      cases hexpr
      have hindex : index + 1 = k.index := h
      refine ⟨index, _, rfl, hE index (by omega), ?_, ?_⟩
      · rw [hindex]
        exact .here front indent asked
      · rw [hindex]
        exact .here front indent (index :: asked)
    | cons f between =>
      cases hexpr
      have hindex : index + 1 + between.length + 1 = k.index := by
        rw [List.length_cons] at h
        omega
      exact ⟨index, _, rfl, hE index (by omega), .ahead f between front indent asked hindex,
        .ahead f between front indent (index :: asked) hindex⟩

theorem Before.noExpr (hplace : k.tail' ≠ []) (h : k.Before r r') (hnone : r.takeExpr? = none) :
    r'.takeExpr? = none := by
  cases h with
  | here front indent asked =>
    obtain ⟨c, cs, hcs⟩ :=
      List.exists_cons_of_ne_nil (List.append_ne_nil_of_right_ne_nil front hplace)
    rw [hcs]
    rfl
  | ahead rest between front indent asked h =>
    cases rest with
    | nil => cases between <;> cases hnone
    | cons c rest => rfl

/-- A literal that closes before the place is read by both. -/
theorem Before.closed {content rest : List Char} (h : k.Before r r')
    (hclosed : literal? r.rest = some (.closed content rest))
    (hbound : k.bound ≤ (r.withRest rest).remaining) :
    ∃ rest', literal? r'.rest = some (.closed content rest')
      ∧ k.Before (r.withRest rest) (r'.withRest rest') := by
  cases h with
  | here front indent asked =>
    obtain ⟨hashes, hencloses, hfront⟩ := literal?_eq_closed_iff.mp hclosed
    have hsuffix : rest <:+ front ++ k.tail := ⟨_, hfront.symm⟩
    obtain ⟨front', rfl⟩ := exists_append_tail hbound hsuffix
    have hfront : front = Text.quoted hashes content ++ front' := by
      rw [← List.append_assoc] at hfront
      exact List.append_cancel_right hfront
    refine ⟨front' ++ k.tail', literal?_eq_closed_iff.mpr ⟨hashes, hencloses, ?_⟩,
      .here front' indent asked⟩
    rw [hfront, List.append_assoc]
  | ahead _ between front indent asked h =>
    exact ⟨rest, hclosed, .ahead rest between front indent asked h⟩

/-- **Before a fork, readers are in step.** -/
theorem inStep (halike : k.Alike) {E : Nat → Nat → Prop} (hE : ∀ i < k.index, E i i) :
    InStep k.bound E k.Before := by
  obtain ⟨d, ds, d', ds', htail, htail', hd⟩ := halike.head
  exact {
    indent := Before.indent_eq
    withIndent := Before.withIndent
    next := by
      intro r r' h
      cases h with
      | here front =>
        cases front with
        | nil =>
          rcases halike with ⟨htail, htail'⟩ | hopens
          · exact .inl (htail'.trans htail.symm)
          · exact .inr hopens
        | cons c front => exact .inl rfl
      | ahead => exact .inl rfl
    char := by
      intro r r' c cs h hc hcs
      refine h.char ?_ hcs
      -- no plain character stands at the place itself
      rw [htail]
      rintro ⟨⟩
      exact Bool.noConfusion (hc.symm.trans hd)
    expr := Before.expr hE (.inl (by simp [htail]))
    noExpr := Before.noExpr (by simp [htail'])
    closed := Before.closed }

/-- An equals sign is read by both before the place, or it stands at the place. -/
theorem Before.equals? (h : k.Before r r') (hequals : r.equals? = some s) :
    (∃ s', r'.equals? = some s' ∧ k.Before s s') ∨
      ∃ indent asked, r = ⟨k.index, k.tail, k.later, indent, asked⟩
        ∧ r' = ⟨k.index, k.tail', k.later', indent, asked⟩ := by
  obtain ⟨cs, hcs, rfl⟩ := exists_of_equals? hequals
  cases h with
  | here front indent asked =>
    cases front with
    | nil => exact .inr ⟨indent, asked, rfl, rfl⟩
    | cons c front =>
      obtain ⟨rfl, rfl⟩ := List.cons.inj hcs
      exact .inl ⟨_, rfl, .here front indent asked⟩
  | ahead rest between front indent asked h =>
    obtain rfl : rest = '=' :: cs := hcs
    exact .inl ⟨_, rfl, .ahead cs between front indent asked h⟩

theorem equalsInStep : EqualsInStep k.bound k.Before := by
  intro r r' s h hequals hbound
  rcases h.equals? hequals with hs | ⟨indent, asked, rfl, _⟩
  · exact hs
  · have hlt := remaining_of_equals? hequals
    exact absurd (Nat.lt_of_le_of_lt hbound hlt) (Nat.lt_irrefl _)

/-- Before the place, it is still to come. -/
theorem Before.bound_le (h : k.Before r r') : k.bound ≤ r.remaining := by
  cases h with
  | here front indent asked =>
    simp only [bound, remaining, List.length_append]
    omega
  | ahead rest between front indent asked h =>
    have hlater : ∀ fs : List (List Char), k.bound ≤
        (fs ++ (front ++ k.tail) :: k.later).foldr (fun f n => f.length + 1 + n) 0 := by
      intro fs
      induction fs with
      | nil =>
        simp only [bound, remaining, List.nil_append, List.foldr_cons, List.length_append]
        omega
      | cons f fs ih =>
        rw [List.cons_append, List.foldr_cons]
        omega
    exact Nat.le_trans (hlater between) (Nat.le_add_left _ _)

/-- A reader at the place has its counterpart there too. -/
theorem Before.eq_of_rest (h : k.Before r r') (hrest : r.rest = k.tail)
    (hlater : r.later = k.later) : r' = { r with rest := k.tail', later := k.later' } := by
  cases h with
  | here front indent asked =>
    obtain rfl : front = [] := List.append_left_eq_self.mp hrest
    rfl
  | ahead rest between front indent asked h =>
    -- the fragment that parts is still among those to come
    have hlength := congrArg List.length hlater
    rw [List.length_append, List.length_cons] at hlength
    omega

/-! ## What is read before the place -/

theorem Before.head {head : Head} (halike : k.Alike) (h : k.Before r r')
    (hhead : r.head = .ok (head, s)) (hbound : k.bound ≤ s.remaining) :
    ∃ s', r'.head = .ok (head, s') ∧ k.Before s s' := by
  have hR := inStep halike fun i _ => Eq.refl i
  exact hR.lockstep.same_head equalsInStep h hhead hbound

theorem Before.element {fits : Element → Bool} {e : Element} (halike : k.Alike)
    (h : k.Before r r') (helement : r.element fits = .ok (e, s)) (hbound : k.bound ≤ s.remaining) :
    ∃ s', r'.element fits = .ok (e, s') ∧ k.Before s s' := by
  have hR := inStep halike fun i _ => Eq.refl i
  exact hR.lockstep.same_element equalsInStep h helement hbound

/-! ## The start of a template -/

theorem before_ofFragments {fragments fragments' : List String} {first : List (List Char)}
    {front : List Char} (hindex : k.index = first.length)
    (h : fragments.map String.toList = first ++ (front ++ k.tail) :: k.later)
    (h' : fragments'.map String.toList = first ++ (front ++ k.tail') :: k.later') :
    k.Before (ofFragments fragments) (ofFragments fragments') := by
  have hopen : ∀ {fs : List String} {f : List Char} {later : List (List Char)},
      fs.map String.toList = f :: later → ofFragments fs = { rest := f, later } := by
    intro fs f later hfs
    cases fs with
    | nil => cases hfs
    | cons g gs =>
      obtain ⟨rfl, rfl⟩ := List.cons.inj hfs
      rfl
  cases first with
  | nil =>
    rw [hopen h, hopen h']
    have hstart := Before.here (k := k) front 0 []
    rwa [hindex] at hstart
  | cons f first =>
    rw [hopen h, hopen h']
    refine .ahead f first front 0 [] ?_
    rw [hindex, List.length_cons]
    omega

end Fork
end Stencil.Reader
