import Stencil.Proofs.Artifact

/-!
# The shape of a walk

The ops of a walk are a flat list, but an `enter` speaks for the ops that it counts. This
module says which lists can come up. `StateOp.Block` is the grammar: a block goes from node to
node among siblings and ends at the last node that is saved, and where it enters an element
the ops inside are a block again, as many as the `enter` says.

A walk that is trimmed at every level is a block or empty (`Content.block_trim_steps`). What a
reader of the ops relies on follows from the grammar alone: the ops of an `enter` are all
there, a `save` ends the block it stands in, and no block ends in an op that leads nowhere.
-/

namespace Stencil

namespace StateOp

/--
Ops that are run from one node on. The first three rules are the ways in which a block ends,
the others are the ways to a later sibling.
-/
inductive Block : List StateOp → Prop
  | save : Block [.save]
  | remove : Block [.remove]
  | enter (saves : Bool) {inside : List StateOp} (inner : Block inside)
      (fits : inside.length ≤ maxCount) : Block (.enter inside.length saves :: inside)
  | pastNext (saves : Bool) {rest : List StateOp} (more : Block rest) :
      Block (.next saves :: rest)
  | pastRemove {rest : List StateOp} (more : Block rest) :
      Block (.remove :: .next false :: rest)
  | pastEnter (saves : Bool) {inside rest : List StateOp} (inner : Block inside)
      (fits : inside.length ≤ maxCount) (more : Block rest) :
      Block (.enter inside.length saves :: (inside ++ .next false :: rest))

/-! ## What follows from the shape -/

theorem Block.length_pos {ops : List StateOp} (h : Block ops) : 0 < ops.length := by
  cases h <;> simp

/-- A block ends in an op that gives out a slot. -/
theorem Block.assignsSlot_getLast? {ops : List StateOp} (h : Block ops) :
    ∃ op, ops.getLast? = some op ∧ op.assignsSlot = true := by
  induction h with
  | save => exact ⟨.save, rfl, rfl⟩
  | remove => exact ⟨.remove, rfl, rfl⟩
  | enter saves inner _ ih =>
    obtain ⟨op, hop, hassigns⟩ := ih
    exact ⟨op, by rw [List.getLast?_cons, hop]; rfl, hassigns⟩
  | pastNext saves more ih =>
    obtain ⟨op, hop, hassigns⟩ := ih
    exact ⟨op, by rw [List.getLast?_cons, hop]; rfl, hassigns⟩
  | pastRemove more ih =>
    obtain ⟨op, hop, hassigns⟩ := ih
    exact ⟨op, by rw [List.getLast?_cons, List.getLast?_cons, hop]; rfl, hassigns⟩
  | pastEnter saves inner _ more _ ih =>
    obtain ⟨op, hop, hassigns⟩ := ih
    refine ⟨op, ?_, hassigns⟩
    rw [List.getLast?_cons, List.getLast?_append, List.getLast?_cons, hop]
    rfl

/-- An op that is not the first of a list stands after it. -/
theorem exists_of_cons_eq {first op : StateOp} {rest front post : List StateOp}
    (h : first :: rest = front ++ op :: post) (hop : op ≠ first) :
    ∃ front', front = first :: front' ∧ rest = front' ++ op :: post := by
  rcases List.cons_eq_append_iff.mp h with ⟨_, hcons⟩ | ⟨front', hfront, hrest⟩
  · exact absurd (List.cons.inj hcons).1 hop
  · exact ⟨front', hfront, hrest⟩

/-- An op that is not the `next` between two parts stands in one of them. -/
theorem exists_of_parts_eq {front inside rest post : List StateOp} {op : StateOp}
    (h : inside ++ .next false :: rest = front ++ op :: post) (hop : op ≠ .next false) :
    (∃ mid, inside = front ++ op :: mid ∧ post = mid ++ .next false :: rest)
      ∨ ∃ mid, front = inside ++ .next false :: mid ∧ rest = mid ++ op :: post := by
  rcases List.append_eq_append_iff.mp h with ⟨mid, hfront, hmid⟩ | ⟨mid, hinside, hmid⟩
  · obtain ⟨mid', rfl, hrest⟩ := exists_of_cons_eq hmid hop
    exact .inr ⟨mid', hfront, hrest⟩
  · cases mid with
    | nil => exact absurd (List.cons.inj hmid).1 hop
    | cons first mid =>
      obtain ⟨rfl, hpost⟩ := List.cons.inj hmid
      exact .inl ⟨mid, hinside, hpost⟩

/--
**The ops that an `enter` counts are all there, and are a block.** A second `enter` among them
is an op of that block, so its ops are there as well and ranges nest.
-/
theorem Block.inside_enter {ops front post : List StateOp} {count : Nat} {saves : Bool}
    (h : Block ops) (hops : ops = front ++ .enter count saves :: post) :
    ∃ inside rest, post = inside ++ rest ∧ inside.length = count ∧ count ≤ maxCount
      ∧ Block inside := by
  induction h generalizing front post with
  | save =>
    obtain ⟨_, _, hrest⟩ := exists_of_cons_eq hops (by simp)
    simp at hrest
  | remove =>
    obtain ⟨_, _, hrest⟩ := exists_of_cons_eq hops (by simp)
    simp at hrest
  | enter _ inner fits ih =>
    rcases List.cons_eq_append_iff.mp hops with ⟨_, hcons⟩ | ⟨_, _, hinside⟩
    · cases hcons
      exact ⟨_, [], (List.append_nil _).symm, rfl, fits, inner⟩
    · exact ih hinside
  | pastNext _ more ih =>
    obtain ⟨_, _, hrest⟩ := exists_of_cons_eq hops (by simp)
    exact ih hrest
  | pastRemove more ih =>
    obtain ⟨_, _, hnext⟩ := exists_of_cons_eq hops (by simp)
    obtain ⟨_, _, hrest⟩ := exists_of_cons_eq hnext (by simp)
    exact ih hrest
  | pastEnter _ inner fits more ihInner ihMore =>
    rcases List.cons_eq_append_iff.mp hops with ⟨_, hcons⟩ | ⟨_, _, hparts⟩
    · cases hcons
      exact ⟨_, _, rfl, rfl, fits, inner⟩
    rcases exists_of_parts_eq hparts (by simp) with ⟨mid, hinside, rfl⟩ | ⟨mid, _, hmore⟩
    · -- further inside: what is left of that part comes before the rest of this one
      obtain ⟨part, left, rfl, hlength, hfits, hblock⟩ := ihInner hinside
      exact ⟨part, _, List.append_assoc .., hlength, hfits, hblock⟩
    · exact ihMore hmore

/-- An op with `front` before it and `post` after it ends a block: it is the last of all, or the
last that an `enter` counts. -/
def EndsBlock (front post : List StateOp) : Prop :=
  post = [] ∨ ∃ first count saves mid,
    front = first ++ .enter count saves :: mid ∧ count = mid.length + 1

theorem EndsBlock.after {front post : List StateOp} (ops : List StateOp)
    (h : EndsBlock front post) : EndsBlock (ops ++ front) post := by
  rcases h with hpost | ⟨first, count, saves, mid, rfl, hcount⟩
  · exact .inl hpost
  · exact .inr ⟨ops ++ first, count, saves, mid, (List.append_assoc ..).symm, hcount⟩

/-- **A `save` stands at the end of a block.** -/
theorem Block.ends_at_save {ops front post : List StateOp} (h : Block ops)
    (hops : ops = front ++ .save :: post) : EndsBlock front post := by
  induction h generalizing front post with
  | save =>
    rcases List.cons_eq_append_iff.mp hops with ⟨_, hcons⟩ | ⟨_, _, hrest⟩
    · cases hcons
      exact .inl rfl
    · simp at hrest
  | remove =>
    obtain ⟨_, _, hrest⟩ := exists_of_cons_eq hops (by simp)
    simp at hrest
  | enter _ inner _ ih =>
    obtain ⟨_, rfl, hinside⟩ := exists_of_cons_eq hops (by simp)
    exact (ih hinside).after [_]
  | pastNext _ more ih =>
    obtain ⟨_, rfl, hrest⟩ := exists_of_cons_eq hops (by simp)
    exact (ih hrest).after [_]
  | pastRemove more ih =>
    obtain ⟨_, rfl, hnext⟩ := exists_of_cons_eq hops (by simp)
    obtain ⟨_, rfl, hrest⟩ := exists_of_cons_eq hnext (by simp)
    exact (ih hrest).after [_, _]
  | @pastEnter saves inside rest inner _ more ihInner ihMore =>
    obtain ⟨front', rfl, hparts⟩ := exists_of_cons_eq hops (by simp)
    rcases exists_of_parts_eq hparts (by simp) with ⟨mid, hinside, rfl⟩ | ⟨mid, rfl, hmore⟩
    · rcases ihInner hinside with rfl | hcounted
      · -- the last op inside, so the `enter` here is the one that counts up to it
        refine .inr ⟨[], inside.length, saves, front', rfl, ?_⟩
        rw [hinside, List.length_append]
        rfl
      · exact EndsBlock.after [_] (.inr hcounted)
    · have hends := (ihMore hmore).after (.enter inside.length saves :: (inside ++ [.next false]))
      simpa using hends

/-- What the shape of ops gives to whoever runs them. -/
structure Nests (ops : List StateOp) : Prop where
  enter : ∀ front count saves post, ops = front ++ .enter count saves :: post →
    1 ≤ count ∧ count ≤ maxCount ∧ count ≤ post.length ∧ Block (post.take count)
  save : ∀ front post, ops = front ++ .save :: post → EndsBlock front post
  last : ∀ op, ops.getLast? = some op → op.assignsSlot = true

theorem nests_nil : Nests [] where
  enter := by
    intro front count saves post h
    simp at h
  save := by
    intro front post h
    simp at h
  last := by
    intro op h
    cases h

theorem Block.nests {ops : List StateOp} (h : Block ops) : Nests ops where
  enter := by
    intro front count saves post hops
    obtain ⟨inside, rest, rfl, rfl, hfits, hblock⟩ := h.inside_enter hops
    refine ⟨hblock.length_pos, hfits, ?_, ?_⟩
    · rw [List.length_append]
      omega
    · rw [List.take_left]
      exact hblock
  save := by
    intro front post hops
    exact h.ends_at_save hops
  last := by
    intro op hop
    obtain ⟨last, hlast, hassigns⟩ := h.assignsSlot_getLast?
    rw [hlast] at hop
    exact Option.some.inj hop ▸ hassigns

end StateOp

/-! ## Walks are blocks -/

open StateOp in
/-- One step that may be the last: past a node with nothing to save in it. -/
theorem StateOp.block_next {rest : List StateOp} (saves : Bool)
    (h : trim rest = [] ∨ Block (trim rest)) :
    trim (.next saves :: rest) = [] ∨ Block (trim (.next saves :: rest)) := by
  rw [trim_cons]
  rcases h with hnil | hblock
  · rw [if_pos hnil, trim_next]
    cases saves
    · exact .inl rfl
    · exact .inr .save
  · rw [if_neg (List.ne_nil_of_length_pos hblock.length_pos)]
    exact .inr (.pastNext saves hblock)

open StateOp in
/-- **What is left of the walk over content is empty or a block**, if the elements in it fit. -/
theorem Content.block_trim_steps {oracle : Oracle} {c : Content}
    (h : c.AllFit (Element.fits oracle)) (before : Before) :
    trim (c.steps oracle before) = [] ∨ Block (trim (c.steps oracle before)) := by
  induction c generalizing before with
  | nil => exact .inl rfl
  | text s next ih =>
    have hnext := ih h .afterText
    rw [steps, pastText]
    by_cases hanchor : before.needsAnchor = true
    · rw [if_pos hanchor, trim_append]
      rcases hnext with hnil | hblock
      · rw [if_pos hnil]
        exact .inr .remove
      · rw [if_neg (List.ne_nil_of_length_pos hblock.length_pos)]
        exact .inr (.pastRemove hblock)
    · rw [if_neg hanchor]
      exact block_next _ hnext
  | expr i next ih => exact ih h _
  | element head inner next ihInner ihNext =>
    obtain ⟨hfits, hinner, hnext⟩ := h
    have hnext := ihNext hnext .nothing
    have htrim := trim_trim (inner.steps oracle .nothing)
    have hle : (trim (inner.steps oracle .nothing)).length ≤ maxCount := by
      rw [length_trim_steps]
      exact of_decide_eq_true hfits
    rw [steps]
    generalize (before.expr || isUpdated oracle head inner) = saves
    rcases ihInner hinner .nothing with hnil | hinside
    · rw [hnil, pastElement_nil]
      exact block_next saves hnext
    · have hne := List.ne_nil_of_length_pos hinside.length_pos
      rw [trim_append]
      rcases hnext with hnil | hblock
      · rw [if_pos hnil, trim_pastElement_of_ne_nil hne htrim]
        exact .inr (.enter saves hinside hle)
      · rw [if_neg (List.ne_nil_of_length_pos hblock.length_pos), pastElement,
          if_neg (by simpa using hne), List.cons_append, List.cons_append, List.append_assoc]
        exact .inr (.pastEnter saves hinside hle hblock)

/--
**The state ops of a compiled template are empty or a block**, so entered ranges nest inside
the stream, a `save` ends its block, and the last op of a block saves a node.
-/
theorem compile_block {oracle : Oracle} {svg : Bool} {fragments : List String} {a : Artifact}
    (h : (compile oracle svg fragments).result = .ok a) :
    (a.stateOps = [] ∨ StateOp.Block a.stateOps) ∧ StateOp.Nests a.stateOps := by
  obtain ⟨_, t, r, hread, rfl, _⟩ := compile_eq_ok h
  have hpromises := Template.read_promises (Element.fits oracle) (Reader.ofFragments fragments)
  rw [hread] at hpromises
  have hblock : t.root.content.walk oracle = [] ∨ StateOp.Block (t.root.content.walk oracle) :=
    Content.block_trim_steps hpromises.2.2 .nothing
  refine ⟨hblock, ?_⟩
  show StateOp.Nests (t.root.content.walk oracle)
  rcases hblock with hnil | hblock
  · rw [hnil]
    exact StateOp.nests_nil
  · exact hblock.nests

/-- Two levels of `enter`, with a text that is kept apart inside the first and an element that
is saved after it. -/
theorem compile_block_levels :
    ∃ a, (compile (fun _ => false) false
        ["ul\n  li 'a' ", " 'b'\n    i\n      u :x=", "\n  b ", ""]).result = .ok a
      ∧ a.stateOps = [.enter 5 true, .next false, .remove, .next false, .enter 1 false, .save,
        .next false, .save]
      ∧ (a.stateOps = [] ∨ StateOp.Block a.stateOps) ∧ StateOp.Nests a.stateOps := by
  generalize hf : ["ul\n  li 'a' ", " 'b'\n    i\n      u :x=", "\n  b ", ""] = fragments
  have hops : (compile (fun _ => false) false fragments).result.toOption.map Artifact.stateOps =
      some [.enter 5 true, .next false, .remove, .next false, .enter 1 false, .save, .next false,
        .save] := by
    rw [← hf]
    decide +kernel
  obtain ⟨a, hresult, hops⟩ := exists_of_toOption_map hops
  exact ⟨a, hresult, hops, compile_block hresult⟩

end Stencil
