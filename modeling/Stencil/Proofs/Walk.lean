import Stencil.Proofs.Emission
import Stencil.Proofs.StaticTree

/-!
# Running a walk over the static tree

`StateOp.run` is what the state ops mean: it goes from node to node and keeps the places
of the nodes that are saved, in the order they are saved. It is strict. An op that moves
must find a node where it moves to, an op that saves must find a node to save, and an op
that removes must stand on an anchor with a node after it; otherwise there is no result.

`Content.marks` says which nodes have to be saved and by which op of the walk. Two facts
tie it to the walk that is built. The ops that give out a slot stand exactly at the
steps of the marks (`findIdxs_walk`), and a run over the nodes of the content saves
exactly the places of the marks (`run_walk`). Since both go through one list, the node
that a run saves under a number is the one that the op with that slot was made for.
-/

namespace Stencil

namespace Nodes

def isNil : Nodes → Bool
  | nil => true
  | _ => false

def isAnchor : Nodes → Bool
  | anchor _ => true
  | _ => false

theorem isNil_of_after {here : Nodes} (h : here.after.isNil = false) : here.isNil = false := by
  cases here with
  | nil => exact h
  | _ => rfl

theorem isNil_of_inside {here : Nodes} (h : here.inside.isNil = false) : here.isNil = false := by
  cases here with
  | nil => exact h
  | _ => rfl

end Nodes

namespace StateOp

def kept (saves : Bool) (place : Place) : List Place :=
  if saves then [place] else []

/--
Runs ops with `here` the current node and its later siblings: node `i` of the element at
`p`. Gives the places of the nodes that were saved, in order.
-/
def run (p : Place) (i : Nat) (here : Nodes) : List StateOp → Option (List Place)
  | [] => some []
  | .next saves :: ops =>
    if here.after.isNil then none
    else (run p (i + 1) here.after ops).map (kept saves (i :: p) ++ ·)
  | .enter count saves :: ops =>
    if ops.length < count || here.inside.isNil then none
    else
      (run (i :: p) 0 here.inside (ops.take count)).bind fun inside =>
        (run p i here (ops.drop count)).map fun rest =>
          kept saves (i :: p) ++ (inside ++ rest)
  | .remove :: ops =>
    if !here.isAnchor || here.after.isNil then none
    else (run p (i + 1) here.after ops).map (((i + 1) :: p) :: ·)
  | .save :: _ => if here.isNil then none else some [i :: p]
termination_by ops => ops.length
decreasing_by all_goals simp only [List.length_take, List.length_drop, List.length_cons]; omega

/-! ## What each op does -/

section Steps

variable {p : Place} {i : Nat} {here : Nodes} {ops : List StateOp} {places : List Place}

theorem run_nil : run p i here [] = some [] := by
  rw [run]

theorem run_next (saves : Bool) (h : here.after.isNil = false)
    (hr : run p (i + 1) here.after ops = some places) :
    run p i here (.next saves :: ops) = some (kept saves (i :: p) ++ places) := by
  rw [run, if_neg (by simp [h]), hr]
  rfl

theorem run_enter {tag : String} {attrs : List Symbol} {inner next : Nodes}
    {inside : List StateOp} {found : List Place} (saves : Bool) (h : inner.isNil = false)
    (hi : run (i :: p) 0 inner inside = some found)
    (hr : run p i (.element tag attrs inner next) ops = some places) :
    run p i (.element tag attrs inner next) (.enter inside.length saves :: (inside ++ ops)) =
      some (kept saves (i :: p) ++ (found ++ places)) := by
  rw [run, if_neg (by simp [Nodes.inside, h]), List.take_left, List.drop_left, Nodes.inside, hi, hr]
  rfl

theorem run_remove (ha : here.isAnchor = true) (h : here.after.isNil = false)
    (hr : run p (i + 1) here.after ops = some places) :
    run p i here (.remove :: ops) = some (((i + 1) :: p) :: places) := by
  rw [run, if_neg (by simp [ha, h]), hr]
  rfl

theorem run_save (h : here.isNil = false) : run p i here (.save :: ops) = some [i :: p] := by
  rw [run, if_neg (by simp [h])]

end Steps

theorem eq_of_mem_kept {saves : Bool} {place q : Place} (h : q ∈ kept saves place) :
    q = place := by
  unfold kept at h
  split at h
  · exact List.mem_singleton.mp h
  · cases h

/-- Places are counted as they are in the tree: every node that a run saves is there. -/
theorem isNil_find_of_run {root here : Nodes} {p : Place} {i : Nat} {ops : List StateOp}
    {saves : List Place} (hhere : (root.find p).inside.drop i = here)
    (h : run p i here ops = some saves) : ∀ q ∈ saves, (root.find q).isNil = false := by
  fun_induction run p i here ops generalizing saves with
  | case1 p i here =>
    cases h
    exact List.forall_mem_nil _
  | case2 => cases h
  | case3 p i here saving ops hnil ih =>
    rw [Bool.not_eq_true] at hnil
    obtain ⟨rest, hrest, rfl⟩ := Option.map_eq_some_iff.mp h
    intro q hq
    rcases List.mem_append.mp hq with hq | hq
    · rw [eq_of_mem_kept hq, Nodes.find, hhere]
      exact Nodes.isNil_of_after hnil
    · exact ih (by rw [← Nodes.after_drop, hhere]) hrest q hq
  | case4 => cases h
  | case5 p i here count saving ops hnil ihInside ihRest =>
    rw [Bool.or_eq_true, not_or, Bool.not_eq_true, Bool.not_eq_true] at hnil
    obtain ⟨inside, hinside, hmap⟩ := Option.bind_eq_some_iff.mp h
    obtain ⟨rest, hrest, rfl⟩ := Option.map_eq_some_iff.mp hmap
    intro q hq
    rcases List.mem_append.mp hq with hq | hq
    · rw [eq_of_mem_kept hq, Nodes.find, hhere]
      exact Nodes.isNil_of_inside hnil.2
    · rcases List.mem_append.mp hq with hq | hq
      · exact ihInside (by rw [Nodes.find, hhere]; rfl) hinside q hq
      · exact ihRest hhere hrest q hq
  | case6 => cases h
  | case7 p i here ops hnil ih =>
    rw [Bool.or_eq_true, not_or, Bool.not_eq_true, Bool.not_eq_true] at hnil
    obtain ⟨rest, hrest, rfl⟩ := Option.map_eq_some_iff.mp h
    have hafter : (root.find p).inside.drop (i + 1) = here.after := by
      rw [← Nodes.after_drop, hhere]
    intro q hq
    rcases List.mem_cons.mp hq with rfl | hq
    · rw [Nodes.find, hafter]
      exact hnil.2
    · exact ih hafter hrest q hq
  | case8 => cases h
  | case9 p i here ops hnil =>
    cases h
    intro q hq
    rw [List.mem_singleton.mp hq, Nodes.find, hhere]
    exact Bool.not_eq_true _ ▸ hnil

/-! ## Trimming loses no slot -/

theorem findIdxs_trim (ops : List StateOp) (start : Nat) :
    (trim ops).findIdxs assignsSlot start = ops.findIdxs assignsSlot start := by
  induction ops generalizing start with
  | nil => rfl
  | cons op ops ih =>
    have hrest := ih (start + 1)
    rw [trim_cons, List.findIdxs_cons, ← hrest]
    by_cases h : trim ops = []
    · -- nothing after this op gives out a slot, so the op is the last or is dropped too
      rw [if_pos h, h, List.findIdxs_nil]
      cases op with
      | next saves => cases saves <;> rfl
      | enter count saves => cases saves <;> rfl
      | remove => rfl
      | save => rfl
    · rw [if_neg h, List.findIdxs_cons]

theorem trim_pastElement_of_ne_nil {inside : List StateOp} (h : inside ≠ [])
    (htrim : trim inside = inside) (saves : Bool) :
    trim (pastElement inside saves) = .enter inside.length saves :: inside := by
  have hlast : trim [StateOp.next false] = [] := rfl
  unfold pastElement
  rw [if_neg (by simpa using h), List.cons_append, trim_cons, trim_append, if_pos hlast, htrim,
    if_neg h]

theorem pastElement_nil (saves : Bool) : pastElement [] saves = [.next saves] := rfl

theorem trim_next (saves : Bool) : trim [.next saves] = if saves then [.save] else [] := by
  cases saves <;> rfl

end StateOp

/-! ## The nodes that have to be saved -/

/-- A node that the walk saves: the op that saves it, and where the node is. -/
structure Mark where
  step : Nat
  place : Place
  deriving DecidableEq, Repr

namespace Content

/-- The marks of content. The walk over it starts with op `pos`; its nodes are those of
the element at `p` from node `i` on. -/
def marks (oracle : Oracle) : Before → Nat → Place → Nat → Content → List Mark
  | _, _, _, _, nil => []
  | before, pos, p, i, text _ next =>
    (if before.expr then [⟨pos, (i + before.anchors) :: p⟩] else [])
      ++ next.marks oracle .afterText (pos + before.widthOfText) p (i + before.anchors + 1)
  | before, pos, p, i, expr _ next => next.marks oracle before.afterExpr pos p i
  | before, pos, p, i, element head inner next =>
    (if before.expr || isUpdated oracle head inner then [⟨pos, i :: p⟩] else [])
      ++ (inner.marks oracle .nothing (pos + 1) (i :: p) 0
        ++ next.marks oracle .nothing (pos + inner.width oracle) p (i + 1))

theorem findIdxs_pastText (before : Before) (pos : Nat) (place : Place) :
    (StateOp.pastText before).findIdxs StateOp.assignsSlot pos =
      (if before.expr then [(⟨pos, place⟩ : Mark)] else []).map Mark.step := by
  unfold StateOp.pastText Before.needsAnchor
  cases before.text <;> cases before.expr <;> rfl

theorem length_pastText (before : Before) :
    (StateOp.pastText before).length = before.widthOfText := by
  unfold StateOp.pastText Before.widthOfText
  split <;> rfl

/-- The ops of a walk that give out a slot are those of the marks, in order. -/
theorem findIdxs_steps (oracle : Oracle) (before : Before) (pos : Nat) (p : Place) (i : Nat)
    (c : Content) :
    (c.steps oracle before).findIdxs StateOp.assignsSlot pos =
      (c.marks oracle before pos p i).map Mark.step := by
  induction c generalizing before pos p i with
  | nil => rfl
  | text s next ih =>
    rw [steps, marks, List.findIdxs_append, List.map_append, length_pastText,
      findIdxs_pastText before pos ((i + before.anchors) :: p)]
    rw [ih]
  | expr j next ih => exact ih _ _ _ _
  | element head inner next ihInner ihNext =>
    have hinner := ihInner .nothing (pos + 1) (i :: p) 0
    have hlen := length_trim_steps oracle .nothing inner
    rw [steps, marks, List.findIdxs_append, List.map_append, List.map_append, length_pastElement,
      hlen, ← ihNext .nothing (pos + inner.width oracle) p (i + 1), ← List.append_assoc]
    refine congrArg (· ++ _) ?_
    -- the op for the element itself, then those inside, which trimming did not change
    rw [← hinner, ← StateOp.findIdxs_trim (inner.steps oracle .nothing)]
    unfold StateOp.pastElement
    generalize hsaves : (before.expr || isUpdated oracle head inner) = saves
    by_cases h : StateOp.trim (inner.steps oracle .nothing) = []
    · rw [h]
      cases saves <;> rfl
    · rw [if_neg (by simpa using h), List.cons_append, List.findIdxs_cons, List.findIdxs_append]
      cases saves <;> simp [StateOp.assignsSlot]

theorem findIdxs_walk (oracle : Oracle) (c : Content) :
    Slots.steps (c.walk oracle) = (c.marks oracle .nothing 0 [] 0).map Mark.step := by
  rw [Slots.steps, walk, StateOp.findIdxs_trim]
  exact findIdxs_steps oracle .nothing 0 [] 0 c

/-! ## A run saves the marked places -/

theorem isNil_nodes {oracle : Oracle} {before : Before} {c : Content}
    (h : StateOp.trim (c.steps oracle before) ≠ []) : (c.nodes oracle before).isNil = false := by
  induction c generalizing before with
  | nil => exact absurd rfl h
  | text s next _ =>
    rw [nodes]
    split <;> rfl
  | expr i next ih => exact ih h
  | element head inner next _ _ => rfl

theorem anchors_eq_one {before : Before} (h : before.needsAnchor = true) : before.anchors = 1 :=
  if_pos h

theorem anchors_eq_zero {before : Before} (h : ¬before.needsAnchor = true) :
    before.anchors = 0 :=
  if_neg h

/-- A text that is the last node to be saved, or is not saved at all. -/
theorem run_lastText {before : Before} {p : Place} {i : Nat} {s : List Char} {next : Nodes} :
    StateOp.run p i (if before.needsAnchor then .anchor (.text s next) else .text s next)
        (StateOp.trim (StateOp.pastText before)) =
      some (if before.expr then [(i + before.anchors) :: p] else []) := by
  unfold StateOp.pastText
  by_cases hanchor : before.needsAnchor = true
  · have hexpr : before.expr = true := (Bool.and_eq_true_iff.mp hanchor).2
    have htrim : StateOp.trim [.remove, .next false] = [.remove] := rfl
    rw [if_pos hanchor, if_pos hanchor, if_pos hexpr, anchors_eq_one hanchor, htrim]
    exact StateOp.run_remove rfl rfl StateOp.run_nil
  · rw [if_neg hanchor, if_neg hanchor, anchors_eq_zero hanchor, StateOp.trim_next]
    by_cases hexpr : before.expr = true
    · rw [if_pos hexpr, if_pos hexpr]
      exact StateOp.run_save rfl
    · rw [if_neg hexpr, if_neg hexpr]
      exact StateOp.run_nil

/-- Past a text to a node that is saved later. -/
theorem run_pastText {before : Before} {p : Place} {i : Nat} {s : List Char} {next : Nodes}
    {more : List StateOp} {places : List Place} (hnext : next.isNil = false)
    (hrun : StateOp.run p (i + before.anchors + 1) next more = some places) :
    StateOp.run p i (if before.needsAnchor then .anchor (.text s next) else .text s next)
        (StateOp.pastText before ++ more) =
      some ((if before.expr then [(i + before.anchors) :: p] else []) ++ places) := by
  unfold StateOp.pastText
  by_cases hanchor : before.needsAnchor = true
  · have hexpr : before.expr = true := (Bool.and_eq_true_iff.mp hanchor).2
    rw [anchors_eq_one hanchor] at hrun ⊢
    rw [if_pos hanchor, if_pos hanchor, if_pos hexpr]
    exact StateOp.run_remove rfl rfl (StateOp.run_next false hnext hrun)
  · rw [anchors_eq_zero hanchor] at hrun ⊢
    rw [if_neg hanchor, if_neg hanchor]
    exact StateOp.run_next before.expr hnext hrun

/-- **A run of the trimmed walk saves exactly the marked places**, and finds a node wherever
it looks for one. -/
theorem run_trim_steps (oracle : Oracle) (before : Before) (pos : Nat) (p : Place) (i : Nat)
    (c : Content) :
    StateOp.run p i (c.nodes oracle before) (StateOp.trim (c.steps oracle before)) =
      some ((c.marks oracle before pos p i).map Mark.place) := by
  induction c generalizing before pos p i with
  | nil => exact StateOp.run_nil
  | text s next ih =>
    have hnext := ih .afterText (pos + before.widthOfText) p (i + before.anchors + 1)
    -- whether the walk goes on past the text depends on whether anything after it is saved
    have hmark : (if before.expr then [(⟨pos, (i + before.anchors) :: p⟩ : Mark)] else []).map
        Mark.place = if before.expr then [(i + before.anchors) :: p] else [] := by
      split <;> rfl
    rw [steps, nodes, marks, StateOp.trim_append, List.map_append, hmark]
    by_cases h : StateOp.trim (next.steps oracle .afterText) = []
    · rw [h, StateOp.run_nil, Option.some.injEq] at hnext
      rw [if_pos h, ← hnext, List.append_nil]
      exact run_lastText
    · rw [if_neg h]
      exact run_pastText (isNil_nodes h) hnext
  | expr j next ih => exact ih _ _ _ _
  | element head inner next ihInner ihNext =>
    have hnext := ihNext .nothing (pos + inner.width oracle) p (i + 1)
    have hinner := ihInner .nothing (pos + 1) (i :: p) 0
    have htrim := StateOp.trim_trim (inner.steps oracle .nothing)
    rw [steps, nodes, marks, StateOp.trim_append, List.map_append, List.map_append]
    generalize (before.expr || isUpdated oracle head inner) = saves
    have hmark : (if saves then [(⟨pos, i :: p⟩ : Mark)] else []).map Mark.place =
        StateOp.kept saves (i :: p) := by
      cases saves <;> rfl
    rw [hmark]
    by_cases hi : StateOp.trim (inner.steps oracle .nothing) = []
    · -- nothing is saved inside, so the element is one step like a text
      rw [hi, StateOp.run_nil, Option.some.injEq] at hinner
      rw [hi, ← hinner, StateOp.pastElement_nil]
      by_cases h : StateOp.trim (next.steps oracle .nothing) = []
      · rw [h, StateOp.run_nil, Option.some.injEq] at hnext
        rw [if_pos h, ← hnext, StateOp.trim_next]
        cases saves
        · exact StateOp.run_nil
        · exact StateOp.run_save rfl
      · rw [if_neg h]
        exact StateOp.run_next saves (isNil_nodes h) hnext
    · -- the walk enters the element, and goes on from it only if it has to
      by_cases h : StateOp.trim (next.steps oracle .nothing) = []
      · rw [h, StateOp.run_nil, Option.some.injEq] at hnext
        rw [if_pos h, ← hnext, StateOp.trim_pastElement_of_ne_nil hi htrim]
        nth_rewrite 2 [← List.append_nil (StateOp.trim _)]
        exact StateOp.run_enter saves (isNil_nodes hi) hinner StateOp.run_nil
      · rw [if_neg h, StateOp.pastElement, if_neg (by simpa using hi), List.cons_append,
          List.cons_append, List.append_assoc]
        exact StateOp.run_enter saves (isNil_nodes hi) hinner
          (StateOp.run_next false (isNil_nodes h) hnext)

theorem run_walk (oracle : Oracle) (c : Content) :
    StateOp.run [] 0 (c.nodes oracle .nothing) (c.walk oracle) =
      some ((c.marks oracle .nothing 0 [] 0).map Mark.place) :=
  run_trim_steps oracle .nothing 0 [] 0 c

end Content
end Stencil
