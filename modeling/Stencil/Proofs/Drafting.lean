import Mathlib.Data.List.Induction
import Stencil.Compiler
import Stencil.Proofs.Merging

/-!
# What the tables hold

Each way of writing into the tables is described by the lists that the tables are in the end.
Markup is what is left of all pieces that were written once texts are joined; the walk is cut
and changed only behind the step of the element that is being read.

Records are only added, and refer to records before them. So what is unfolded from a record
stays the same whatever is added later, at any depth from the number of the record on.
-/

namespace Stencil

/-! ## Markup -/

namespace Part

/-- Joined markup with one more piece behind it. -/
def addLast : List Part → Part → List Part
  | [], p => [p]
  | [text s], text t => [text (s ++ t)]
  | [q], p => [q, p]
  | q :: r :: ps, p => q :: addLast (r :: ps) p

/-- The last piece is joined to the last text, if there is one. -/
theorem merge_concat (ps : List Part) (p : Part) : merge (ps ++ [p]) = addLast (merge ps) p := by
  induction ps with
  | nil => cases p <;> rfl
  | cons q ps ih =>
    cases q with
    | expr i =>
      rw [List.cons_append, merge, merge, ih]
      cases merge ps <;> cases p <;> rfl
    | text s =>
      rw [List.cons_append, merge, merge, ih]
      cases merge ps with
      | nil => cases p <;> rfl
      | cons r rest =>
        cases r with
        | expr i => cases rest <;> cases p <;> rfl
        | text t =>
          cases rest with
          | cons _ _ => rfl
          | nil =>
            cases p with
            | expr i => rfl
            | text u =>
              dsimp only [addLast]
              rw [String.append_assoc]

theorem addLast_concat (ps : List Part) (q p : Part) :
    addLast (ps ++ [q]) p = ps ++ addLast [q] p := by
  induction ps with
  | nil => rfl
  | cons r ps ih =>
    rw [List.cons_append, List.cons_append, ← ih]
    cases ps <;> simp only [List.nil_append, List.cons_append, addLast]

end Part

namespace Draft

theorem toList_addPart (markup : Array Part) (p : Part) :
    (addPart markup p).toList = Part.addLast markup.toList p := by
  cases hback : markup.back? with
  | none =>
    obtain rfl := Array.back?_eq_none_iff.mp hback
    cases p <;> rfl
  | some q =>
    obtain ⟨before, rfl⟩ := Array.back?_eq_some_iff.mp hback
    rw [Array.toList_push, Part.addLast_concat]
    cases p with
    | expr i => cases q <;> simp [addPart, Part.addLast]
    | text s => cases q <;> simp [addPart, Part.addLast]

/-- Writing piece by piece joins texts as joining them at the end does. -/
theorem toList_foldl_addPart {markup : Array Part} {written : List Part}
    (h : markup.toList = Part.merge written) (parts : List Part) :
    (parts.foldl addPart markup).toList = Part.merge (written ++ parts) := by
  induction parts generalizing markup written with
  | nil => rw [List.foldl_nil, List.append_nil, h]
  | cons p parts ih =>
    have hfirst : (addPart markup p).toList = Part.merge (written ++ [p]) := by
      rw [toList_addPart, h, Part.merge_concat]
    rw [List.foldl_cons, ih hfirst, List.append_assoc]
    rfl

end Draft

/-! ## The walk -/

theorem StateOp.trim_singleton (op : StateOp) :
    trim [op] = if op.assignsSlot then [if op.moves then .save else op] else [] := by
  unfold trim
  cases h : op.assignsSlot <;> simp [h]

namespace Draft

theorem toList_trimFrom {walk : Array StateOp} {kept steps : List StateOp}
    (h : walk.toList = kept ++ steps) :
    (trimFrom kept.length walk).toList = kept ++ StateOp.trim steps := by
  induction steps using List.reverseRecOn generalizing walk with
  | nil =>
    have hsize : ¬kept.length < walk.size := by
      rw [← Array.length_toList, h, List.append_nil]
      exact Nat.lt_irrefl _
    rw [trimFrom, dif_neg hsize, h]
    rfl
  | append_singleton steps op ih =>
    obtain ⟨before, rfl⟩ : ∃ before : Array StateOp, walk = before.push op := by
      refine ⟨walk.pop, Array.toList_inj.mp ?_⟩
      simp [h]
    have hbefore : before.toList = kept ++ steps := by
      rw [Array.toList_push, ← List.append_assoc] at h
      exact List.append_inj_left' h rfl
    have hsize : kept.length < (before.push op).size := by
      rw [← Array.length_toList, h]
      simp
    rw [trimFrom, dif_pos hsize, Array.back?_push, Array.pop_push, StateOp.trim_append,
      StateOp.trim_singleton]
    dsimp only
    by_cases hassigns : op.assignsSlot = true
    · by_cases hmoves : op.moves = true
      · simp [hassigns, hmoves, hbefore]
      · simp [hassigns, hmoves, hbefore]
    · rw [if_neg hassigns, if_neg hassigns, if_pos rfl]
      exact ih hbefore

/-- Changing the step of an element leaves the steps before it and inside it. -/
theorem toList_modify {walk : Array StateOp} {kept inside : List StateOp} {op : StateOp}
    (h : walk.toList = kept ++ op :: inside) (f : StateOp → StateOp) :
    (walk.modify kept.length f).toList = kept ++ f op :: inside := by
  rw [Array.toList_modify, h, List.modify_eq_take_cons_drop (by simp)]
  simp

theorem size_eq_of_toList {walk : Array StateOp} {steps : List StateOp} (h : walk.toList = steps) :
    walk.size = steps.length := by
  rw [← h, Array.length_toList]

/-- Saving the node of an element does not touch the steps inside it. -/
theorem toList_saveAt {walk walk' : Array StateOp} {inside : List StateOp} {step : Option Nat}
    (h : walk'.toList = walk.toList ++ inside) (hstep : (step.map (· + 1)).getD 0 = walk.size) :
    (saveAt walk' step).toList = (saveAt walk step).toList ++ inside := by
  cases step with
  | none => exact h
  | some pos =>
    have hsize : pos + 1 = walk.size := hstep
    have hsome : walk.size ≠ 0 := by omega
    obtain ⟨kept, op, rfl⟩ := Array.eq_push_of_size_ne_zero hsome
    obtain rfl : pos = kept.toList.length := by simpa using hsize
    rw [Array.toList_push] at h
    have hlast : (kept.push op).toList = kept.toList ++ op :: [] := Array.toList_push
    rw [saveAt, saveAt, toList_modify hlast, toList_modify (h.trans (List.append_assoc ..)),
      List.append_assoc]
    rfl

/-- Leaving an element completes the steps past it. -/
theorem walk_leave {d : Draft} {kept inside : List StateOp} {saves : Bool}
    (h : d.walk.toList = kept ++ .next saves :: inside) :
    (d.leave kept.length).walk.toList = kept ++ StateOp.pastElement inside saves := by
  have hsize : d.walk.size - (kept.length + 1) = inside.length := by
    rw [size_eq_of_toList h]
    simp
    omega
  unfold leave StateOp.pastElement
  dsimp only
  rw [hsize]
  cases inside with
  | nil => simp [h]
  | cons op ops =>
    simp only [List.length_cons, Nat.add_eq_zero_iff, Nat.one_ne_zero, and_false, ↓reduceIte,
      List.isEmpty_cons, Bool.false_eq_true, Array.toList_push, toList_modify h]
    simp [StateOp.assignsSlot]

theorem sites_leave (d : Draft) (pos : Nat) : (d.leave pos).sites = d.sites := by
  unfold leave
  dsimp only
  split <;> rfl

theorem size_beginNode (d : Draft) (before : Before) :
    (d.beginNode before).walk.size = d.walk.size + 1 :=
  Array.size_push ..

theorem write_nil (d : Draft) : d.write [] = d := rfl

/-- There is nothing to trim in an element without steps. -/
theorem trim_of_size {d : Draft} {step : Option Nat}
    (h : (step.map (· + 1)).getD 0 = d.walk.size) : d.trim step = d := by
  rw [trim, trimFrom, h, dif_neg (Nat.lt_irrefl _)]

end Draft

/-! ## Sites -/

namespace Sites

/-- One forest behind another. -/
def append : Sites → Sites → Sites
  | nil, after => after
  | site step props inserts inner next, after =>
    site step props inserts inner (next.append after)

/-- What is left without the elements that are not updated and hold none that is. -/
def prune : Sites → Sites
  | nil => nil
  | site step props inserts inner next =>
    if props.isEmpty && inserts.isEmpty && inner.prune = nil then next.prune
    else site step props inserts inner.prune next.prune

theorem prune_site (step : Option Nat) (props : List PropOp) (inserts : List Insert)
    (inner next : Sites) :
    (site step props inserts inner next).prune =
      (site step props inserts inner nil).prune.append next.prune := by
  rw [prune, prune]
  split <;> rfl

end Sites

/-- Elements that are not updated emit nothing. -/
theorem Sites.emit_prune (slots : Slots) (s : Sites) : s.prune.emit slots = s.emit slots := by
  induction s with
  | nil => rfl
  | site step props inserts inner next ihInner ihNext =>
    rw [prune]
    split
    · rename_i h
      simp only [Bool.and_eq_true, List.isEmpty_iff, decide_eq_true_eq] at h
      obtain ⟨⟨rfl, rfl⟩, hinner⟩ := h
      have hnothing : inner.emit slots = {} := by
        rw [← ihInner, hinner]
        rfl
      rw [ihNext, emit, hnothing]
      rfl
    · rw [emit, emit, ihInner, ihNext]

/-- Records were only added. -/
def Extends (records records' : Array SiteRecord) : Prop :=
  ∃ later : List SiteRecord, records' = records ++ later

theorem append_appendList (records : Array SiteRecord) (more later : List SiteRecord) :
    records ++ more ++ later = records ++ (more ++ later) := by
  apply Array.toList_inj.mp
  simp

namespace Extends

theorem refl (records : Array SiteRecord) : Extends records records :=
  ⟨[], by simp⟩

theorem push (records : Array SiteRecord) (r : SiteRecord) : Extends records (records.push r) :=
  ⟨[r], by simp⟩

theorem trans {a b c : Array SiteRecord} (hab : Extends a b) (hbc : Extends b c) :
    Extends a c := by
  obtain ⟨more, rfl⟩ := hab
  obtain ⟨later, rfl⟩ := hbc
  exact ⟨more ++ later, append_appendList ..⟩

end Extends

/-- The records numbered `ids` are there, and unfold to a forest whatever comes after them. -/
structure Unfolds (records : Array SiteRecord) (ids : List Nat) (forest : Sites) : Prop where
  there : ∀ id ∈ ids, id < records.size
  unfold_eq : ∀ (later : List SiteRecord) (depth : Nat), records.size ≤ depth →
    Sites.unfold (records ++ later) depth ids = forest

namespace Unfolds

variable {records records' : Array SiteRecord} {ids ids' : List Nat} {forest forest' : Sites}

theorem nil (records : Array SiteRecord) : Unfolds records [] .nil where
  there := by simp
  unfold_eq _ depth _ := by cases depth <;> rfl

/-- Records are not changed by others behind them. -/
theorem later (h : Unfolds records ids forest) (hlater : Extends records records') :
    Unfolds records' ids forest := by
  obtain ⟨more, rfl⟩ := hlater
  have hsize : records.size ≤ (records ++ more).size := by
    rw [← Array.length_toList, ← Array.length_toList, Array.toList_appendList, List.length_append]
    exact Nat.le_add_right ..
  refine ⟨fun id hid => Nat.lt_of_lt_of_le (h.there id hid) hsize, fun later depth hdepth => ?_⟩
  rw [append_appendList]
  exact h.unfold_eq _ depth (Nat.le_trans hsize hdepth)

theorem unfold_append (records : Array SiteRecord) (depth : Nat) (ids ids' : List Nat) :
    Sites.unfold records depth (ids ++ ids') =
      (Sites.unfold records depth ids).append (Sites.unfold records depth ids') := by
  cases depth with
  | zero => rfl
  | succ depth =>
    induction ids with
    | nil => rfl
    | cons id ids ih =>
      simp only [Sites.unfold, List.cons_append, List.foldr_cons] at ih ⊢
      rw [ih]
      cases records[id]? <;> rfl

theorem append (h : Unfolds records ids forest) (h' : Unfolds records ids' forest') :
    Unfolds records (ids ++ ids') (forest.append forest') where
  there id hid := (List.mem_append.mp hid).elim (h.there id) (h'.there id)
  unfold_eq later depth hdepth := by
    rw [unfold_append, h.unfold_eq later depth hdepth, h'.unfold_eq later depth hdepth]

/-- A new record unfolds to its element, with what the records inside it unfold to. -/
theorem push (h : Unfolds records ids forest) (step : Option Nat) (props : List PropOp)
    (inserts : List Insert) :
    Unfolds (records.push ⟨step, props, inserts, ids⟩) [records.size]
      (.site step props inserts forest .nil) where
  there := by simp
  unfold_eq later depth hdepth := by
    obtain _ | depth := depth
    · simp at hdepth
    have hget : (records.push ⟨step, props, inserts, ids⟩ ++ later)[records.size]? =
        some ⟨step, props, inserts, ids⟩ := by
      rw [← Array.getElem?_toList]
      simp
    have happend : records.push ⟨step, props, inserts, ids⟩ ++ later =
        records ++ (⟨step, props, inserts, ids⟩ :: later) := by
      apply Array.toList_inj.mp
      simp
    rw [Sites.unfold, List.foldr_cons, List.foldr_nil, hget]
    dsimp only
    rw [happend, h.unfold_eq _ depth (by simpa using hdepth)]

/-- Only no records at all unfold to nothing. -/
theorem eq_nil_iff (h : Unfolds records ids forest) : forest = .nil ↔ ids = [] := by
  cases ids with
  | nil =>
    have := h.unfold_eq [] (records.size + 1) (Nat.le_succ _)
    simp [← this, Sites.unfold]
  | cons id ids =>
    have hid := h.there id (List.mem_cons_self ..)
    have heq := h.unfold_eq [] (records.size + 1) (Nat.le_succ _)
    simp only [Sites.unfold, List.foldr_cons] at heq
    rw [Array.getElem?_eq_getElem (by simpa using hid)] at heq
    simp [← heq]

end Unfolds

namespace Draft

variable {d : Draft} {inner : List Nat} {forest : Sites}

theorem walk_close (d : Draft) (step : Option Nat) (props : List PropOp) (inserts : List Insert)
    (inner : List Nat) :
    (d.close step props inserts inner).2.walk =
      if props.isEmpty && inserts.isEmpty then d.walk
      else saveAt d.walk step := by
  unfold close
  by_cases h : (props.isEmpty && inserts.isEmpty) = true
  · rw [if_pos h, if_pos h]
    split <;> rfl
  · rw [if_neg h, if_neg h]

/-- A completed element has a record exactly if it is not pruned. -/
theorem sites_close (h : Unfolds d.sites inner forest.prune) (step : Option Nat)
    (props : List PropOp) (inserts : List Insert) :
    Extends d.sites (d.close step props inserts inner).2.sites
      ∧ Unfolds (d.close step props inserts inner).2.sites
        (d.close step props inserts inner).1.toList
        (Sites.site step props inserts forest .nil).prune := by
  have hnone := h.eq_nil_iff
  unfold close
  rw [Sites.prune]
  by_cases hquiet : (props.isEmpty && inserts.isEmpty) = true
  · by_cases hinner : inner = []
    · subst hinner
      simp only [hquiet, hnone.mpr rfl, ↓reduceIte, List.isEmpty_nil, decide_true, Bool.and_self]
      exact ⟨.refl _, .nil _⟩
    · have hprune : forest.prune ≠ .nil := fun hp => hinner (hnone.mp hp)
      simp only [hquiet, hprune, ↓reduceIte, List.isEmpty_iff, hinner, decide_false, Bool.and_false,
        Bool.false_eq_true]
      exact ⟨.push .., h.push step props inserts⟩
  · simp only [hquiet, Bool.false_eq_true, ↓reduceIte, Bool.false_and]
    exact ⟨.push .., h.push step props inserts⟩

/-! ## What is added -/

/--
Between two states of the tables, this markup, these expressions and names were written, and
so many expressions as content. The walk and the records are left open.
-/
structure Adds (d d' : Draft) (parts : List Part) (exprs : List Nat) (data : List String)
    (children : Nat) (static : Bool) : Prop where
  rootTag : d'.rootTag = d.rootTag
  hasStatics : d'.hasStatics = (d.hasStatics || static)
  children : d'.children = d.children + children
  markup : ∀ written, d.markup.toList = Part.merge written →
    d'.markup.toList = Part.merge (written ++ parts)
  data : d'.data.toList = d.data.toList ++ data
  exprs : d'.exprs.toList = d.exprs.toList ++ exprs

namespace Adds

variable {d d' d'' : Draft} {parts parts' : List Part} {exprs exprs' : List Nat}
  {data data' : List String} {children children' : Nat} {static static' : Bool}

theorem trans (h : Adds d d' parts exprs data children static)
    (h' : Adds d' d'' parts' exprs' data' children' static') :
    Adds d d'' (parts ++ parts') (exprs ++ exprs') (data ++ data') (children + children')
      (static || static') where
  rootTag := h'.rootTag.trans h.rootTag
  hasStatics := by rw [h'.hasStatics, h.hasStatics, Bool.or_assoc]
  children := by rw [h'.children, h.children, Nat.add_assoc]
  markup written hw := by rw [h'.markup _ (h.markup written hw), List.append_assoc]
  data := by rw [h'.data, h.data, List.append_assoc]
  exprs := by rw [h'.exprs, h.exprs, List.append_assoc]

theorem size_data (h : Adds d d' parts exprs data children static) :
    d'.data.size = d.data.size + data.length := by
  rw [← Array.length_toList, h.data, List.length_append, Array.length_toList]

theorem size_exprs (h : Adds d d' parts exprs data children static) :
    d'.exprs.size = d.exprs.size + exprs.length := by
  rw [← Array.length_toList, h.exprs, List.length_append, Array.length_toList]

/-- What is done to the walk and the records adds nothing else. -/
theorem rest (d : Draft) (walk : Array StateOp) (sites : Array SiteRecord) :
    Adds d { d with walk, sites } [] [] [] 0 false where
  rootTag := rfl
  hasStatics := (Bool.or_false _).symm
  children := rfl
  markup written hw := by rw [List.append_nil, hw]
  data := (List.append_nil _).symm
  exprs := (List.append_nil _).symm

theorem say (d : Draft) (parts : List Part) (exprs : List Nat) (data : List String) :
    Adds d (d.say parts exprs data) parts exprs data 0 (!parts.isEmpty) where
  rootTag := rfl
  hasStatics := rfl
  children := rfl
  markup _ hw := toList_foldl_addPart hw parts
  data := Array.toList_appendList
  exprs := Array.toList_appendList

theorem write (d : Draft) (parts : List Part) : Adds d (d.write parts) parts [] [] 0 false where
  rootTag := rfl
  hasStatics := (Bool.or_false _).symm
  children := rfl
  markup _ hw := toList_foldl_addPart hw parts
  data := (List.append_nil _).symm
  exprs := (List.append_nil _).symm

theorem addChild (d : Draft) (i : Nat) : Adds d (d.addChild i) [] [i] [] 1 false where
  rootTag := rfl
  hasStatics := (Bool.or_false _).symm
  children := rfl
  markup written hw := by rw [List.append_nil, ← hw]; rfl
  data := (List.append_nil _).symm
  exprs := Array.toList_push

theorem beginNode (d : Draft) (before : Before) :
    Adds d (d.beginNode before) [] [] [] 0 true where
  rootTag := rfl
  hasStatics := (Bool.or_true _).symm
  children := rfl
  markup written hw := by rw [List.append_nil, ← hw]; rfl
  data := (List.append_nil _).symm
  exprs := (List.append_nil _).symm

theorem addText (d : Draft) (before : Before) (text : String) :
    Adds d (d.addText before text)
      ((if before.needsAnchor then [.text "<!>"] else []) ++ [.text (Text.escape .running text)])
      [] [] 0 false := by
  unfold Draft.addText
  by_cases h : before.needsAnchor = true
  · rw [if_pos h, if_pos h]
    exact (write d _).trans (rest _ _ _)
  · rw [if_neg h, if_neg h]
    exact write d _

theorem leave (d : Draft) (pos : Nat) : Adds d (d.leave pos) [] [] [] 0 false := by
  unfold Draft.leave
  dsimp only
  split
  · exact rest d _ _
  · exact rest d _ _

theorem close (d : Draft) (step : Option Nat) (props : List PropOp) (inserts : List Insert)
    (inner : List Nat) : Adds d (d.close step props inserts inner).2 [] [] [] 0 false := by
  unfold Draft.close
  split
  · split
    · exact rest d _ _
    · exact rest d _ _
  · exact rest d _ _

end Adds

end Draft

end Stencil
