import Stencil.Proofs.Drafting
import Stencil.Proofs.Reading
import Stencil.Proofs.References

/-!
# One pass is enough

Reading into the tables is compared with reading an element and computing everything from it
afterwards. The two readings take the same steps and stop at the same faults. When both go
through, the tables have grown by what the element that was read says: its markup and its
expressions and names, the steps of its walk, and records that unfold to its sites.

So what a compiler gives does not depend on the templates it was given before, and it is
always left with empty tables.
-/

namespace Stencil

/-- The walk and the records are left as they were. -/
structure Draft.SameNodes (d d' : Draft) : Prop where
  walk : d'.walk = d.walk
  sites : d'.sites = d.sites

theorem Draft.SameNodes.trans {d d' d'' : Draft} (h : d.SameNodes d') (h' : d'.SameNodes d'') :
    d.SameNodes d'' :=
  ⟨h'.walk.trans h.walk, h'.sites.trans h.sites⟩

theorem Draft.sameNodes_name (d : Draft) (step : Option Nat) (tag : String) :
    d.SameNodes (d.name step tag) := by
  unfold Draft.name
  split
  · exact ⟨rfl, rfl⟩
  · exact ⟨rfl, rfl⟩

theorem Draft.exprs_name (d : Draft) (step : Option Nat) (tag : String) :
    (d.name step tag).exprs = d.exprs := by
  unfold Draft.name
  split <;> rfl

theorem Draft.data_name (d : Draft) (step : Option Nat) (tag : String) :
    (d.name step tag).data = d.data := by
  unfold Draft.name
  split <;> rfl

namespace Reader

variable {α β : Type}

/-- Reading into the tables stops where reading stops, with the same fault, or with something
that is as it should be for what is read. -/
def Tracks (x : Except Failure (α × Reader)) (y : Drafted (β × Reader))
    (good : α → β → Draft → Prop) : Prop :=
  match x with
  | .error failure => y.result = .error failure
  | .ok (a, s) => ∃ b, y.result = .ok (b, s) ∧ good a b y.draft

/-- What is put in front of something that was read does not change where reading stops. -/
theorem Tracks.step {α' β' : Type} {x : Except Failure (α × Reader)} {y : Drafted (β × Reader)}
    {good : α → β → Draft → Prop} (h : Tracks x y good) {x' : Except Failure (α' × Reader)}
    {f : α → α'} (herror : ∀ failure, x = .error failure → x' = .error failure)
    (hok : ∀ a s, x = .ok (a, s) → x' = .ok (f a, s)) {good' : α' → β' → Draft → Prop} (g : β → β')
    (hgood : ∀ a b, good a b y.draft → good' (f a) (g b) y.draft) :
    Tracks x' (y.map fun found => (g found.1, found.2)) good' := by
  cases x with
  | error failure =>
    rw [herror failure rfl]
    exact congrArg (Except.map _) h
  | ok found =>
    obtain ⟨a, s⟩ := found
    obtain ⟨b, hresult, hb⟩ := h
    rw [hok a s rfl]
    exact ⟨g b, congrArg (Except.map _) hresult, hgood a b hb⟩

/-! ## Opening tags -/

theorem not_isEmpty_append (ps qs : List α) :
    (!(ps ++ qs).isEmpty) = (!ps.isEmpty || !qs.isEmpty) := by
  cases ps <;> simp

theorem bindingsInto_tracks (oracle : Oracle) (base : Nat) (r : Reader) (d : Draft) :
    Tracks (r.bindings base) (r.bindingsInto oracle base d) fun bs props d' =>
      props = Binding.propsAll oracle d.exprs.size d.data.size bs
        ∧ d.Adds d' (bs.flatMap (·.markup oracle)) (bs.flatMap (·.exprs oracle))
          (bs.flatMap (·.data oracle)) 0 (!(bs.flatMap (·.markup oracle)).isEmpty)
        ∧ d.SameNodes d' := by
  fun_induction bindings base r generalizing d with
  | case1 r hindent =>
    rw [bindingsInto, if_pos hindent]
    exact ⟨[], rfl, rfl, .rest d _ _, rfl, rfl⟩
  | case2 r hindent hb =>
    rw [bindingsInto_eq, if_neg hindent, hb]
    exact ⟨[], rfl, rfl, .rest d _ _, rfl, rfl⟩
  | case3 r hindent failure hb =>
    rw [bindingsInto_eq, if_neg hindent, hb]
    rfl
  | case4 r hindent b s hb hlt failure hrest ih =>
    have ih := ih (d.say (b.markup oracle) (b.exprs oracle) (b.data oracle))
    rw [hrest] at ih
    rw [bindingsInto_eq, if_neg hindent, hb]
    exact congrArg (Except.map _) ih
  | case5 r hindent b s hb hlt bs t hrest ih =>
    have hsay := Draft.Adds.say d (b.markup oracle) (b.exprs oracle) (b.data oracle)
    have ih := ih (d.say (b.markup oracle) (b.exprs oracle) (b.data oracle))
    rw [hrest] at ih
    obtain ⟨more, hresult, hprops, hadds, hsame⟩ := ih
    rw [bindingsInto_eq, if_neg hindent, hb]
    refine ⟨_, congrArg (Except.map _) hresult, ?_, ?_, hsame.walk, hsame.sites⟩
    · rw [hprops, hsay.size_exprs, hsay.size_data]
      rfl
    · rw [List.flatMap_cons, not_isEmpty_append]
      exact hsay.trans hadds

theorem headInto_tracks (oracle : Oracle) (step : Option Nat) (r : Reader) (d : Draft) :
    Tracks r.head (r.headInto oracle step d) fun head opened d' =>
      opened = ⟨head.tag, head.props oracle d.exprs.size d.data.size⟩
        ∧ (d.name step head.tag).Adds d' (head.opening oracle) (head.exprs oracle)
          (head.data oracle) 0 (!(head.attrs oracle).isEmpty)
        ∧ d.SameNodes d' := by
  unfold head headInto
  cases hname : r.name? with
  | none => rfl
  | some found =>
    obtain ⟨tag, s⟩ := found
    dsimp only
    cases hclass : (s.liftIndent r.indent).classPart with
    | error failure => rfl
    | ok found =>
      obtain ⟨cls, t⟩ := found
      dsimp only
      have hname := Draft.Adds.write (d.name step tag) [.text ("<" ++ tag)]
      have hnamed := d.sameNodes_name step tag
      generalize hbegun : (d.name step tag).write [.text ("<" ++ tag)] = begun at hname ⊢
      have hclass := Draft.Adds.say begun (cls.markup oracle) (cls.exprs oracle) []
      have hrest := bindingsInto_tracks oracle r.indent t.skipBlank
        (begun.say (cls.markup oracle) (cls.exprs oracle) [])
      generalize t.skipBlank.bindingsInto oracle r.indent _ = rest at hrest ⊢
      cases hbindings : t.skipBlank.bindings r.indent with
      | error failure =>
        rw [hbindings] at hrest
        have hresult : rest.result = .error failure := hrest
        simp only [hresult]
        rfl
      | ok found =>
        obtain ⟨bs, u⟩ := found
        rw [hbindings] at hrest
        obtain ⟨more, hresult, rfl, hadds, hsame⟩ := hrest
        simp only [hresult]
        have hopened := ((hname.trans hclass).trans hadds).trans (.write rest.draft [.text ">"])
        refine ⟨_, rfl, ?_, ?_, ?_⟩
        · rw [hclass.size_exprs, hclass.size_data, hname.size_exprs, hname.size_data,
            Draft.exprs_name, Draft.data_name]
          rfl
        · rw [Head.attrs, not_isEmpty_append]
          simpa [Head.opening, Head.attrs, Head.exprs, Head.data] using hopened
        · subst hbegun
          exact hnamed.trans ⟨hsame.walk, hsame.sites⟩

/-! ## Elements and content -/

/-- What the tables have grown by when content was read into them. -/
structure TookContent (oracle : Oracle) (before : Before) (d : Draft) (c : Content)
    (within : Within) (d' : Draft) : Prop where
  adds : d.Adds d' (c.markup oracle before) (c.exprs oracle) (c.data oracle) c.exprCount
    c.hasMarkup
  walk : d'.walk.toList = d.walk.toList ++ c.steps oracle before
  inserts : within.inserts = c.inserts oracle before d.walk.size d.exprs.size
  kept : Extends d.sites d'.sites
  inner : Unfolds d'.sites within.inner
    (c.sites oracle before d.walk.size d.exprs.size d.data.size).prune

/-- What the tables have grown by when an element was read into them. -/
structure TookElement (oracle : Oracle) (step : Option Nat) (d : Draft) (e : Element)
    (record : Option Nat) (d' : Draft) : Prop where
  adds : (d.name step e.head.tag).Adds d' (e.markup oracle) (e.exprs oracle) (e.data oracle)
    e.content.exprCount (!e.isBare oracle)
  walk : d'.walk.toList =
    (if isUpdated oracle e.head e.content then Draft.saveAt d.walk step else d.walk).toList
      ++ e.content.walk oracle
  kept : Extends d.sites d'.sites
  record : Unfolds d'.sites record.toList
    (Sites.site step (e.head.props oracle d.exprs.size d.data.size)
      (e.content.inserts oracle .nothing d.walk.size (d.exprs.size + (e.head.exprs oracle).length))
      (e.content.sites oracle .nothing d.walk.size (d.exprs.size + (e.head.exprs oracle).length)
        (d.data.size + (e.head.data oracle).length))
      .nil).prune

/-- Closing an element completes what was written for its head and its content. -/
theorem TookContent.close {oracle : Oracle} {step : Option Nat} {d opened d' : Draft}
    {head : Head} {content : Content} {within : Within}
    (hstep : (step.map (· + 1)).getD 0 = d.walk.size)
    (hhead : (d.name step head.tag).Adds opened (head.opening oracle) (head.exprs oracle)
      (head.data oracle) 0 (!(head.attrs oracle).isEmpty))
    (hsame : d.SameNodes opened)
    (h : TookContent oracle .nothing opened content within d') :
    let closed := ((d'.write head.closing).trim step).close step
      (head.props oracle d.exprs.size d.data.size) within.inserts within.inner
    TookElement oracle step d ⟨head, content⟩ closed.1 closed.2 := by
  have hexprs : opened.exprs.size = d.exprs.size + (head.exprs oracle).length := by
    rw [hhead.size_exprs, Draft.exprs_name]
  have hdata : opened.data.size = d.data.size + (head.data oracle).length := by
    rw [hhead.size_data, Draft.data_name]
  have hwithin := h.inserts
  have hinner := h.inner
  rw [hsame.walk, hexprs] at hwithin
  rw [hsame.walk, hexprs, hdata] at hinner
  have hwalk : ((d'.write head.closing).trim step).walk.toList =
      d.walk.toList ++ content.walk oracle := by
    have hsteps := h.walk
    rw [hsame.walk] at hsteps
    have htrim := Draft.toList_trimFrom hsteps
    rwa [Array.length_toList, ← hstep] at htrim
  have hupdated : ((head.props oracle d.exprs.size d.data.size).isEmpty && within.inserts.isEmpty)
      = !isUpdated oracle head content := by
    rw [hwithin, isUpdated, Head.isEmpty_props, Content.isEmpty_inserts oracle .nothing rfl,
      Bool.not_or, Bool.not_not]
  intro closed
  have hsites := Draft.sites_close (d := (d'.write head.closing).trim step) hinner step
    (head.props oracle d.exprs.size d.data.size) within.inserts
  refine ⟨?_, ?_, ?_, ?_⟩
  · have hall := ((hhead.trans h.adds).trans (.write d' head.closing)).trans
      ((Draft.Adds.rest _ _ _).trans (.close ((d'.write head.closing).trim step) step
        (head.props oracle d.exprs.size d.data.size) within.inserts within.inner))
    simpa [Element.markup, Element.exprs, Element.data, Element.isBare] using hall
  · rw [Draft.walk_close, hupdated]
    cases isUpdated oracle head content with
    | true => exact Draft.toList_saveAt hwalk hstep
    | false => exact hwalk
  · rw [← hsame.sites]
    exact h.kept.trans hsites.1
  · dsimp only
    rw [← hwithin]
    exact hsites.2

namespace TookContent

variable {oracle : Oracle} {before : Before} {d d' : Draft} {c : Content} {within : Within}

theorem nil (oracle : Oracle) (before : Before) (d : Draft) :
    TookContent oracle before d .nil {} d where
  adds := .rest d _ _
  walk := (List.append_nil _).symm
  inserts := rfl
  kept := .refl _
  inner := .nil _

theorem expr {i : Nat} (h : TookContent oracle before.afterExpr (d.addChild i) c within d') :
    TookContent oracle before d (.expr i c)
      { within with inserts := .child d.exprs.size :: within.inserts } d' where
  adds := by
    have hall := (Draft.Adds.addChild d i).trans h.adds
    rwa [Nat.add_comm] at hall
  walk := h.walk
  inserts := by
    dsimp only
    rw [h.inserts, (Draft.Adds.addChild d i).size_exprs]
    rfl
  kept := h.kept
  inner := by
    have hinner := h.inner
    rwa [(Draft.Adds.addChild d i).size_exprs, (Draft.Adds.addChild d i).size_data] at hinner

theorem walk_addText (d : Draft) (before : Before) (text : String) :
    ((d.beginNode before).addText before text).walk.toList =
      d.walk.toList ++ StateOp.pastText before := by
  unfold Draft.addText Draft.beginNode StateOp.pastText
  by_cases h : before.needsAnchor = true
  · simp [h]
  · simp [h, Draft.write]

theorem sites_addText (d : Draft) (before : Before) (text : String) :
    ((d.beginNode before).addText before text).sites = d.sites := by
  unfold Draft.addText
  split <;> rfl

theorem length_pastText (before : Before) :
    (StateOp.pastText before).length = before.widthOfText := by
  unfold StateOp.pastText Before.widthOfText
  split <;> rfl

theorem text {text : String}
    (h : TookContent oracle .afterText ((d.beginNode before).addText before text) c within d') :
    TookContent oracle before d (.text text c)
      { within with inserts := before.insertPoint d.walk.size ++ within.inserts } d' := by
  have htext := (Draft.Adds.beginNode d before).trans
    (.addText (d.beginNode before) before text)
  have hwalk := walk_addText d before text
  have hsize : ((d.beginNode before).addText before text).walk.size =
      d.walk.size + before.widthOfText := by
    rw [Draft.size_eq_of_toList hwalk, List.length_append, Array.length_toList, length_pastText]
  have hinserts := h.inserts
  have hinner := h.inner
  rw [hsize, htext.size_exprs] at hinserts
  rw [hsize, htext.size_exprs, htext.size_data] at hinner
  refine ⟨?_, ?_, ?_, ?_, hinner⟩
  · simpa [Content.markup, Content.exprs, Content.data, Content.exprCount, Content.hasMarkup]
      using htext.trans h.adds
  · rw [h.walk, hwalk, List.append_assoc]
    rfl
  · exact congrArg (before.insertPoint d.walk.size ++ ·) hinserts
  · rw [← sites_addText d before text]
    exact h.kept

end TookContent

/-- The walk when an element in content is complete. -/
theorem TookElement.walk_nested {oracle : Oracle} {before : Before} {d d' : Draft} {e : Element}
    {record : Option Nat}
    (h : TookElement oracle (some d.walk.size) (d.beginNode before) e record d') :
    d'.walk.toList =
      d.walk.toList ++ .next (before.expr || isUpdated oracle e.head e.content)
        :: e.content.walk oracle := by
  have hbegun : (d.beginNode before).walk.toList = d.walk.toList ++ .next before.expr :: [] :=
    Array.toList_push
  rw [h.walk]
  cases isUpdated oracle e.head e.content with
  | true =>
    have hsaved := Draft.toList_modify hbegun StateOp.withSave
    rw [Array.length_toList] at hsaved
    rw [if_pos rfl, Draft.saveAt, hsaved]
    simp [StateOp.withSave]
  | false =>
    rw [if_neg Bool.false_ne_true, hbegun]
    simp

theorem TookContent.element {oracle : Oracle} {before : Before} {d d₁ d' : Draft} {e : Element}
    {record : Option Nat} {c : Content} {within : Within}
    (helement : TookElement oracle (some d.walk.size) (d.beginNode before) e record d₁)
    (h : TookContent oracle .nothing (d₁.leave d.walk.size) c within d') :
    TookContent oracle before d (.element e.head e.content c)
      ⟨before.insertPoint d.walk.size ++ within.inserts, record.toList ++ within.inner⟩ d' := by
  have hleft := ((Draft.Adds.beginNode d before).trans helement.adds).trans
    (.leave d₁ d.walk.size)
  have hwalk := Draft.walk_leave helement.walk_nested
  rw [Array.length_toList] at hwalk
  have hsize : (d₁.leave d.walk.size).walk.size = d.walk.size + e.content.width oracle := by
    rw [Draft.size_eq_of_toList hwalk, List.length_append, Array.length_toList,
      Content.length_pastElement, Content.length_walk]
    rfl
  have hexprs : (d₁.leave d.walk.size).exprs.size =
      d.exprs.size + (e.head.exprs oracle).length + (e.content.exprs oracle).length := by
    rw [hleft.size_exprs, Element.exprs]
    simp [Nat.add_assoc]
  have hdata : (d₁.leave d.walk.size).data.size =
      d.data.size + (e.head.data oracle).length + (e.content.data oracle).length := by
    rw [hleft.size_data, Element.data]
    simp [Nat.add_assoc]
  have hinserts := h.inserts
  have hinner := h.inner
  have hkept := h.kept
  rw [hsize, hexprs] at hinserts
  rw [hsize, hexprs, hdata] at hinner
  rw [Draft.sites_leave] at hkept
  refine ⟨?_, ?_, ?_, helement.kept.trans hkept, ?_⟩
  · simpa [Content.markup, Content.exprs, Content.data, Content.exprCount, Content.hasMarkup,
      Element.markup, Element.exprs, Element.data] using hleft.trans h.adds
  · rw [h.walk, hwalk, List.append_assoc]
    rfl
  · exact congrArg (before.insertPoint d.walk.size ++ ·) hinserts
  · have hrecord := helement.record.later hkept
    rw [Content.sites, Sites.prune_site]
    rw [Draft.size_beginNode] at hrecord
    exact hrecord.append hinner

/-- Reading an element into the tables is reading the element. -/
def ElementTracks (oracle : Oracle) (r : Reader) : Prop :=
  ∀ (step : Option Nat) (d : Draft), (step.map (· + 1)).getD 0 = d.walk.size →
    Tracks (r.element (Element.fits oracle)) (r.elementInto oracle step d)
      (TookElement oracle step d)

/-- Reading content into the tables is reading the content. -/
def ContentTracks (oracle : Oracle) (base : Nat) (r : Reader) : Prop :=
  ∀ (before : Before) (d : Draft),
    Tracks (r.content (Element.fits oracle) base) (r.contentInto oracle base before d)
      (TookContent oracle before d)

theorem elementTracks_of_content {oracle : Oracle} {r : Reader}
    (hinside : ∀ base (s : Reader), s.remaining < r.remaining → ContentTracks oracle base s) :
    ElementTracks oracle r := by
  intro step d hstep
  have hhead := headInto_tracks oracle step r d
  rw [element_eq, elementInto_eq]
  dsimp only
  cases hread : r.head with
  | error failure =>
    rw [hread] at hhead
    have hresult : (r.headInto oracle step d).result = .error failure := hhead
    simp only [hresult]
    rfl
  | ok found =>
    obtain ⟨head, s⟩ := found
    rw [hread] at hhead
    obtain ⟨opened, hresult, rfl, hadds, hsame⟩ := hhead
    simp only [hresult]
    by_cases hvoid : head.isVoid = true
    · have hcontains : voidTags.contains head.tag = true := hvoid
      -- nothing is written or trimmed here, as if the content were empty
      have hsize : (step.map (· + 1)).getD 0 = (r.headInto oracle step d).draft.walk.size := by
        rw [hstep, hsame.walk]
      have hclosed := (TookContent.nil oracle .nothing _).close hstep hadds hsame
      rw [Head.closing, if_pos hvoid, Draft.write_nil, Draft.trim_of_size hsize] at hclosed
      simp only [hcontains, hvoid, ↓reduceIte]
      exact ⟨_, rfl, hclosed⟩
    · have hcontains : ¬voidTags.contains head.tag = true := hvoid
      have hcontent := hinside r.indent s (remaining_of_head hread) .nothing
        (r.headInto oracle step d).draft
      simp only [hcontains, hvoid, Bool.false_eq_true, ↓reduceIte]
      generalize s.contentInto oracle r.indent .nothing _ = body at hcontent ⊢
      cases hbody : s.content (Element.fits oracle) r.indent with
      | error failure =>
        rw [hbody] at hcontent
        have hresult : body.result = .error failure := hcontent
        simp only [hresult]
        rfl
      | ok found =>
        obtain ⟨content, t⟩ := found
        rw [hbody] at hcontent
        obtain ⟨within, hresult, htook⟩ := hcontent
        have hclosed := htook.close hstep hadds hsame
        rw [Head.closing, if_neg hvoid] at hclosed
        simp only [hresult]
        exact ⟨_, rfl, hclosed⟩

theorem contentTracks_of_items {oracle : Oracle} {base : Nat} {r : Reader}
    (helement : ∀ s : Reader, s.remaining ≤ r.remaining → ElementTracks oracle s)
    (hcontent : ∀ s : Reader, s.remaining < r.remaining → ContentTracks oracle base s) :
    ContentTracks oracle base r := by
  intro before d
  rw [content_eq, contentInto_eq]
  by_cases hindent : r.indent ≤ base
  · rw [if_pos hindent, if_pos hindent]
    exact ⟨_, rfl, .nil oracle before d⟩
  rw [if_neg hindent, if_neg hindent]
  by_cases hend : r.atEnd = true
  · rw [if_pos hend, if_pos hend]
    cases htake : r.takeExpr? with
    | none => exact ⟨_, rfl, .nil oracle before d⟩
    | some found =>
      obtain ⟨i, s⟩ := found
      have hmore :=
        hcontent s.skipBlank (remaining_after_expr htake) before.afterExpr (d.addChild i)
      dsimp only
      refine hmore.step ?_ ?_
        (fun more => { more with inserts := .child d.exprs.size :: more.inserts })
        fun _ _ h => TookContent.expr h
      · exact fun _ h => by rw [h]
      · exact fun _ _ h => by rw [h]
  rw [if_neg hend, if_neg hend]
  dsimp only
  cases hliteral : r.literal with
  | error failure => rfl
  | ok found =>
    obtain ⟨text, s⟩ := found
    dsimp only
    by_cases htext : text ≠ ""
    · have hmore := hcontent s.skipBlank (remaining_after_text hliteral htext) .afterText
        ((d.beginNode before).addText before text)
      rw [if_pos htext, if_pos htext]
      refine hmore.step ?_ ?_
        (fun more => { more with inserts := before.insertPoint d.walk.size ++ more.inserts })
        fun _ _ h => TookContent.text h
      · exact fun _ h => by rw [h]
      · exact fun _ _ h => by rw [h]
    rw [if_neg htext, if_neg htext]
    have hchild := helement s (remaining_of_literal hliteral) (some d.walk.size)
      (d.beginNode before) (Draft.size_beginNode d before).symm
    generalize s.elementInto oracle _ _ = item at hchild ⊢
    cases hread : s.element (Element.fits oracle) with
    | error failure =>
      rw [hread] at hchild
      have hresult : item.result = .error failure := hchild
      simp only [hresult]
      rfl
    | ok found =>
      obtain ⟨e, t⟩ := found
      rw [hread] at hchild
      obtain ⟨record, hresult, htook⟩ := hchild
      simp only [hresult]
      -- what the child wrote in the walk are its steps, so both compare the same number
      have hspan : item.draft.walk.size - (d.walk.size + 1) =
          e.content.span oracle .nothing := by
        rw [Draft.size_eq_of_toList htook.walk_nested, ← Content.length_walk]
        simp
        omega
      rw [hspan]
      by_cases hfits : e.fits oracle = true
      · have hlt : t.skipBlank.remaining < r.remaining :=
          Nat.lt_of_le_of_lt (remaining_skipBlank_le t)
            (Nat.lt_of_lt_of_le (remaining_of_element hread) (remaining_of_literal hliteral))
        have hmore := hcontent t.skipBlank hlt .nothing (item.draft.leave d.walk.size)
        rw [if_pos hfits, if_pos (of_decide_eq_true hfits)]
        refine hmore.step ?_ ?_
          (fun more => Within.mk (before.insertPoint d.walk.size ++ more.inserts)
            (record.toList ++ more.inner))
          fun _ _ h => TookContent.element htook h
        · exact fun _ h => by rw [h]
        · exact fun _ _ h => by rw [h]
      · rw [if_neg hfits, if_neg (of_decide_eq_false (Bool.eq_false_iff.mpr hfits))]
        rfl

theorem element_content_tracks (oracle : Oracle) :
    (∀ r, ElementTracks oracle r) ∧ ∀ base r, ContentTracks oracle base r :=
  element_content_induction (fun _ => elementTracks_of_content)
    fun _ _ => contentTracks_of_items

end Reader

/-! ## Templates -/

/-- The ops of the root's record are those of the sites that it unfolds to. -/
theorem Draft.emit_eq {d : Draft} {record : Option Nat} {forest : Sites}
    (h : Unfolds d.sites record.toList forest.prune) (slots : Slots) :
    d.emit slots record = forest.emit slots := by
  have hunfold := h.unfold_eq [] d.sites.size (Nat.le_refl _)
  rw [← Sites.emit_prune, ← hunfold]
  cases record with
  | none => cases d.sites.size <;> rfl
  | some id => simp [emit, Sites.ofRecords]

/-- Tables that took an element from the start hold its artifact. -/
theorem Reader.TookElement.artifact_eq {oracle : Oracle} {e : Element} {record : Option Nat}
    {d : Draft} (h : TookElement oracle none {} e record d) (svg disableCloning : Bool) :
    d.artifact svg disableCloning record = Template.artifact oracle svg ⟨disableCloning, e⟩ := by
  have hwalk : d.walk.toList = e.content.walk oracle := by
    rw [h.walk]
    cases isUpdated oracle e.head e.content <;> rfl
  have hrecord : Unfolds d.sites record.toList (e.sites oracle).prune := by
    simpa [Element.sites] using h.record
  have hskeleton :
      (if d.hasStatics then .parts d.markup.toList else .tag d.rootTag) = e.skeleton oracle := by
    rw [h.adds.hasStatics, h.adds.rootTag, h.adds.markup [] rfl, Element.skeleton]
    cases e.isBare oracle <;> rfl
  have hchildren : d.children = e.content.exprCount := h.adds.children.trans (Nat.zero_add _)
  have hdata : d.data.toList = e.data oracle := h.adds.data
  have hexprs : d.exprs.toList = e.exprs oracle := h.adds.exprs
  unfold Draft.artifact Template.artifact
  cases hfault : ((e.sites oracle).emit (Slots.ofWalk (e.content.walk oracle))).fault with
  | some fault => simp only [hwalk, Draft.emit_eq hrecord, hfault]
  | none =>
    simp only [hwalk, Draft.emit_eq hrecord, hfault, hskeleton, hchildren, hdata, hexprs]

namespace Compiler

theorem run_empty (oracle : Oracle) (svg : Bool) (fragments : List String) :
    (run {} oracle svg fragments).1 = Stencil.compile oracle svg fragments := by
  unfold run Stencil.compile Template.read
  by_cases hnone : fragments.isEmpty = true
  · rw [if_pos hnone, if_pos hnone]
  rw [if_neg hnone, if_neg hnone]
  cases (Reader.ofFragments fragments).options with
  | error failure => rfl
  | ok found =>
    obtain ⟨disableCloning, s⟩ := found
    have hroot := (Reader.element_content_tracks oracle).1 s none {} rfl
    dsimp only
    generalize s.elementInto oracle none {} = read at hroot ⊢
    cases hread : s.element (Element.fits oracle) with
    | error failure =>
      rw [hread] at hroot
      have hresult : read.result = .error failure := hroot
      simp only [hresult]
    | ok found =>
      obtain ⟨root, t⟩ := found
      rw [hread] at hroot
      obtain ⟨record, hresult, htook⟩ := hroot
      have htag : read.draft.rootTag = root.head.tag := htook.adds.rootTag
      simp only [hresult, htook.artifact_eq, htag]
      cases Template.artifact oracle svg ⟨disableCloning, root⟩ with
      | error fault => rfl
      | ok artifact =>
        dsimp only
        split <;> rfl

/-- **A compiler gives what the template alone asks for**, whatever it compiled before, and is
left with empty tables. -/
theorem compile_eq (c : Compiler) (oracle : Oracle) (svg : Bool) (fragments : List String) :
    c.compile oracle svg fragments = (Stencil.compile oracle svg fragments, {}) := by
  have hempty : c.reset = {} := rfl
  rw [compile, hempty]
  exact Prod.ext (run_empty oracle svg fragments) rfl

end Compiler
end Stencil
