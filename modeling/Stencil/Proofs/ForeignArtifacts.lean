import Stencil.Proofs.CacheEntries

/-!
# Artifacts that come from elsewhere

An artifact need not have been compiled here. Reading takes any words that stand for ops, with
bits set that no op uses, with an `enter` that saves but has no count and so is a `remove`, and
with flags of any kind. Such words are not written again as they were.

What they are read as is all the same storable: a field of so many bits gives a number of so
many bits, and an index is refused unless it is a machine word. So the first reading is the
only one that changes anything. From then on an artifact is read back as it is, from its JSON
value, from its text and from the entry that a cache keeps of it.
-/

namespace Stencil

/-! ## What words stand for -/

theorem StateOp.storable_of_decode {w : UInt32} {op : StateOp} (h : decode w = some op) :
    op.Storable := by
  unfold decode at h
  dsimp only at h
  split at h
  · -- without a count this is a `remove`, and not an `enter` that runs nothing
    obtain rfl := Option.some.inj h
    split
    · trivial
    · next hcount => exact ⟨by omega, by omega⟩
  · split at h
    · obtain rfl := Option.some.inj h
      trivial
    · split at h
      · obtain rfl := Option.some.inj h
        trivial
      · cases h

theorem PropOp.storable_of_decode {w : UInt32} {op : PropOp} (h : decode w = some op) :
    op.Storable := by
  -- the fields have twelve bits; with names for them the cases are about shapes only
  have hinput : w.toNat / 8 % 4096 < 4096 := Nat.mod_lt _ (by omega)
  have hdata : w.toNat / 32768 % 4096 < 4096 := Nat.mod_lt _ (by omega)
  generalize hi : w.toNat / 8 % 4096 = input at hinput
  generalize hd : w.toNat / 32768 % 4096 = data at hdata
  have hshape : op = .setNode data ∨ (∃ prop, op = .common prop input)
      ∨ (∃ kind, op = .named kind input data) ∨ op = .directive input := by
    unfold decode at h
    dsimp only at h
    rw [hi, hd] at h
    split at h
    · exact .inl (Option.some.inj h).symm
    · obtain ⟨prop, _, rfl⟩ := Option.map_eq_some_iff.mp h
      exact .inr (.inl ⟨prop, rfl⟩)
    · exact .inr (.inr (.inl ⟨.attr, (Option.some.inj h).symm⟩))
    · exact .inr (.inr (.inl ⟨.property, (Option.some.inj h).symm⟩))
    · exact .inr (.inr (.inl ⟨.diffProperty, (Option.some.inj h).symm⟩))
    · exact .inr (.inr (.inl ⟨.style, (Option.some.inj h).symm⟩))
    · exact .inr (.inr (.inl ⟨.event, (Option.some.inj h).symm⟩))
    · exact .inr (.inr (.inr (Option.some.inj h).symm))
  rcases hshape with rfl | ⟨prop, rfl⟩ | ⟨kind, rfl⟩ | rfl
  · exact ⟨nofun, nofun, fun slot hslot => Option.some.inj hslot ▸ hdata⟩
  · exact ⟨fun n hn => Option.some.inj hn ▸ hinput, nofun, nofun⟩
  · exact ⟨fun n hn => Option.some.inj hn ▸ hinput, fun m hm => Option.some.inj hm ▸ hdata, nofun⟩
  · exact ⟨fun n hn => Option.some.inj hn ▸ hinput, nofun, nofun⟩

theorem ChildOp.storable_of_decode {w : UInt32} {op : ChildOp} (h : decode w = some op) :
    op.Storable := by
  have hnumber : op.number = w.toNat / 4 := by
    unfold decode at h
    dsimp only at h
    split at h
    · rw [← Option.some.inj h]
      rfl
    · rw [← Option.some.inj h]
      rfl
    · rw [← Option.some.inj h]
      rfl
    · cases h
  have hw := w.toNat_lt
  show op.number < 0x40000000
  omega

theorem Flags.storable_decode (w : UInt32) : (decode w).Storable :=
  ⟨Nat.mod_lt _ (by decide), Nat.mod_lt _ (by decide)⟩

/-! ## What lists are read as -/

theorem bind_eq_ok_iff {ε α β : Type} {x : Except ε α} {f : α → Except ε β} {b : β} :
    (x >>= f) = .ok b ↔ ∃ a, x = .ok a ∧ f a = .ok b := by
  cases x with
  | error e => exact ⟨nofun, nofun⟩
  | ok a => exact ⟨fun h => ⟨a, rfl, h⟩, fun ⟨_, ha, h⟩ => Except.ok.inj ha ▸ h⟩

theorem exists_of_mem_mapM {α β : Type} {f : α → Option β} {xs : List α} {ys : List β}
    (h : xs.mapM f = some ys) : ∀ y ∈ ys, ∃ x ∈ xs, f x = some y := by
  induction xs generalizing ys with
  | nil =>
    cases h
    exact fun y hy => absurd hy List.not_mem_nil
  | cons x xs ih =>
    rw [List.mapM_cons] at h
    obtain ⟨y, hy, h⟩ := Option.bind_eq_some_iff.mp h
    obtain ⟨rest, hrest, h⟩ := Option.bind_eq_some_iff.mp h
    cases h
    intro z hz
    rcases List.mem_cons.mp hz with rfl | hz
    · exact ⟨x, List.mem_cons_self .., hy⟩
    · obtain ⟨x', hx', hz⟩ := ih hrest z hz
      exact ⟨x', List.mem_cons_of_mem _ hx', hz⟩

/-- Why an item is refused makes no difference to a list that is not. -/
theorem mapM_toOption {ε α β : Type} {f : α → Except ε β} {xs : List α} {ys : List β}
    (h : xs.mapM f = .ok ys) : xs.mapM (fun x => (f x).toOption) = some ys := by
  induction xs generalizing ys with
  | nil =>
    cases h
    rfl
  | cons x xs ih =>
    rw [List.mapM_cons, bind_eq_ok_iff] at h
    obtain ⟨y, hy, h⟩ := h
    rw [bind_eq_ok_iff] at h
    obtain ⟨rest, hrest, h⟩ := h
    cases h
    rw [List.mapM_cons, hy, ih hrest]
    rfl

namespace Json

theorem lt_of_below? {bound n : Nat} {j : Json} (h : j.below? bound = some n) : n < bound := by
  unfold below? at h
  split at h
  · split at h
    · dsimp only at h
      split at h
      · next hlt => exact Option.some.inj h ▸ hlt
      · cases h
    · cases h
  · cases h

theorem exists_of_mem_list? {α : Type} {item? : Json → Option α} {j : Json} {xs : List α}
    (h : j.list? item? = some xs) : ∀ x ∈ xs, ∃ i, item? i = some x := by
  unfold list? at h
  split at h
  · intro x hx
    obtain ⟨i, _, hi⟩ := exists_of_mem_mapM h x hx
    exact ⟨i, hi⟩
  · cases h

end Json

theorem Part.lt_of_ofJson? {j : Json} {part : Part} (h : ofJson? j = some part) :
    ∀ i, part.expr? = some i → i < UInt64.size := by
  intro i hi
  cases part with
  | text s => cases hi
  | expr index =>
    obtain rfl := Option.some.inj hi
    unfold ofJson? at h
    split at h
    · obtain ⟨s, _, hs⟩ := Option.map_eq_some_iff.mp h
      cases hs
    · obtain ⟨n, hn, hexpr⟩ := Option.map_eq_some_iff.mp h
      cases hexpr
      exact Json.lt_of_below? hn

theorem Skeleton.lt_of_ofJson? {j : Json} {s : Skeleton} (h : ofJson? j = some s) :
    ∀ i ∈ s.exprs, i < UInt64.size := by
  intro i hi
  cases s with
  | tag name => cases hi
  | parts list =>
    obtain ⟨part, hpart, hexpr⟩ := List.mem_filterMap.mp hi
    unfold ofJson? at h
    split at h
    · obtain ⟨s, _, hs⟩ := Option.map_eq_some_iff.mp h
      cases hs
    · obtain ⟨parts, hparts, hlist⟩ := Option.map_eq_some_iff.mp h
      cases hlist
      obtain ⟨item, hitem⟩ := Json.exists_of_mem_list? hparts part hpart
      exact Part.lt_of_ofJson? hitem i hexpr

/-! ## What an artifact is read as -/

namespace Artifact

/-- Every op of a stream was decoded from some word. -/
theorem exists_of_mem_readOps {α : Type} {stream : OpStream} {decode : UInt32 → Option α} {j : Json}
    {ops : List α} (h : readOps stream decode j = .ok ops) :
    ∀ op ∈ ops, ∃ w, decode w = some op := by
  unfold readOps at h
  split at h
  · intro op hop
    obtain ⟨item, _, hitem⟩ := exists_of_mem_mapM (mapM_toOption h) op hop
    unfold readOp at hitem
    split at hitem
    · cases hitem
    · next w _ =>
      split at hitem
      · cases hitem
      · next found hfound => exact ⟨w, Option.some.inj hitem ▸ hfound⟩
  · cases h

theorem of_readShape {α : Type} {read? : Json → Option α} {j : Json} {x : α}
    (h : readShape read? j = .ok x) : read? j = some x := by
  unfold readShape at h
  split at h
  · cases h
  · next hread => exact Except.ok.inj h ▸ hread

theorem exists_of_readMember {α : Type} {fields : List (String × Json)} {name : String}
    {read : Json → Except Unreadable α} {x : α} (h : readMember fields name read = .ok (some x)) :
    ∃ j, read j = .ok x := by
  unfold readMember at h
  split at h
  · cases h
  · next j hj =>
    cases hread : read j with
    | error e =>
      rw [hread] at h
      cases h
    | ok y =>
      rw [hread] at h
      cases h
      exact ⟨j, hread⟩

theorem exists_of_readItem {α : Type} {items : List Json} {place : Nat}
    {read : Json → Except Unreadable α} {x : α} (h : readItem items place read = .ok x) :
    ∃ j, read j = .ok x := by
  unfold readItem at h
  split at h
  · cases h
  · next j _ => exact ⟨j, h⟩

/-- Each part of the artifact is read from some value. -/
structure IsRead (a : Artifact) : Prop where
  disableCloning : ∃ j, readCloning j = .ok a.disableCloning
  flags : ∃ j, readFlags j = .ok a.flags
  template : ∃ j, readTemplate j = .ok a.template
  propOps : ∃ j, readPropOps j = .ok a.propOps
  childOps : ∃ j, readChildOps j = .ok a.childOps
  stateOps : ∃ j, readStateOps j = .ok a.stateOps
  data : ∃ j, readData j = .ok a.data
  exprs : ∃ j, readExprs j = .ok a.exprs

theorem isRead_of_readMembers {fields : List (String × Json)} {a : Artifact}
    (h : readMembers fields = .ok a) : a.IsRead := by
  simp only [readMembers, bind_eq_ok_iff] at h
  obtain ⟨_, hchild, _, hdata, _, hcloning, _, hexprs, _, hflags, _, hprop, _, hstate, _,
    htemplate, h⟩ := h
  split at h
  · cases h
    exact {
      disableCloning := exists_of_readMember hcloning
      flags := exists_of_readMember hflags
      template := exists_of_readMember htemplate
      propOps := exists_of_readMember hprop
      childOps := exists_of_readMember hchild
      stateOps := exists_of_readMember hstate
      data := exists_of_readMember hdata
      exprs := exists_of_readMember hexprs
    }
  · cases h

theorem isRead_of_readItems {items : List Json} {a : Artifact} (h : readItems items = .ok a) :
    a.IsRead := by
  simp only [readItems, bind_eq_ok_iff] at h
  obtain ⟨_, hcloning, _, hflags, _, htemplate, _, hprop, _, hchild, _, hstate, _, hdata, _, hexprs,
    h⟩ := h
  split at h
  · cases h
    exact {
      disableCloning := exists_of_readItem hcloning
      flags := exists_of_readItem hflags
      template := exists_of_readItem htemplate
      propOps := exists_of_readItem hprop
      childOps := exists_of_readItem hchild
      stateOps := exists_of_readItem hstate
      data := exists_of_readItem hdata
      exprs := exists_of_readItem hexprs
    }
  · cases h

/-- Written as an object or as an array, an artifact is read part by part. -/
theorem isRead_of_read {j : Json} {a : Artifact} (h : read j = .ok a) : a.IsRead := by
  unfold read at h
  split at h
  · exact isRead_of_readItems h
  · split at h
    · cases h
    · exact isRead_of_readMembers h

/-- What holds of all that words stand for holds of the ops of a stream. -/
theorem forall_of_readOps {α : Type} {stream : OpStream} {decode : UInt32 → Option α} {ops : List α}
    {holds : α → Prop} (h : ∃ j, readOps stream decode j = .ok ops)
    (hdecode : ∀ {w : UInt32} {op : α}, decode w = some op → holds op) : ∀ op ∈ ops, holds op := by
  obtain ⟨_, hops⟩ := h
  intro op hop
  obtain ⟨w, hw⟩ := exists_of_mem_readOps hops op hop
  exact hdecode hw

/-- **Whatever is read is storable.** -/
theorem storable_of_read {j : Json} {a : Artifact} (h : read j = .ok a) : a.Storable := by
  have hread := isRead_of_read h
  constructor
  · exact forall_of_readOps hread.stateOps StateOp.storable_of_decode
  · exact forall_of_readOps hread.propOps PropOp.storable_of_decode
  · exact forall_of_readOps hread.childOps ChildOp.storable_of_decode
  · obtain ⟨_, hflags⟩ := hread.flags
    obtain ⟨w, _, hw⟩ := Option.map_eq_some_iff.mp (of_readShape hflags)
    exact hw ▸ Flags.storable_decode w
  · intro i hi
    obtain ⟨_, hexprs⟩ := hread.exprs
    obtain ⟨item, hitem⟩ := Json.exists_of_mem_list? (of_readShape hexprs) i hi
    exact Json.lt_of_below? hitem
  · obtain ⟨_, htemplate⟩ := hread.template
    exact Skeleton.lt_of_ofJson? (of_readShape htemplate)

end Artifact

/-- **What was kept is found**, unless its entry could not be written. -/
theorem Cache.get_set {store : Store} {source : Source} {a : Artifact} (ha : a.Storable)
    (h : .cannotWriteEntry ∉ (set store source a).notices) :
    get (set store source a).store source =
      { value := some a, store := (set store source a).store } := by
  cases hbegin : begin? store source.hash with
  | none =>
    rw [set, insert, hbegin] at h
    exact absurd (List.mem_singleton_self _) h
  | some begun => rw [get, lookup, find_eq_found.mpr (holds_set ha hbegin)]

/--
**The first reading is the only one that changes anything.** The artifact that a JSON value is
read as, whatever words are in it, is read back from its value and from its text, so it is
written alike from then on; and a cache gives it back as it is if it could write its entry.
-/
theorem Artifact.read_stable {j : Json} {a : Artifact} (h : Artifact.read j = .ok a) :
    Artifact.read a.toJson = .ok a
      ∧ (Json.parse? a.toJson.render).map Artifact.read = some (.ok a)
      ∧ (∀ b, (Json.parse? a.toJson.render).map Artifact.read = some (.ok b) →
        b.toJson.render = a.toJson.render)
      ∧ ∀ (store : Store) (source : Source),
        .cannotWriteEntry ∉ (Cache.set store source a).notices →
          Cache.get (Cache.set store source a).store source =
            { value := some a, store := (Cache.set store source a).store } := by
  have ha := storable_of_read h
  have htext := read_text ha
  -- reading has one result, so whatever else comes from the text is `a` again
  refine ⟨read_toJson ha, htext, fun b hb => ?_, fun store source => Cache.get_set ha⟩
  cases htext.symm.trans hb
  rfl

/-- Words with unused bits, ones that save without a count, and the largest indices; texts with
quotes, backslashes, control characters and characters outside the basic plane. -/
theorem Artifact.read_stable_spare_bits :
    ∃ a, Artifact.read (.ofFields [
        ("stateOpCodes", .ofList .ofNat [3, 6, 0xFFFFFFFB, 0xFFFFE001]),
        ("propOpCodes", .ofList .ofNat [0xF8000001, 0xF8010007]),
        ("childOpCodes", .ofList .ofNat [0xFFFFFFFD, 7]),
        ("flags", .ofNat 0xFFFFFFFF),
        ("template", .ofList Part.toJson [.text "<p a=\"", .expr 18446744073709551615, .text "\">"]),
        ("data", .ofList .ofString ["\"\\\x01\n\u00e9\u2028😀"]),
        ("disableCloning", .bool true),
        ("dynamicExprs", .ofList .ofNat [18446744073709551615, 0])]) = .ok a
      ∧ a.stateOps = [.remove, .remove, .enter 1023 true, .save]
      ∧ a.propOps = [.common .className 0, .directive 0]
      ∧ a.childOps = [.setNext 0x3FFFFFFF, .setParent 1]
      ∧ a.flags = ⟨true, 1023, 1023⟩
      ∧ (Json.parse? a.toJson.render).map Artifact.read = some (.ok a)
      ∧ (Cache.get (Cache.set (.folder []) ⟨["p"], false, []⟩ a).store ⟨["p"], false, []⟩).value =
        some a := by
  generalize hj : Json.ofFields _ = j
  have hparts : (Artifact.read j).toOption.map
      (fun a => (a.stateOps, a.propOps, a.childOps, a.flags)) =
      some ([.remove, .remove, .enter 1023 true, .save], [.common .className 0, .directive 0],
        [.setNext 0x3FFFFFFF, .setParent 1], ⟨true, 1023, 1023⟩) := by
    rw [← hj]
    decide +kernel
  obtain ⟨a, hread, hparts⟩ := exists_of_toOption_map hparts
  obtain ⟨hstates, hparts⟩ := Prod.mk.inj hparts
  obtain ⟨hprops, hparts⟩ := Prod.mk.inj hparts
  obtain ⟨hchildren, hflags⟩ := Prod.mk.inj hparts
  obtain ⟨_, htext, _, hcache⟩ := Artifact.read_stable hread
  have hget := hcache (.folder []) ⟨["p"], false, []⟩ List.not_mem_nil
  exact ⟨a, hread, hstates, hprops, hchildren, hflags, htext, congrArg Stored.value hget⟩

end Stencil
