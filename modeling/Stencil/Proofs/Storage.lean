import Stencil.Artifact.Json
import Stencil.Proofs.Expressions
import Stencil.Proofs.JsonText
import Stencil.Proofs.References

/-!
# Nothing is lost when an artifact is stored

An artifact is stored as JSON, with its ops and flags packed into words. A word has a
fixed number of bits for each field and drops the bits that do not fit, so an artifact
comes back as it was only if every number in it is small enough; `Storable` says which
numbers have to be.

The first part shows that this is all it takes: a storable artifact is read back from its
text. The second part shows that what the compiler gives is storable. The tables and the
flags are checked at the end of a compile, the counts in the walk as soon as an element is
complete, and everything else refers to one of these.
-/

namespace Stencil

/-! ## What fits -/

/-- The count of an `enter` has a place in its word, and is not taken for a `remove`. -/
def StateOp.Storable : StateOp → Prop
  | enter count _ => 1 ≤ count ∧ count ≤ 1023
  | _ => True

structure PropOp.Storable (op : PropOp) : Prop where
  input : ∀ n, op.input? = some n → n < 4096
  data : ∀ m, op.data? = some m → m < 4096
  slot : ∀ slot, op.node? = some slot → slot < 4096

def ChildOp.Storable (op : ChildOp) : Prop :=
  op.number < 0x40000000

def Flags.Storable (f : Flags) : Prop :=
  f.slots < 1024 ∧ f.children < 1024

theorem StateOp.Storable.decode_encode {op : StateOp} (h : op.Storable) :
    decode op.encode = some op := by
  refine StateOp.decode_encode ?_
  rintro count saves rfl
  exact h

theorem PropOp.Storable.decode_encode {op : PropOp} (h : op.Storable) :
    decode op.encode = some op := by
  refine PropOp.decode_encode h.input h.data ?_
  rintro slot rfl
  exact h.slot slot rfl

theorem ChildOp.Storable.decode_encode {op : ChildOp} (h : op.Storable) :
    decode op.encode = some op :=
  ChildOp.decode_encode h

theorem Flags.Storable.decode_encode {f : Flags} (h : f.Storable) : decode f.encode = f :=
  Flags.decode_encode h.1 h.2

/-- Every number in the artifact fits the field that holds it. -/
structure Artifact.Storable (a : Artifact) : Prop where
  states : ∀ op ∈ a.stateOps, op.Storable
  props : ∀ op ∈ a.propOps, op.Storable
  children : ∀ op ∈ a.childOps, op.Storable
  flags : a.flags.Storable
  exprs : ∀ i ∈ a.exprs, i < UInt64.size
  holes : ∀ i ∈ a.template.exprs, i < UInt64.size

/-! ## Storable artifacts are read back -/

namespace Json

theorem below?_ofNat {n bound : Nat} (h : n < bound) : (ofNat n).below? bound = some n := by
  have hdigits : (Nat.toDigits 10 n).all Char.isDigit = true :=
    List.all_eq_true.mpr (isDigit_toDigits n)
  rw [ofNat, below?, if_pos hdigits]
  dsimp only
  rw [Nat.ofDigitChars_ten_toDigits, if_pos h]

theorem index?_ofNat {n : Nat} (h : n < UInt64.size) : (ofNat n).index? = some n :=
  below?_ofNat h

theorem word?_ofWord (w : UInt32) : (ofWord w).word? = some w := by
  have hw := below?_ofNat w.toNat_lt_size
  rw [word?, ofWord, hw]
  simp

theorem string?_ofString (s : String) : (ofString s).string? = some s := by
  rw [ofString, string?, unescape_escape]
  simp

theorem list?_ofList {α : Type} {item : α → Json} {item? : Json → Option α} {xs : List α}
    (h : ∀ x ∈ xs, item? (item x) = some x) : (ofList item xs).list? item? = some xs := by
  rw [ofList, list?]
  induction xs with
  | nil => rfl
  | cons x xs ih =>
    have hx := h x (List.mem_cons_self ..)
    have hxs := ih fun y hy => h y (List.mem_cons_of_mem _ hy)
    rw [List.map_cons, List.mapM_cons, hx, hxs]
    rfl

/-- The members come back with the last one first. -/
theorem fields?_ofFields (fields : List (String × Json)) :
    (ofFields fields).fields? = some fields.reverse := by
  rw [ofFields, fields?, ← List.map_reverse]
  induction fields.reverse with
  | nil => rfl
  | cons f fields ih =>
    obtain ⟨name, value⟩ := f
    rw [List.map_cons, List.mapM_cons, ih]
    dsimp only
    rw [unescape_escape]
    simp

end Json

theorem Part.ofJson?_toJson {part : Part} (h : ∀ i, part.expr? = some i → i < UInt64.size) :
    ofJson? part.toJson = some part := by
  cases part with
  | text s =>
    have hs := Json.string?_ofString s
    rw [Json.ofString] at hs
    rw [toJson, Json.ofString, ofJson?, hs]
    rfl
  | expr i =>
    show ((Json.ofNat i).index?.map expr) = _
    rw [Json.index?_ofNat (h i rfl)]
    rfl

theorem Skeleton.ofJson?_toJson {s : Skeleton} (h : ∀ i ∈ s.exprs, i < UInt64.size) :
    ofJson? s.toJson = some s := by
  cases s with
  | tag name =>
    have hname := Json.string?_ofString name
    rw [Json.ofString] at hname
    rw [toJson, Json.ofString, ofJson?, hname]
    rfl
  | parts list =>
    have hparts : (Json.ofList Part.toJson list).list? Part.ofJson? = some list := by
      refine Json.list?_ofList fun part hpart => Part.ofJson?_toJson fun i hi => ?_
      exact h i (List.mem_filterMap.mpr ⟨part, hpart, hi⟩)
    show ((Json.ofList Part.toJson list).list? Part.ofJson?).map parts = _
    rw [hparts]
    rfl

namespace Artifact

theorem readOps_ofList {α : Type} (stream : OpStream) {encode : α → UInt32}
    {decode : UInt32 → Option α} {ops : List α} (h : ∀ op ∈ ops, decode (encode op) = some op) :
    readOps stream decode (.ofList (fun op => .ofWord (encode op)) ops) = .ok ops := by
  have hop : ∀ op ∈ ops, readOp stream decode (.ofWord (encode op)) = .ok op := by
    intro op hmem
    rw [readOp, Json.word?_ofWord]
    dsimp only
    rw [h op hmem]
  rw [Json.ofList, readOps]
  clear h
  induction ops with
  | nil => rfl
  | cons op ops ih =>
    have hops := ih fun op' hop' => hop op' (List.mem_cons_of_mem _ hop')
    rw [List.map_cons, List.mapM_cons, hop op (List.mem_cons_self ..), hops]
    rfl

theorem readShape_of_some {α : Type} {read? : Json → Option α} {j : Json} {x : α}
    (h : read? j = some x) : readShape read? j = .ok x := by
  rw [readShape, h]

theorem readMember_of_lookup {α : Type} {fields : List (String × Json)} {name : String} {j : Json}
    {read : Json → Except Unreadable α} {x : α} (hj : fields.lookup name = some j)
    (hx : read j = .ok x) : readMember fields name read = .ok (some x) := by
  rw [readMember, hj]
  dsimp only
  rw [hx]
  rfl

theorem read_ofFields (fields : List (String × Json)) :
    read (.ofFields fields) = readMembers fields.reverse := by
  have hfields := Json.fields?_ofFields fields
  rw [Json.ofFields] at hfields ⊢
  rw [read, hfields]
  intro _ hlist
  cases hlist

/-- **A storable artifact is read back from its JSON value.** -/
theorem read_toJson {a : Artifact} (h : a.Storable) : read a.toJson = .ok a := by
  have hchildren : readChildOps (.ofList (fun op => .ofWord op.encode) a.childOps) =
      .ok a.childOps := readOps_ofList .child fun op hop => (h.children op hop).decode_encode
  have hprops : readPropOps (.ofList (fun op => .ofWord op.encode) a.propOps) = .ok a.propOps :=
    readOps_ofList .prop fun op hop => (h.props op hop).decode_encode
  have hstates : readStateOps (.ofList (fun op => .ofWord op.encode) a.stateOps) =
      .ok a.stateOps := readOps_ofList .state fun op hop => (h.states op hop).decode_encode
  have hdata : readData (.ofList .ofString a.data) = .ok a.data :=
    readShape_of_some (Json.list?_ofList fun s _ => Json.string?_ofString s)
  have hcloning : readCloning (.bool a.disableCloning) = .ok a.disableCloning :=
    readShape_of_some rfl
  have hexprs : readExprs (.ofList .ofNat a.exprs) = .ok a.exprs :=
    readShape_of_some (Json.list?_ofList fun i hi => Json.index?_ofNat (h.exprs i hi))
  have hflags : readFlags (.ofWord a.flags.encode) = .ok a.flags := by
    refine readShape_of_some ?_
    rw [Json.word?_ofWord, Option.map_some, h.flags.decode_encode]
  have htemplate : readTemplate a.template.toJson = .ok a.template :=
    readShape_of_some (Skeleton.ofJson?_toJson h.holes)
  -- every member is found under its name, and what it was written from is read from it
  rw [toJson, read_ofFields, readMembers, readMember_of_lookup rfl hchildren,
    readMember_of_lookup rfl hdata, readMember_of_lookup rfl hcloning,
    readMember_of_lookup rfl hexprs, readMember_of_lookup rfl hflags,
    readMember_of_lookup rfl hprops, readMember_of_lookup rfl hstates,
    readMember_of_lookup rfl htemplate]
  rfl

end Artifact

theorem Part.readsBack_toJson (part : Part) : part.toJson.ReadsBack := by
  cases part with
  | text s => exact Json.readsBack_ofString s
  | expr i => exact Json.readsBack_ofNat i

theorem Skeleton.readsBack_toJson (s : Skeleton) : s.toJson.ReadsBack := by
  cases s with
  | tag name => exact Json.readsBack_ofString name
  | parts list => exact Json.readsBack_ofList fun part _ => part.readsBack_toJson

namespace Artifact

/-- The text of any artifact can be read as JSON, whether or not its numbers fit. -/
theorem readsBack_toJson (a : Artifact) : a.toJson.ReadsBack := by
  refine Json.readsBack_ofFields ?_
  simp only [List.forall_mem_cons, List.not_mem_nil, false_imp_iff, implies_true, and_true]
  exact ⟨Json.readsBack_bool _, Json.readsBack_ofWord _, a.template.readsBack_toJson,
    Json.readsBack_ofList fun op _ => Json.readsBack_ofWord _,
    Json.readsBack_ofList fun op _ => Json.readsBack_ofWord _,
    Json.readsBack_ofList fun op _ => Json.readsBack_ofWord _,
    Json.readsBack_ofList fun s _ => Json.readsBack_ofString s,
    Json.readsBack_ofList fun i _ => Json.readsBack_ofNat i⟩

/-- **A storable artifact is read back from its text.** -/
theorem read_text {a : Artifact} (h : a.Storable) :
    (Json.parse? a.toJson.render).map read = some (.ok a) := by
  rw [a.readsBack_toJson.parse?_render, Option.map_some, read_toJson h]

end Artifact

/-! ## What is compiled is storable -/

namespace StateOp

theorem mem_trim {op : StateOp} {ops : List StateOp} (h : op ∈ trim ops) :
    op ∈ ops ∨ op = .save := by
  induction ops with
  | nil => cases h
  | cons first ops ih =>
    rw [trim_cons] at h
    split at h
    · cases first with
      | next saves =>
        cases saves with
        | false => cases h
        | true => exact .inr (List.mem_singleton.mp h)
      | enter count saves =>
        cases saves with
        | false => cases h
        | true => exact .inr (List.mem_singleton.mp h)
      | remove => exact .inl (List.mem_cons.mpr (.inl (List.mem_singleton.mp h)))
      | save => exact .inr (List.mem_singleton.mp h)
    · rcases List.mem_cons.mp h with rfl | hmem
      · exact .inl (List.mem_cons_self ..)
      · exact (ih hmem).imp_left (List.mem_cons_of_mem _)

theorem storable_trim {ops : List StateOp} (h : ∀ op ∈ ops, op.Storable) :
    ∀ op ∈ trim ops, op.Storable := by
  intro op hop
  rcases mem_trim hop with hmem | rfl
  · exact h op hmem
  · trivial

theorem storable_pastText (before : Before) : ∀ op ∈ pastText before, op.Storable := by
  intro op hop
  unfold pastText at hop
  split at hop
  · rcases List.mem_pair.mp hop with rfl | rfl <;> trivial
  · rw [List.mem_singleton] at hop
    subst hop
    trivial

theorem storable_pastElement {inside : List StateOp} (h : ∀ op ∈ inside, op.Storable)
    (hle : inside.length ≤ 1023) (saves : Bool) : ∀ op ∈ pastElement inside saves, op.Storable := by
  intro op hop
  unfold pastElement at hop
  split at hop
  · rw [List.mem_singleton] at hop
    subst hop
    trivial
  · next hne =>
    have hpos : inside.length ≠ 0 := by simpa using hne
    rcases List.mem_append.mp hop with hop | hop
    · rcases List.mem_cons.mp hop with rfl | hmem
      · exact ⟨by omega, hle⟩
      · exact h op hmem
    · rw [List.mem_singleton] at hop
      subst hop
      trivial

end StateOp

/-- An element is entered with the number of steps that was tested when it was complete. -/
theorem Content.storable_steps {oracle : Oracle} {c : Content}
    (h : c.AllFit (Element.fits oracle)) (before : Before) :
    ∀ op ∈ c.steps oracle before, op.Storable := by
  induction c generalizing before with
  | nil => exact fun op hop => absurd hop List.not_mem_nil
  | text s next ih =>
    rw [steps, List.forall_mem_append]
    exact ⟨StateOp.storable_pastText before, ih h _⟩
  | expr i next ih => exact ih h _
  | element head inner next ihInner ihNext =>
    obtain ⟨hfits, hinner, hnext⟩ := h
    have hle : (StateOp.trim (inner.steps oracle .nothing)).length ≤ 1023 := by
      rw [length_trim_steps]
      exact of_decide_eq_true hfits
    rw [steps, List.forall_mem_append]
    exact ⟨StateOp.storable_pastElement (StateOp.storable_trim (ihInner hinner _)) hle _,
      ihNext hnext _⟩

/-- The counts in the flags are tested at the end of a compile. -/
theorem Artifact.storable_flags {a : Artifact} (h : a.fits = true) : a.flags.Storable := by
  simp only [fits, Bool.and_eq_true, decide_eq_true_eq] at h
  obtain ⟨⟨⟨hslots, hchildren⟩, _⟩, _⟩ := h
  exact ⟨Nat.lt_succ_of_le hslots, Nat.lt_succ_of_le hchildren⟩

/-- Behind every expression there is one more fragment. -/
theorem Template.mem_taken_lt {fits : Element → Bool} {fragments : List String} {t : Template}
    {r : Reader} (hne : fragments ≠ [])
    (h : Template.read fits (Reader.ofFragments fragments) = .ok (t, r)) :
    ∀ i ∈ t.root.taken, i + 1 < fragments.length := by
  have hpromises := Template.read_promises fits (Reader.ofFragments fragments)
  rw [h] at hpromises
  obtain ⟨hreads, _⟩ := hpromises
  obtain ⟨f, fs, rfl⟩ := List.exists_cons_of_ne_nil hne
  have hlength : t.root.taken.length ≤ fs.length := by
    simpa [Reader.ofFragments] using hreads.length_le
  have hconsecutive : t.root.taken = List.range' 0 t.root.taken.length := hreads.consecutive
  intro i hi
  rw [hconsecutive, List.mem_range'_1] at hi
  rw [List.length_cons]
  omega

namespace Template

variable {oracle : Oracle} {svg : Bool} {t : Template}

/-- The fields of a prop op are places in the tables, and slots that the walk gives out. -/
theorem storable_propOps (h : (t.compiled oracle svg).fits = true) :
    ∀ op ∈ t.root.propOps oracle, op.Storable := by
  simp only [Artifact.fits, Bool.and_eq_true, decide_eq_true_eq] at h
  obtain ⟨⟨⟨hslots, _⟩, hdata⟩, hexprs⟩ := h
  intro op hop
  constructor
  · intro n hn
    have hmem : n ∈ List.range (t.root.exprs oracle).length :=
      (Element.inputs_perm_range oracle t.root).subset
        (List.mem_append_left _ (List.mem_filterMap.mpr ⟨op, hop, hn⟩))
    exact Nat.lt_of_lt_of_le (List.mem_range.mp hmem) hexprs
  · intro m hm
    have hmem := List.mem_filterMap.mpr ⟨op, hop, hm⟩
    rw [Element.data_eq_range, List.mem_range] at hmem
    exact Nat.lt_of_lt_of_le hmem hdata
  · intro slot hslot
    have hnamed := (Element.named_iff oracle t.root).mp
      (.inl (List.mem_filterMap.mpr ⟨op, hop, hslot⟩))
    have hle : (t.root.slots oracle).size ≤ 1023 := hslots
    omega

theorem storable_childOps (h : (t.compiled oracle svg).fits = true) :
    ∀ op ∈ t.root.childOps oracle, op.Storable := by
  simp only [Artifact.fits, Bool.and_eq_true, decide_eq_true_eq] at h
  obtain ⟨⟨⟨hslots, _⟩, _⟩, hexprs⟩ := h
  have hsize : (t.root.slots oracle).size ≤ 1023 := hslots
  intro op hop
  cases op with
  | child n =>
    have hmem : n ∈ List.range (t.root.exprs oracle).length :=
      (Element.inputs_perm_range oracle t.root).subset
        (List.mem_append_right _ (List.mem_filterMap.mpr ⟨_, hop, rfl⟩))
    have hlt : n < 4096 := Nat.lt_of_lt_of_le (List.mem_range.mp hmem) hexprs
    show n < 0x40000000
    omega
  | setNext slot =>
    have hnamed := (Element.named_iff oracle t.root).mp
      (.inr (.inr (List.mem_filterMap.mpr ⟨_, hop, rfl⟩)))
    show slot < 0x40000000
    omega
  | setParent slot =>
    have hnamed := (Element.named_iff oracle t.root).mp
      (.inr (.inl (List.mem_filterMap.mpr ⟨_, hop, rfl⟩)))
    show slot < 0x40000000
    omega

end Template

/-- Every op and the flags have room in their words. -/
structure Artifact.Packs (a : Artifact) : Prop where
  states : ∀ op ∈ a.stateOps, op.Storable
  props : ∀ op ∈ a.propOps, op.Storable
  children : ∀ op ∈ a.childOps, op.Storable
  flags : a.flags.Storable

section Compiled

variable {oracle : Oracle} {svg : Bool} {fragments : List String} {a : Artifact}

/-- **Whatever passes the size tests has room in its words.** -/
theorem packs_of_compile (h : (compile oracle svg fragments).result = .ok a) : a.Packs := by
  have hfits := fits_of_compile h
  obtain ⟨_, t, r, hread, rfl, _⟩ := compile_eq_ok h
  have hpromises := Template.read_promises (Element.fits oracle) (Reader.ofFragments fragments)
  rw [hread] at hpromises
  exact {
    states := StateOp.storable_trim (Content.storable_steps hpromises.2.2 .nothing)
    props := Template.storable_propOps hfits
    children := Template.storable_childOps hfits
    flags := Artifact.storable_flags hfits
  }

/-- An expression that is left in the artifact, dynamic or in a hole, stands between two
fragments. -/
theorem expr_lt_of_compile (h : (compile oracle svg fragments).result = .ok a) :
    (∀ i ∈ a.exprs, i + 1 < fragments.length)
      ∧ ∀ i ∈ a.template.exprs, i + 1 < fragments.length := by
  obtain ⟨hne, t, r, hread, rfl, _⟩ := compile_eq_ok h
  have hlt := Template.mem_taken_lt hne hread
  constructor
  · intro i hi
    exact hlt i ((t.root.dealt oracle).right.subset hi)
  · intro i hi
    have hmem : i ∈ (t.root.skeleton oracle).exprs := hi
    rw [Element.exprs_skeleton] at hmem
    exact hlt i ((t.root.dealt oracle).left.subset hmem)

/-- **Compiled artifacts are storable**, as long as their expressions are numbered in a machine
word. -/
theorem storable_of_compile (hlength : fragments.length ≤ UInt64.size)
    (h : (compile oracle svg fragments).result = .ok a) : a.Storable := by
  obtain ⟨hexprs, hholes⟩ := expr_lt_of_compile h
  have hword : ∀ i, i + 1 < fragments.length → i < UInt64.size := by
    intro i hi
    omega
  exact { packs_of_compile h with
    exprs := fun i hi => hword i (hexprs i hi)
    holes := fun i hi => hword i (hholes i hi)
  }

end Compiled

/--
**Encoding a compiled template loses nothing.** Every op fits its word and is decoded from it,
so are the flags, and the artifact is read back from its text.
-/
theorem compile_storesExactly {oracle : Oracle} {svg : Bool} {fragments : List String} {a : Artifact}
    (hlength : fragments.length < 0x80000000) (h : (compile oracle svg fragments).result = .ok a) :
    (∀ op ∈ a.stateOps, op.Storable ∧ StateOp.decode op.encode = some op)
      ∧ (∀ op ∈ a.propOps, op.Storable ∧ PropOp.decode op.encode = some op)
      ∧ (∀ op ∈ a.childOps, op.Storable ∧ ChildOp.decode op.encode = some op)
      ∧ Flags.decode a.flags.encode = a.flags
      ∧ (Json.parse? a.toJson.render).map Artifact.read = some (.ok a) := by
  have hbound : 0x80000000 ≤ UInt64.size := by decide
  have ha := storable_of_compile (Nat.le_of_lt (Nat.lt_of_lt_of_le hlength hbound)) h
  exact ⟨fun op hop => ⟨ha.states op hop, (ha.states op hop).decode_encode⟩,
    fun op hop => ⟨ha.props op hop, (ha.props op hop).decode_encode⟩,
    fun op hop => ⟨ha.children op hop, (ha.children op hop).decode_encode⟩,
    ha.flags.decode_encode, Artifact.read_text ha⟩

/-- Every kind of op, and characters that are escaped in the markup, in the text or in both. -/
theorem compile_storesExactly_kinds :
    ∃ a, (compile (· == 1) true ["ul", " :a=", " 'x\"\\' ", "\n  li '\x01&' ", " 'é'\n    i @c=",
        " ~d=", " $", "\n      b ", ""]).result = .ok a
      ∧ a.stateOps = [.next false, .enter 5 true, .next false, .remove, .next false, .enter 1 true,
        .save]
      ∧ a.propOps = [.common .className 0, .setNode 3, .named .event 3 0, .named .style 4 1,
        .directive 5]
      ∧ a.childOps = [.setNext 1, .child 1, .setParent 1, .setNext 2, .child 2, .setParent 4,
        .child 6]
      ∧ (Json.parse? a.toJson.render).map Artifact.read = some (.ok a) := by
  generalize hf : ["ul", " :a=", " 'x\"\\' ", "\n  li '\x01&' ", " 'é'\n    i @c=", " ~d=", " $",
    "\n      b ", ""] = fragments
  have hops : (compile (· == 1) true fragments).result.toOption.map
      (fun a => (a.stateOps, a.propOps, a.childOps)) =
      some ([.next false, .enter 5 true, .next false, .remove, .next false, .enter 1 true, .save],
        [.common .className 0, .setNode 3, .named .event 3 0, .named .style 4 1, .directive 5],
        [.setNext 1, .child 1, .setParent 1, .setNext 2, .child 2, .setParent 4, .child 6]) := by
    rw [← hf]
    decide +kernel
  have hlength : fragments.length < 0x80000000 := by
    rw [← hf]
    decide
  obtain ⟨a, hresult, hops⟩ := exists_of_toOption_map hops
  obtain ⟨hstates, hops⟩ := Prod.mk.inj hops
  obtain ⟨hprops, hchildren⟩ := Prod.mk.inj hops
  obtain ⟨_, _, _, _, htext⟩ := compile_storesExactly hlength hresult
  exact ⟨a, hresult, hstates, hprops, hchildren, htext⟩

end Stencil
