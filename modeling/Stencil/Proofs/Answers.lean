import Mathlib.Data.List.Basic
import Stencil.Proofs.Artifact
import Stencil.Proofs.Rules

/-!
# The answers that a template needs

A template depends on the oracle only through the answers about the expressions that it asks
about: those of class parts and of attributes. Two oracles that agree on them give the same
tables, the same walk, the same markup and the same ops, so the same artifact
(`Template.compiled_congr`), and they let the same elements pass the size test
(`Template.read_congr`).

Most definitions look at the oracle only through the head of an element. `Head.Alike` holds what
they need to know of it, and `Content.Alike` is proved from it by one induction.
-/

namespace Stencil

variable {o o' : Oracle}

/-! ## Class part and bindings -/

namespace ClassPart

variable {cls : ClassPart} (h : ∀ i ∈ cls.asked, o' i = o i)
include h

theorem exprs_congr : cls.exprs o' = cls.exprs o := by
  cases cls with
  | names list => rfl
  | expr i => rw [exprs, exprs, h i (List.mem_singleton_self i)]

theorem props_congr (n : Nat) : cls.props o' n = cls.props o n := by
  cases cls with
  | names list => rfl
  | expr i => rw [props, props, h i (List.mem_singleton_self i)]

theorem markup_congr : cls.markup o' = cls.markup o := by
  cases cls with
  | names list => cases list <;> rfl
  | expr i => rw [markup, markup, h i (List.mem_singleton_self i)]

end ClassPart

namespace Binding

/-- Only an attribute's value can go into the markup, and an attribute is asked about. -/
theorem isHoisted_congr {b : Binding} (h : ∀ i ∈ b.asked, o' i = o i) :
    b.isHoisted o' = b.isHoisted o := by
  cases b with
  | named kind name i =>
    cases kind with
    | attr => exact h i (List.mem_singleton_self i)
    | _ => rfl
  | _ => rfl

variable {b : Binding} (h : b.isHoisted o' = b.isHoisted o)
include h

theorem exprs_congr : b.exprs o' = b.exprs o := by
  cases b with
  | named kind name i => rw [exprs, exprs, h]
  | _ => rfl

theorem data_congr : b.data o' = b.data o := by
  cases b with
  | named kind name i => rw [data, data, h]
  | _ => rfl

theorem props_congr (n m : Nat) : b.props o' n m = b.props o n m := by
  cases b with
  | named kind name i => rw [props, props, h]
  | _ => rfl

theorem markup_congr : b.markup o' = b.markup o := by
  cases b with
  | named kind name i => rw [markup, markup, h]
  | _ => rfl

omit h in
theorem propsAll_congr {bs : List Binding} (h : ∀ b ∈ bs, b.isHoisted o' = b.isHoisted o)
    (n m : Nat) : propsAll o' n m bs = propsAll o n m bs := by
  induction bs generalizing n m with
  | nil => rfl
  | cons b bs ih =>
    obtain ⟨hb, hbs⟩ := List.forall_mem_cons.mp h
    rw [propsAll, propsAll, props_congr hb, exprs_congr hb, data_congr hb, ih hbs]

end Binding

/-! ## Heads -/

variable (o o') in
/-- With either oracle the head of an element says the same. -/
structure Head.Alike (head : Head) : Prop where
  exprs : head.exprs o' = head.exprs o
  data : head.data o' = head.data o
  props (n m : Nat) : head.props o' n m = head.props o n m
  attrs : head.attrs o' = head.attrs o

theorem Head.alike {head : Head} (h : ∀ i ∈ head.asked, o' i = o i) : head.Alike o o' := by
  obtain ⟨hcls, hbs⟩ := List.forall_mem_append.mp h
  have hhoisted : ∀ b ∈ head.bindings, b.isHoisted o' = b.isHoisted o := by
    intro b hb
    refine Binding.isHoisted_congr fun i hi => hbs i ?_
    exact List.mem_flatMap.mpr ⟨b, hb, hi⟩
  exact {
    exprs := by
      rw [Head.exprs, Head.exprs, ClassPart.exprs_congr hcls,
        List.flatMap_congr fun b hb => Binding.exprs_congr (hhoisted b hb)]
    data := List.flatMap_congr fun b hb => Binding.data_congr (hhoisted b hb)
    props := by
      intro n m
      rw [Head.props, Head.props, ClassPart.props_congr hcls, ClassPart.exprs_congr hcls,
        Binding.propsAll_congr hhoisted]
    attrs := by
      rw [Head.attrs, Head.attrs, ClassPart.markup_congr hcls,
        List.flatMap_congr fun b hb => Binding.markup_congr (hhoisted b hb)] }

theorem Head.Alike.opening {head : Head} (h : head.Alike o o') :
    head.opening o' = head.opening o := by
  rw [Head.opening, Head.opening, h.attrs]

theorem Head.Alike.isUpdated {head : Head} (h : head.Alike o o') (inner : Content) :
    isUpdated o' head inner = isUpdated o head inner := by
  rw [Stencil.isUpdated, Stencil.isUpdated, h.exprs]

/-! ## Content -/

namespace Content

variable (o o') in
/-- With either oracle content says the same, wherever in an element it stands. -/
structure Alike (c : Content) : Prop where
  exprs : c.exprs o' = c.exprs o
  data : c.data o' = c.data o
  steps (before : Before) : c.steps o' before = c.steps o before
  inserts (before : Before) (pos n : Nat) : c.inserts o' before pos n = c.inserts o before pos n
  sites (before : Before) (pos n m : Nat) : c.sites o' before pos n m = c.sites o before pos n m
  markup (before : Before) : c.markup o' before = c.markup o before

theorem Alike.walk {c : Content} (h : c.Alike o o') : c.walk o' = c.walk o := by
  rw [Content.walk, Content.walk, h.steps]

theorem Alike.span {c : Content} (h : c.Alike o o') (before : Before) :
    c.span o' before = c.span o before := by
  rw [← length_trim_steps, ← length_trim_steps, h.steps]

theorem Alike.width {c : Content} (h : c.Alike o o') : c.width o' = c.width o := by
  rw [Content.width, Content.width, h.span]

theorem alike_nil : Alike o o' nil where
  exprs := rfl
  data := rfl
  steps _ := rfl
  inserts _ _ _ := rfl
  sites _ _ _ _ := rfl
  markup _ := rfl

theorem Alike.text {next : Content} (h : next.Alike o o') (s : String) :
    Alike o o' (text s next) where
  exprs := h.exprs
  data := h.data
  steps before := by rw [Content.steps, Content.steps, h.steps]
  inserts before pos n := by rw [Content.inserts, Content.inserts, h.inserts]
  sites before pos n m := h.sites _ _ n m
  markup before := by rw [Content.markup, Content.markup, h.markup]

theorem Alike.expr {next : Content} (h : next.Alike o o') (i : Nat) :
    Alike o o' (expr i next) where
  exprs := congrArg (i :: ·) h.exprs
  data := h.data
  steps before := h.steps _
  inserts before pos n := by rw [Content.inserts, Content.inserts, h.inserts]
  sites before pos n m := h.sites _ pos _ m
  markup before := h.markup _

theorem Alike.element {head : Head} {inner next : Content} (hhead : head.Alike o o')
    (hinner : inner.Alike o o') (hnext : next.Alike o o') :
    Alike o o' (element head inner next) where
  exprs := by rw [Content.exprs, Content.exprs, hhead.exprs, hinner.exprs, hnext.exprs]
  data := by rw [Content.data, Content.data, hhead.data, hinner.data, hnext.data]
  steps before := by
    rw [Content.steps, Content.steps, hinner.steps, hnext.steps, hhead.isUpdated]
  inserts before pos n := by
    rw [Content.inserts, Content.inserts, hinner.width, hhead.exprs, hinner.exprs, hnext.inserts]
  sites before pos n m := by
    rw [Content.sites, Content.sites, hhead.exprs, hhead.data, hhead.props, hinner.inserts,
      hinner.sites, hinner.width, hinner.exprs, hinner.data, hnext.sites]
  markup before := by
    rw [Content.markup, Content.markup, hhead.opening, hinner.markup, hnext.markup]

theorem alike {c : Content} (h : ∀ i ∈ c.asked, o' i = o i) : c.Alike o o' := by
  induction c with
  | nil => exact alike_nil
  | text s next ih => exact (ih h).text s
  | expr i next ih => exact (ih h).expr i
  | element head inner next ihInner ihNext =>
    obtain ⟨hfront, hnext⟩ := List.forall_mem_append.mp h
    obtain ⟨hhead, hinner⟩ := List.forall_mem_append.mp hfront
    exact .element (Head.alike hhead) (ihInner hinner) (ihNext hnext)

/-- Every nested element passes the size test with either oracle. -/
theorem allFit_congr {c : Content} (h : ∀ i ∈ c.asked, o' i = o i)
    (hfit : c.AllFit (Element.fits o)) : c.AllFit (Element.fits o') := by
  induction c with
  | nil => trivial
  | text s next ih => exact ih h hfit
  | expr i next ih => exact ih h hfit
  | element head inner next ihInner ihNext =>
    obtain ⟨hfront, hnext⟩ := List.forall_mem_append.mp h
    obtain ⟨_, hinner⟩ := List.forall_mem_append.mp hfront
    obtain ⟨hself, hfitInner, hfitNext⟩ := hfit
    refine ⟨?_, ihInner hinner hfitInner, ihNext hnext hfitNext⟩
    unfold Element.fits at hself ⊢
    dsimp only at hself ⊢
    rwa [(alike hinner).span]

end Content

/-! ## Templates -/

/-- **The artifact depends on the answers that the template asks for, and on no others.** -/
theorem Template.compiled_congr {t : Template} (h : ∀ i ∈ t.root.asked, o' i = o i) (svg : Bool) :
    t.compiled o' svg = t.compiled o svg := by
  obtain ⟨hhead, hcontent⟩ := List.forall_mem_append.mp h
  have head := Head.alike hhead
  have content := Content.alike hcontent
  have hslots : t.root.slots o' = t.root.slots o := by
    rw [Element.slots, Element.slots, content.walk]
  have hsites : t.root.sites o' = t.root.sites o := by
    rw [Element.sites, Element.sites, head.exprs, head.data, head.props, content.inserts,
      content.sites]
  have hskeleton : t.root.skeleton o' = t.root.skeleton o := by
    rw [Element.skeleton, Element.skeleton, Element.isBare, Element.isBare, Element.markup,
      Element.markup, head.attrs, head.opening, content.markup]
  rw [compiled, compiled, hslots, hskeleton, Element.propOps, Element.propOps, Element.childOps,
    Element.childOps, hsites, hslots, content.walk, Element.data, Element.data, head.data,
    content.data, Element.exprs, Element.exprs, head.exprs, content.exprs]

/-- What was read with one size test is read with another that its elements pass as well. -/
theorem Reader.Yields.refit {fits fits' : Element → Bool} {base : Nat} {r s : Reader} {c : Content}
    (hc : r.Yields fits base c s) (hfit : c.AllFit fits') : r.Yields fits' base c s := by
  induction hc with
  | ended hend => exact .ended hend
  | expr hindent hexpr _ ih => exact .expr hindent hexpr (ih hfit)
  | text hindent hliteral htext _ ih => exact .text hindent hliteral htext (ih hfit)
  | void hindent hliteral hhead hvoid _ _ ih =>
    exact .void hindent hliteral hhead hvoid hfit.1 (ih hfit.2.2)
  | element hindent hliteral hhead hvoid _ _ _ ihInner ihMore =>
    exact .element hindent hliteral hhead hvoid (ihInner hfit.2.1) hfit.1 (ihMore hfit.2.2)

theorem Template.read_congr {t : Template} {r s : Reader} (h : ∀ i ∈ t.root.asked, o' i = o i)
    (hread : Template.read (Element.fits o) r = .ok (t, s)) :
    Template.read (Element.fits o') r = .ok (t, s) := by
  have hpromises := Template.read_promises (Element.fits o) r
  rw [hread] at hpromises
  obtain ⟨_, _, hfit⟩ := hpromises
  have hfit' := Content.allFit_congr (List.forall_mem_append.mp h).2 hfit
  obtain ⟨u, hoptions, helement⟩ := Template.read_eq_ok_iff.mp hread
  refine Template.read_eq_ok_iff.mpr ⟨u, hoptions, ?_⟩
  obtain ⟨v, hhead, hvoid | ⟨hvoid, hcontent⟩⟩ := Reader.element_eq_ok_iff.mp helement
  · exact Reader.element_eq_ok_iff.mpr ⟨v, hhead, .inl hvoid⟩
  · have hyields := (Reader.content_eq_ok_iff.mp hcontent).refit hfit'
    exact Reader.element_eq_ok_iff.mpr ⟨v, hhead, .inr ⟨hvoid, hyields.content_eq⟩⟩

end Stencil
