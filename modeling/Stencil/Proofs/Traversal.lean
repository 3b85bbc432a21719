import Stencil.Proofs.Artifact

/-!
# The walk finds the right nodes

The ops of a compiled template know nodes by their slots only. Here the state ops are run
over the static tree, which numbers the nodes that are saved, and the other two streams are
read with these numbers. What comes out is what the template says: every marker names the
element whose bindings or children follow it.
-/

namespace Stencil

/--
A run of the state ops of `a` over the static tree of `e` saves `saves`, in this order. With
them in the slots from 1 on, and the root in slot 0, both op streams say what `e` asks for.
-/
structure Artifact.Traverses (oracle : Oracle) (e : Element) (saves : List Place)
    (a : Artifact) : Prop where
  run : StateOp.run [] 0 (e.tree oracle).inside a.stateOps = some saves
  saved : ∀ q ∈ saves, ((e.tree oracle).find q).isNil = false
  slots : a.flags.slots = saves.length + 1
  updates : Group.ofStream (PropOp.meaning ⟨[] :: saves, a.exprs, a.data⟩) [] a.propOps =
    some (e.updateGroups oracle)
  placements : Group.ofStream (ChildOp.meaning ⟨[] :: saves, a.exprs, a.data⟩) [] a.childOps =
    some e.placementGroups
  elements : ∀ l ∈ e.located, ∃ next, (e.tree oracle).find l.place =
    .element l.head.tag (l.head.attrSymbols oracle) (l.inner.nodes oracle .nothing) next

theorem Template.traverses_compiled (oracle : Oracle) (svg : Bool) (t : Template) :
    ∃ saves, (t.compiled oracle svg).Traverses oracle t.root saves := by
  have hrun := Content.run_walk oracle t.root.content
  refine ⟨(t.root.content.marks oracle .nothing 0 [] 0).map Mark.place, hrun, ?_, ?_, ?_, ?_, ?_⟩
  · exact StateOp.isNil_find_of_run rfl hrun
  · show (t.root.slots oracle).size = _
    rw [Element.size_slots, List.length_map, Nat.add_comm]
  · exact Element.ofStream_propOps oracle t.root
  · exact Element.ofStream_childOps oracle t.root
  · exact Element.find_located oracle t.root

/-- A template that is read is well formed. -/
theorem Template.wellFormed_of_read {fits : Element → Bool} {r s : Reader} {t : Template}
    (h : Template.read fits r = .ok (t, s)) : t.root.WellFormed := by
  have hpromises := Template.read_promises fits r
  rw [h] at hpromises
  exact hpromises.2.1

/--
**The state ops find the nodes that the other ops are about.** The tree they are run over is
the one that the skeleton spells, as long as no literal stands right next to another.
-/
theorem compile_traverses {oracle : Oracle} {svg : Bool} {fragments : List String} {a : Artifact}
    (h : (compile oracle svg fragments).result = .ok a) :
    ∃ t r, Template.read (Element.fits oracle) (Reader.ofFragments fragments) = .ok (t, r)
      ∧ (t.root.content.textsApart = true → a.template.tree? = some (t.root.tree oracle))
      ∧ ∃ saves, a.Traverses oracle t.root saves := by
  obtain ⟨_, t, r, hread, rfl, _⟩ := compile_eq_ok h
  refine ⟨t, r, hread, fun hapart => ?_, t.traverses_compiled oracle svg⟩
  exact Element.tree?_skeleton (Template.wellFormed_of_read hread) hapart

/-- A text that is kept apart from another, a binding inside an element, and a child that goes
last: here `enter`, `remove` and both kinds of markers come up. -/
theorem compile_traverses_list :
    ∃ a, (compile (fun _ => false) false
        ["ul 'a' ", " 'b'\n  li\n    i :x=", "\n  b 'c' ", ""]).result = .ok a
      ∧ a.stateOps = [.next false, .remove, .next false, .enter 1 false, .save, .next false, .save]
      ∧ ∃ e : Element, a.template.tree? = some (e.tree fun _ => false)
        ∧ ∃ saves, a.Traverses (fun _ => false) e saves := by
  generalize hf : ["ul 'a' ", " 'b'\n  li\n    i :x=", "\n  b 'c' ", ""] = fragments
  have hops : (compile (fun _ => false) false fragments).result.toOption.map Artifact.stateOps =
      some [.next false, .remove, .next false, .enter 1 false, .save, .next false, .save] := by
    rw [← hf]
    decide +kernel
  have hapart : (Template.read (Element.fits fun _ => false)
      (Reader.ofFragments fragments)).toOption.map (·.1.root.content.textsApart) = some true := by
    rw [← hf]
    decide +kernel
  obtain ⟨a, hresult, hops⟩ := exists_of_toOption_map hops
  obtain ⟨t, r, hread, htree, htraverses⟩ := compile_traverses hresult
  rw [hread] at hapart
  exact ⟨a, hresult, hops, t.root, htree (Option.some.inj hapart), htraverses⟩

end Stencil
