import Grounding.Proofs.Replay

/-!
# Formulas that differ in their nodes

Two formulas that have grown from one are alike if everything beside their nodes is the same. The
sites and their bodies were there before, so both formulas know them by the same numbers; and asking
both for the descriptor of a realization comes to the same end.
-/

namespace Grounding

namespace Formula

variable {f₀ f g h g' h' : Formula} {v t : Term} {s : NodeId}

/-- `g` and `h` have grown from `f₀` without new sites, and differ in their nodes only. -/
structure Alike (f₀ g h : Formula) : Prop where
  left : g.WellFormed
  right : h.WellFormed
  grownLeft : f₀.GrowsTo g
  grownRight : f₀.Extends h
  rest : h.withoutNodes = g.withoutNodes

namespace Alike

theorem refl (hf : f.WellFormed) : f.Alike f f := ⟨hf, hf, .refl f, .refl f, rfl⟩

theorem step (hr : f₀.Alike g h) (hg : g.GrowsTo g') (hg' : g'.WellFormed) (hh : h.Extends h')
    (hh' : h'.WellFormed) (hrest : h'.withoutNodes = g'.withoutNodes) : f₀.Alike g' h' :=
  ⟨hg', hh', hr.grownLeft.trans hg, hr.grownRight.trans hh, hrest⟩

theorem sites_eq (hr : f₀.Alike g h) : h.sites = g.sites :=
  (congrArg Formula.sites hr.rest :)

theorem body_eq (hr : f₀.Alike g h) (s : NodeId) : h.body s = g.body s := by
  rw [body, show h.bodies = g.bodies from (congrArg Formula.bodies hr.rest :), body]

theorem descriptor?_eq (hr : f₀.Alike g h) (name : String) :
    h.descriptor? name = g.descriptor? name := by
  rw [descriptor?, show h.descriptors = g.descriptors from
    (congrArg Formula.descriptors hr.rest :),
    descriptor?]

theorem knows_body (hr : f₀.Alike g h) (hf : f₀.WellFormed) (s : NodeId) : f₀.Knows (g.body s) := by
  rw [hr.grownLeft.body_eq]
  exact Formula.knows_body hf s

/-- The sites were there before the formulas grew apart. -/
theorem probability?_eq (hr : f₀.Alike g h) (hf : f₀.WellFormed) (hs : g.IsSite v s) :
    h.probability? s = g.probability? s := by
  have hknown : f₀.Knows (.node s) :=
    hf.sites v s (isSite_iff.mp ((isSite_congr hr.grownLeft.sites).mp hs))
  rw [hr.grownRight.probability?_eq hknown, hr.grownLeft.grown.probability?_eq hknown]

theorem addAtom_right (hr : f₀.Alike g h) (t : Term) (p : Option Term) (source : Source) :
    f₀.Alike g (h.addAtom t p source).2 :=
  hr.step (.refl g) hr.left (h.extends_addAtom t p source) (wellFormed_addAtom hr.right t p source)
    ((h.withoutNodes_addAtom t p source).trans hr.rest)

theorem addAtom (hr : f₀.Alike g h) (t : Term) (p : Option Term) (source : Source) :
    f₀.Alike (g.addAtom t p source).2 (h.addAtom t p source).2 := by
  have hgrows : g.GrowsTo (g.addAtom t p source).2 :=
    ⟨g.extends_addAtom t p source, (g.sites_addAtom t p source).1, (g.sites_addAtom t p source).2⟩
  have hright := hr.addAtom_right t p source
  exact hright.step hgrows (wellFormed_addAtom hr.left t p source) (.refl _) hright.right
    (hright.rest.trans (g.withoutNodes_addAtom t p source).symm)

theorem conjoinAll_right (hr : f₀.Alike g h) {guards : List Guard} (hk : ∀ x ∈ guards, h.Knows x) :
    f₀.Alike g (conjoinAll guards h).2 :=
  hr.step (.refl g) hr.left (h.extends_conjoinAll guards) (wellFormed_conjoinAll hr.right hk).1
    ((withoutNodes_conjoinAll guards h).trans hr.rest)

theorem conjoinAll (hr : f₀.Alike g h) {guards guards' : List Guard} (hk : ∀ x ∈ guards, g.Knows x)
    (hk' : ∀ x ∈ guards', h.Knows x) :
    f₀.Alike (conjoinAll guards g).2 (conjoinAll guards' h).2 := by
  have hgrows : g.GrowsTo (Formula.conjoinAll guards g).2 :=
    ⟨g.extends_conjoinAll guards, (g.sites_conjoinAll guards).1, (g.sites_conjoinAll guards).2⟩
  have hright := hr.conjoinAll_right hk'
  exact hright.step hgrows (wellFormed_conjoinAll hr.left hk).1 (.refl _) hright.right
    (hright.rest.trans (withoutNodes_conjoinAll guards g).symm)

theorem withDescriptor (hr : f₀.Alike g h) {d : Descriptor} (hnew : g.descriptor? d.name = none) :
    f₀.Alike (g.withDescriptor d) (h.withDescriptor d) := by
  have hnew' : h.descriptor? d.name = none := (hr.descriptor?_eq d.name).trans hnew
  refine hr.step ⟨extends_withDescriptor hnew, rfl, rfl⟩ { hr.left with names := hr.left.names }
    (extends_withDescriptor hnew') { hr.right with names := hr.right.names } ?_
  exact congrArg (·.withDescriptor d) hr.rest

end Alike

/-- Two formulas fail with one error, or give one descriptor, which both have or both fix. -/
inductive SameDescriptor (g h : Formula) : Except Error (Descriptor × Formula) →
    Except Error (Descriptor × Formula) → Prop
  | error (e : Error) : SameDescriptor g h (.error e) (.error e)
  | found (d : Descriptor) : SameDescriptor g h (.ok (d, g)) (.ok (d, h))
  | fixed (d : Descriptor) (hnew : g.descriptor? d.name = none) :
      SameDescriptor g h (.ok (d, g.withDescriptor d)) (.ok (d, h.withDescriptor d))

theorem fixDescriptor_same (hp : h.probability? s = g.probability? s)
    (hnone : g.descriptor? (realizationName v s) = none) (n : Nat) :
    SameDescriptor g h (g.fixDescriptor v s n) (h.fixDescriptor v s n) := by
  have hnew : h.newDescriptor v s n = g.newDescriptor v s n := by
    rw [newDescriptor, hp, newDescriptor]
  rw [fixDescriptor, fixDescriptor, hnew]
  cases hd : g.newDescriptor v s n with
  | error e => exact .error e
  | ok d => exact .fixed d ((newDescriptor_inv hd).1 ▸ hnone)

theorem descriptorOf_same (hp : h.probability? s = g.probability? s)
    (hd : h.descriptor? (realizationName v s) = g.descriptor? (realizationName v s)) :
    SameDescriptor g h (g.descriptorOf v s) (h.descriptorOf v s) := by
  unfold descriptorOf
  rw [hd]
  split
  · exact .found _
  · next hnone => exact fixDescriptor_same hp hnone 1

theorem descriptorWith_same (hp : h.probability? s = g.probability? s)
    (hd : h.descriptor? (realizationName v s) = g.descriptor? (realizationName v s)) (n : Nat) :
    SameDescriptor g h (g.descriptorWith v s n) (h.descriptorWith v s n) := by
  unfold descriptorWith
  dsimp only
  rw [hd]
  split
  · split
    · exact .found _
    · exact .error _
  · next hnone => exact fixDescriptor_same hp hnone _

end Formula

end Grounding
