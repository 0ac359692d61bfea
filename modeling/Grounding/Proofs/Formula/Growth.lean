import Grounding.Proofs.Formula.Registry

/-!
# Growth

A formula only grows. `Extends` is the order of growth: nodes and names keep their places, whatever
an index found it still finds, and sites, descriptors, densities and free variables stay. It does
not speak of the bodies of sites, which a site registered again may set.
-/

namespace Grounding.Formula

/-- Everything that is in `f` is in `g`, at the same place. -/
structure Extends (f g : Formula) : Prop where
  nodes : f.nodes.toList <+: g.nodes.toList
  atoms : ∀ t id, f.findAtom? t = some id → g.findAtom? t = some id
  conjunctions : ∀ (cs : List NodeId) (id : NodeId),
    f.conjunctions[cs]? = some id → g.conjunctions[cs]? = some id
  names : ∀ l, f.names l <+: g.names l
  sites : ∀ v, ∀ id ∈ f.sites.getD v ∅, id ∈ g.sites.getD v ∅
  descriptors : ∀ name d, f.descriptor? name = some d → g.descriptor? name = some d
  densities : ∀ v, ∀ d ∈ f.densities.getD v ∅, d ∈ g.densities.getD v ∅
  freeVariables : ∀ v ∈ f.freeVariables, v ∈ g.freeVariables

namespace Extends

variable {f g h : Formula}

theorem refl (f : Formula) : f.Extends f where
  nodes := List.prefix_rfl
  atoms _ _ h := h
  conjunctions _ _ h := h
  names _ := List.prefix_rfl
  sites _ _ h := h
  descriptors _ _ h := h
  densities _ _ h := h
  freeVariables _ h := h

theorem trans (hfg : f.Extends g) (hgh : g.Extends h) : f.Extends h where
  nodes := hfg.nodes.trans hgh.nodes
  atoms t id ht := hgh.atoms t id (hfg.atoms t id ht)
  conjunctions cs id hc := hgh.conjunctions cs id (hfg.conjunctions cs id hc)
  names l := (hfg.names l).trans (hgh.names l)
  sites v id hid := hgh.sites v id (hfg.sites v id hid)
  descriptors name d hd := hgh.descriptors name d (hfg.descriptors name d hd)
  densities v d hd := hgh.densities v d (hfg.densities v d hd)
  freeVariables v hv := hgh.freeVariables v (hfg.freeVariables v hv)

theorem size_le (hfg : f.Extends g) : f.size ≤ g.size := hfg.nodes.length_le

theorem knows (hfg : f.Extends g) {x : Guard} (hx : f.Knows x) : g.Knows x :=
  hx.of_size_le hfg.size_le

theorem node? (hfg : f.Extends g) {id : NodeId} {n : Node} (hn : f.node? id = some n) :
    g.node? id = some n := by
  obtain ⟨rest, hrest⟩ := hfg.nodes
  rw [Formula.node?, ← Array.getElem?_toList] at hn ⊢
  rw [← hrest, List.getElem?_append_left (List.getElem?_eq_some_iff.mp hn).1, hn]

/-- Nodes that exist are not changed, so what is known of one is what was known of it. -/
theorem node?_eq (hfg : f.Extends g) {id : NodeId} (hid : f.Knows (.node id)) :
    g.node? id = f.node? id := by
  obtain ⟨n, hn⟩ := Option.isSome_iff_exists.mp (isSome_node?_iff.mpr hid)
  rw [hn, hfg.node? hn]

theorem probability?_eq (hfg : f.Extends g) {id : NodeId} (hid : f.Knows (.node id)) :
    g.probability? id = f.probability? id := by
  rw [probability?, hfg.node?_eq hid, probability?]

end Extends

variable {f : Formula}

theorem extends_withAtom {t : Term} (hnew : f.findAtom? t = none) (p : Option Term) (s : Source) :
    f.Extends (f.withAtom t p s) :=
  { Extends.refl f with
    nodes := by
      rw [withAtom, Array.toList_push]
      exact List.prefix_append _ _
    atoms := by
      intro t' id ht
      rw [findAtom?_withAtom, if_neg, ht]
      rintro rfl
      rw [hnew] at ht
      cases ht }

theorem extends_withConjunction {cs : List NodeId} (hnew : f.conjunctions[cs]? = none) :
    f.Extends (f.withConjunction cs) :=
  { Extends.refl f with
    nodes := by
      rw [withConjunction, Array.toList_push]
      exact List.prefix_append _ _
    conjunctions := by
      intro cs' id hc
      rw [conjunctions_withConjunction, if_neg, hc]
      rintro rfl
      rw [hnew] at hc
      cases hc }

theorem extends_addAtom (f : Formula) (t : Term) (p : Option Term) (s : Source) :
    f.Extends (f.addAtom t p s).2 := by
  rcases f.addAtom_cases t p s with h | ⟨hnew, h⟩ <;> rw [h]
  · exact .refl f
  · exact extends_withAtom hnew p s

theorem findAtom?_addAtom (f : Formula) (t : Term) (p : Option Term) (s : Source) :
    (f.addAtom t p s).2.findAtom? t = some (f.addAtom t p s).1 := by
  cases hf : f.findAtom? t with
  | some id => rw [addAtom_of_found hf, hf]
  | none => rw [addAtom_of_new hf, findAtom?_withAtom, if_pos rfl]

theorem extends_conjoinAll (f : Formula) (guards : List Guard) :
    f.Extends (conjoinAll guards f).2 := by
  rcases f.conjoinAll_cases guards with h | ⟨hnew, h⟩ <;> rw [h]
  · exact .refl f
  · exact extends_withConjunction hnew

/-- Adding to the set under one key adds one member under this key, and none under any other. -/
theorem mem_getD_insert_iff {κ α : Type} [Ord κ] [Std.TransOrd κ] [Std.LawfulEqOrd κ] [Ord α]
    [Std.TransOrd α] [Std.LawfulEqOrd α] {m : Std.ExtTreeMap κ (Std.ExtTreeSet α)} {k k' : κ}
    {a b : α} : b ∈ (m.insert k ((m.getD k ∅).insert a)).getD k' ∅ ↔
      k' = k ∧ b = a ∨ b ∈ m.getD k' ∅ := by
  rw [Std.ExtTreeMap.getD_insert]
  by_cases hk : k = k'
  · subst hk
    rw [if_pos (Std.LawfulEqCmp.compare_eq_iff_eq.mpr rfl), Std.ExtTreeSet.mem_insert,
      Std.LawfulEqCmp.compare_eq_iff_eq]
    simp [eq_comm]
  · rw [if_neg (fun h => hk (Std.LawfulEqCmp.compare_eq_iff_eq.mp h))]
    simp [Ne.symm hk]

theorem extends_addSite (f : Formula) (v : Term) (p : Option Term) (body : Guard) :
    f.Extends (addSite v p body f).2 :=
  (f.extends_addAtom _ p .realization).trans
    { Extends.refl (f.addAtom (siteIdentifier v p body) p .realization).2 with
      sites := fun _ _ hid => mem_getD_insert_iff.mpr (.inr hid) }

/-- A repeated entry is there already. -/
theorem mem_addEntry {e entry : Term × Guard} {entries : List (Term × Guard)} :
    e ∈ addEntry entry entries ↔ e = entry ∨ e ∈ entries := by
  unfold addEntry
  split
  · next hmem =>
    refine ⟨.inr, ?_⟩
    rintro (rfl | he)
    · exact hmem
    · exact he
  · rw [List.mem_append, List.mem_singleton, or_comm]

theorem prefix_addEntry (entry : Term × Guard) (entries : List (Term × Guard)) :
    entries <+: addEntry entry entries := by
  unfold addEntry
  split
  · exact List.prefix_rfl
  · exact List.prefix_append _ _

theorem extends_addName (f : Formula) (t : Term) (x : Guard) (l : Label) :
    f.Extends (f.addName t x l) := by
  cases l
  · exact { Extends.refl f with
      names := fun l => by
        cases l
        · exact prefix_addEntry _ _
        · exact List.prefix_rfl }
  · exact { Extends.refl f with
      names := fun l => by
        cases l
        · exact List.prefix_rfl
        · exact prefix_addEntry _ _ }

theorem extends_addDensity (f : Formula) (v density : Term) :
    f.Extends (f.addDensity v density) :=
  { Extends.refl f with densities := fun _ _ hd => mem_getD_insert_iff.mpr (.inr hd) }

theorem mem_addFree {f : Formula} {u v : Term} :
    u ∈ (f.addFree v).freeVariables ↔ u = v ∨ u ∈ f.freeVariables := by
  rw [addFree, Std.ExtTreeSet.mem_insert, Std.LawfulEqCmp.compare_eq_iff_eq, eq_comm]

theorem extends_addFree (f : Formula) (v : Term) : f.Extends (f.addFree v) :=
  { Extends.refl f with freeVariables := fun _ hv => mem_addFree.mpr (.inr hv) }

/-- The formula with one descriptor more. -/
def withDescriptor (f : Formula) (d : Descriptor) : Formula :=
  { f with descriptors := f.descriptors.insert d.name d }

theorem descriptor?_withDescriptor (f : Formula) (d : Descriptor) (name : String) :
    (f.withDescriptor d).descriptor? name = if d.name = name then some d else f.descriptor? name := by
  simp only [descriptor?, withDescriptor, Std.ExtTreeMap.getElem?_insert,
    Std.LawfulEqCmp.compare_eq_iff_eq]

theorem extends_withDescriptor {d : Descriptor} (hnew : f.descriptor? d.name = none) :
    f.Extends (f.withDescriptor d) :=
  { Extends.refl f with
    descriptors := by
      intro name d' hd
      rw [descriptor?_withDescriptor, if_neg, hd]
      rintro rfl
      rw [hnew] at hd
      cases hd }

end Grounding.Formula
