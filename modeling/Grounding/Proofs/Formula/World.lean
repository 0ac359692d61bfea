import Mathlib.Data.List.Induction
import Grounding.Proofs.Formula.Growth

/-!
# Worlds

A world says which atoms hold. It decides every node of a formula, one after the other: a
conjunction comes after its children and holds if all of them do. Nodes that are added later do not
change what a world says of the earlier ones.
-/

namespace Grounding

/-- A truth assignment to the atoms of a formula, by their nodes. -/
abbrev World := NodeId → Bool

/-- Whether a node holds in a world, given which of the nodes before it do. -/
def Node.holdsAfter (w : World) (earlier : List Bool) : Node → Bool
  | .atom .. => w ⟨earlier.length⟩
  | .conjunction cs => cs.all fun c => earlier.getD c.index false

namespace World

def truths (w : World) (nodes : List Node) : List Bool :=
  nodes.foldl (fun earlier n => earlier ++ [n.holdsAfter w earlier]) []

theorem truths_concat (w : World) (ns : List Node) (n : Node) :
    w.truths (ns ++ [n]) = w.truths ns ++ [n.holdsAfter w (w.truths ns)] := by
  rw [truths, List.foldl_append]
  rfl

theorem length_truths (w : World) (ns : List Node) : (w.truths ns).length = ns.length := by
  induction ns using List.reverseRecOn with
  | nil => rfl
  | append_singleton ns n ih => rw [truths_concat, List.length_append, List.length_append, ih]; rfl

theorem truths_prefix (w : World) (ns ms : List Node) : w.truths ns <+: w.truths (ns ++ ms) := by
  induction ms using List.reverseRecOn with
  | nil => exact ⟨[], by rw [List.append_nil, List.append_nil]⟩
  | append_singleton ms m ih =>
    rw [← List.append_assoc, truths_concat]
    exact ih.trans (List.prefix_append _ _)

/-- Nodes that come later leave the truth of earlier ones alone. -/
theorem getD_truths_append (w : World) (ns ms : List Node) {i : Nat} (hi : i < ns.length) :
    (w.truths (ns ++ ms)).getD i false = (w.truths ns).getD i false := by
  obtain ⟨rest, hrest⟩ := w.truths_prefix ns ms
  rw [← hrest, List.getD_eq_getElem?_getD, List.getElem?_append_left (by rwa [length_truths]),
    List.getD_eq_getElem?_getD]

theorem getD_truths (w : World) {ns : List Node} {i : Nat} {n : Node} (hn : ns[i]? = some n) :
    (w.truths ns).getD i false = n.holdsAfter w (w.truths (ns.take i)) := by
  obtain ⟨hi, hget⟩ := List.getElem?_eq_some_iff.mp hn
  have hsplit : ns.take i ++ [n] ++ ns.drop (i + 1) = ns := by
    rw [List.append_assoc, List.singleton_append, ← hget, List.getElem_cons_drop,
      List.take_append_drop]
  have hlen : (w.truths (ns.take i)).length = i := by
    rw [length_truths, List.length_take, Nat.min_eq_left (Nat.le_of_lt hi)]
  conv_lhs => rw [← hsplit]
  rw [getD_truths_append w _ _ (by simp; omega), truths_concat, List.getD_eq_getElem?_getD,
    List.getElem?_append_right (by omega), hlen, Nat.sub_self]
  rfl

end World

namespace Formula

variable {f g : Formula} {w : World}

/-- Whether a guard holds in a world. -/
def holds (f : Formula) (w : World) : Guard → Bool
  | .always => true
  | .never => false
  | .node id => (w.truths f.nodes.toList).getD id.index false

/-- Growth does not change what a world says of a known guard. -/
theorem Extends.holds_eq (hfg : f.Extends g) {x : Guard} (hx : f.Knows x) (w : World) :
    g.holds w x = f.holds w x := by
  cases x with
  | always | never => rfl
  | node id =>
    obtain ⟨rest, hrest⟩ := hfg.nodes
    rw [holds, holds, ← hrest]
    exact w.getD_truths_append _ _ (by rwa [Array.length_toList])

/-- An atom holds as assigned. -/
theorem holds_atom {id : NodeId} {t : Term} {p : Option Term} {s : Source}
    (h : f.node? id = some (.atom t p s)) (w : World) : f.holds w (.node id) = w id := by
  have hlt := index_lt_of_node? h
  rw [node?, ← Array.getElem?_toList] at h
  rw [holds, w.getD_truths h, Node.holdsAfter, World.length_truths, List.length_take,
    Nat.min_eq_left (by rw [Array.length_toList]; exact Nat.le_of_lt hlt)]

/-- A conjunction holds if all its children do. -/
theorem holds_conjunction (hf : f.WellFormed) {id : NodeId} {cs : List NodeId}
    (h : f.node? id = some (.conjunction cs)) (w : World) :
    f.holds w (.node id) = cs.all fun c => f.holds w (.node c) := by
  have hlt := index_lt_of_node? h
  obtain ⟨-, -, hbefore⟩ := hf.children id cs h
  rw [node?, ← Array.getElem?_toList] at h
  rw [holds, w.getD_truths h, Node.holdsAfter]
  rw [Bool.eq_iff_iff, List.all_eq_true, List.all_eq_true]
  refine forall₂_congr fun c hc => ?_
  -- a child is among the nodes taken, so its truth is the one it has in the whole formula
  have hc' : c.index < (f.nodes.toList.take id.index).length := by
    rw [List.length_take, Array.length_toList]
    exact Nat.lt_min.mpr ⟨hbefore c hc, Nat.lt_trans (hbefore c hc) hlt⟩
  rw [holds, ← w.getD_truths_append _ (f.nodes.toList.drop id.index) hc', List.take_append_drop]

/-- Guards other than `never` all hold if the nodes among them do. -/
theorem all_holds_iff_children {guards : List Guard} (hn : .never ∉ guards) :
    guards.all (f.holds w) = (childrenOf guards).all fun c => f.holds w (.node c) := by
  rw [Bool.eq_iff_iff, List.all_eq_true, List.all_eq_true]
  constructor
  · exact fun h c hc => h _ (mem_childrenOf.mp hc)
  · intro h x hx
    cases x with
    | always => rfl
    | never => exact absurd hx hn
    | node id => exact h id (mem_childrenOf.mpr hx)

/-- The conjunction of guards holds if all of them do. -/
theorem holds_conjoinAll (hf : f.WellFormed) {guards : List Guard} (hk : ∀ x ∈ guards, f.Knows x)
    (w : World) :
    (conjoinAll guards f).2.holds w (conjoinAll guards f).1 = guards.all (f.holds w) := by
  have hwf := (wellFormed_conjoinAll hf hk).1
  have hext := f.extends_conjoinAll guards
  have hcases := conjoinAll_conjoins guards f
  generalize conjoinAll guards f = r at hcases hwf hext ⊢
  obtain ⟨x, g⟩ := r
  cases hcases with
  | never h =>
    symm
    rw [holds, List.all_eq_false]
    exact ⟨.never, h, Bool.false_ne_true⟩
  | always h hc => rw [all_holds_iff_children h, hc]; rfl
  | single h c hc =>
    rw [all_holds_iff_children h, hc, List.all_cons, List.all_nil, Bool.and_true]
  | found h _ id hid =>
    rw [all_holds_iff_children h]
    exact holds_conjunction hf ((hf.conjunction_iff _ id).mp hid) w
  | new h =>
    have hnode : (f.withConjunction (childrenOf guards)).node? f.nextId =
        some (.conjunction (childrenOf guards)) := by rw [node?_withConjunction, if_pos rfl]
    rw [all_holds_iff_children h, holds_conjunction hwf hnode w, Bool.eq_iff_iff, List.all_eq_true,
      List.all_eq_true]
    exact forall₂_congr fun c hc => by rw [hext.holds_eq (hk _ (mem_childrenOf.mp hc)) w]

end Formula

end Grounding
