import Grounding.Proofs.Session.Nesting

/-!
# Conjunctions of any number of guards

A conjunction is made of the set of its guards: their order, their repetitions and guards that
always hold make no difference to the guard that is returned or to the formula. It needs a new node
only if at least two different nodes are conjoined for the first time. So a conjunction that was
made once is found again, in whatever form it is asked for later.
-/

namespace Grounding.Formula

variable {f g : Formula} {xs ys : List Guard}

/-- The guards have a conjunction in the formula: it never holds, it takes one node at most, or
there is a node with exactly these children. -/
def HasConjunction (f : Formula) (xs : List Guard) : Prop :=
  .never ∈ xs ∨ (∀ i j, .node i ∈ xs → .node j ∈ xs → i = j) ∨
    ∃ id cs, f.node? id = some (.conjunction cs) ∧ ∀ i, i ∈ cs ↔ .node i ∈ xs

/-- Two nodes or more among guards are not all one node. -/
theorem exists_ne_of_two_le (h : 2 ≤ (childrenOf xs).length) :
    ∃ i j, .node i ∈ xs ∧ .node j ∈ xs ∧ i ≠ j := by
  have hnodup := nodup_childrenOf xs
  match hcs : childrenOf xs with
  | [] | [c] =>
    rw [hcs] at h
    simp at h
  | i :: j :: rest =>
    rw [hcs] at hnodup
    have hi : i ∈ childrenOf xs := by simp [hcs]
    have hj : j ∈ childrenOf xs := by simp [hcs]
    refine ⟨i, j, mem_childrenOf.mp hi, mem_childrenOf.mp hj, ?_⟩
    rintro rfl
    exact (List.nodup_cons.mp hnodup).1 List.mem_cons_self

/-- Children that are those of a conjunction are listed as it lists them. -/
theorem eq_childrenOf (hf : f.WellFormed) {id : NodeId} {cs : List NodeId}
    (hn : f.node? id = some (.conjunction cs)) (hcs : ∀ i, i ∈ cs ↔ .node i ∈ xs) :
    cs = childrenOf xs :=
  eq_of_ascending (hf.children id cs hn).2.1 (pairwise_childrenOf xs) fun i => by
    rw [hcs, mem_childrenOf]

/-- Conjoining guards changes the formula only if they have no conjunction in it. -/
theorem conjoinAll_eq_self_iff (hf : f.WellFormed) :
    (conjoinAll xs f).2 = f ↔ f.HasConjunction xs := by
  have hcases := conjoinAll_conjoins xs f
  generalize conjoinAll xs f = r at hcases ⊢
  obtain ⟨x, g⟩ := r
  cases hcases with
  | never h => exact iff_of_true rfl (.inl h)
  | always h hc =>
    refine iff_of_true rfl (.inr (.inl fun i j hi _ => ?_))
    rw [← mem_childrenOf, hc] at hi
    cases hi
  | single h c hc =>
    refine iff_of_true rfl (.inr (.inl fun i j hi hj => ?_))
    rw [← mem_childrenOf, hc, List.mem_singleton] at hi hj
    rw [hi, hj]
  | found h hc id hid =>
    exact iff_of_true rfl (.inr (.inr ⟨id, _, (hf.conjunction_iff _ id).mp hid,
      fun i => mem_childrenOf⟩))
  | new h hc hnew =>
    refine iff_of_false (fun hsame => ?_) ?_
    · have hsize := size_of_push (f := f) (g := f.withConjunction (childrenOf xs)) rfl
      rw [show f.withConjunction (childrenOf xs) = f from hsame] at hsize
      omega
    · rintro (hnever | hone | ⟨id, cs, hn, hcs⟩)
      · exact h hnever
      · obtain ⟨i, j, hi, hj, hij⟩ := exists_ne_of_two_le hc
        exact hij (hone i j hi hj)
      · rw [← eq_childrenOf hf hn hcs, (hf.conjunction_iff cs id).mpr hn] at hnew
        cases hnew

theorem size_conjoinAll_le (xs : List Guard) (f : Formula) :
    (conjoinAll xs f).2.size ≤ f.size + 1 := by
  rcases f.conjoinAll_cases xs with h | ⟨-, h⟩ <;> rw [h]
  · exact Nat.le_succ _
  · exact Nat.le_of_eq (size_of_push rfl)

end Grounding.Formula

namespace Grounding

open Formula (conjoinAll)

/-- Two lists with the same guards, beside those that always hold, have one conjunction: the same
guard and the same formula, which has at most one node more, and none if the guards had a
conjunction before. The conjunction holds in the worlds in which all of the guards do, every other
guard holds where it did, and after any further operations each of the lists gives this guard again.
-/
theorem conjunction_of_guards {f : Formula} {xs ys : List Guard} (hf : f.Reachable)
    (hknown : ∀ x ∈ xs, f.Knows x) (hsame : ∀ x, x ≠ .always → (x ∈ xs ↔ x ∈ ys)) :
    conjoinAll ys f = conjoinAll xs f ∧
    (∀ w, (conjoinAll xs f).2.holds w (conjoinAll xs f).1 = true ↔
      ∀ x ∈ xs, f.holds w x = true) ∧
    (conjoinAll xs f).2.size ≤ f.size + 1 ∧
    ((conjoinAll xs f).2 = f ↔ f.HasConjunction xs) ∧
    (∀ w x, f.Knows x → (conjoinAll xs f).2.holds w x = f.holds w x) ∧
    ∀ h, (conjoinAll xs f).2.Reaches h →
      conjoinAll xs h = ((conjoinAll xs f).1, h) ∧ conjoinAll ys h = ((conjoinAll xs f).1, h) := by
  have hwf := hf.wellFormed
  have hlists (g : Formula) : conjoinAll ys g = conjoinAll xs g :=
    (Formula.conjoinAll_congr_of_ne_always hsame g).symm
  refine ⟨hlists f, fun w => ?_, Formula.size_conjoinAll_le xs f,
    Formula.conjoinAll_eq_self_iff hwf,
    fun w x hx => (f.extends_conjoinAll xs).holds_eq hx w, fun h hh => ?_⟩
  · rw [Formula.holds_conjoinAll hwf hknown, List.all_eq_true]
  · have hgrown := (hh.chain (Formula.wellFormed_conjoinAll hwf hknown).1).grows
    have hagain : conjoinAll xs h = ((conjoinAll xs f).1, h) := Formula.conjoinAll_again hgrown
    exact ⟨hagain, (hlists h).trans hagain⟩

/-- Two facts that were not conjoined before, once with a repetition and a guard that always holds,
and two that were. -/
theorem conjunction_of_paired :
    conjoinAll [.node ⟨0⟩, .node ⟨2⟩] Formula.paired =
      conjoinAll [.node ⟨2⟩, .always, .node ⟨0⟩, .node ⟨2⟩] Formula.paired ∧
    (conjoinAll [.node ⟨0⟩, .node ⟨2⟩] Formula.paired).1 = .node ⟨4⟩ ∧
    (conjoinAll [.node ⟨1⟩, .always, .node ⟨0⟩] Formula.paired).2 = Formula.paired := by
  have hsame (x : Guard) (hx : x ≠ .always) :
      x ∈ [.node ⟨2⟩, .always, .node ⟨0⟩, .node ⟨2⟩] ↔ x ∈ [.node ⟨0⟩, .node ⟨2⟩] := by
    simp only [List.mem_cons, List.not_mem_nil, hx, or_false, false_or]
    tauto
  have hrefl (x : Guard) (_ : x ≠ .always) :
      x ∈ [.node ⟨1⟩, .always, .node ⟨0⟩] ↔ x ∈ [.node ⟨1⟩, .always, .node ⟨0⟩] := .rfl
  obtain ⟨hlists, -⟩ := conjunction_of_guards Formula.paired_reachable (by decide) hsame
  obtain ⟨-, -, -, hnone, -⟩ := conjunction_of_guards Formula.paired_reachable (by decide) hrefl
  refine ⟨hlists, rfl, hnone.mpr (.inr (.inr ⟨⟨3⟩, [⟨0⟩, ⟨1⟩], rfl, fun i => ?_⟩))⟩
  simp [or_comm]

end Grounding
