import Mathlib.Data.Set.Finite.Lattice
import Mathlib.Logic.Relation
import Grounding.Term.Basic

/-!
# Parts of terms

The parts of a term are the term and the parts of its arguments. There are finitely many, none is
higher than the term, and the items of a proper list are among them. The parts of a ground term are
ground.
-/

namespace Grounding.Term

variable {t s a : Term}

/-- The terms that are met on the way down through arguments. -/
def Part : Term → Term → Prop := Relation.ReflTransGen fun t a => a ∈ t.args

theorem finite_parts (t : Term) : {s | t.Part s}.Finite := by
  have hparts : {s | t.Part s} ⊆ {t} ∪ ⋃ a ∈ {a | a ∈ t.args}, {s | a.Part s} := by
    intro s hs
    rcases Relation.ReflTransGen.cases_head hs with rfl | ⟨a, ha, has⟩
    · exact .inl rfl
    · exact .inr (Set.mem_biUnion ha has)
  refine ((Set.finite_singleton t).union ?_).subset hparts
  refine Set.Finite.biUnion (List.finite_toSet t.args) fun a ha => ?_
  have hlower := height_lt_of_mem_args ha
  exact finite_parts a
termination_by t.height

theorem Part.height_le (h : t.Part s) : s.height ≤ t.height := by
  induction h with
  | refl => exact Nat.le_refl _
  | tail _ ha ih => exact Nat.le_trans (Nat.le_of_lt (height_lt_of_mem_args ha)) ih

/-- The items of a proper list are parts of it. -/
theorem part_of_list? {items : List Term} (h : t.list? = some items) (ha : a ∈ items) :
    t.Part a := by
  fun_induction list? t generalizing items with
  | case1 =>
    cases h
    cases ha
  | case3 head tail ih =>
    obtain ⟨rest, hrest, rfl⟩ := Option.map_eq_some_iff.mp h
    rcases List.mem_cons.mp ha with rfl | ha
    · exact .single List.mem_cons_self
    · exact .head (List.mem_cons_of_mem _ List.mem_cons_self) (ih hrest ha)
  | _ => cases h

theorem allGround_iff {ts : List Term} : allGround ts ↔ ∀ t ∈ ts, t.isGround := by
  induction ts with
  | nil => simp [allGround]
  | cons t ts ih => rw [allGround, Bool.and_eq_true, ih, List.forall_mem_cons]

theorem isGround_of_mem_args (ht : t.isGround) (ha : a ∈ t.args) : a.isGround := by
  cases t with
  | compound | symbolic | realized => exact allGround_iff.mp ht a ha
  | _ => cases ha

theorem Part.isGround (h : t.Part s) (ht : t.isGround) : s.isGround := by
  induction h with
  | refl => exact ht
  | tail _ ha ih => exact isGround_of_mem_args ih ha

end Grounding.Term
