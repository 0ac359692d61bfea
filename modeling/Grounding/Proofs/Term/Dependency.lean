import Grounding.Proofs.Term.Part

/-!
# What a term depends on

A term depends on the names of realizations that stand in it, where the distribution of a realized
value counts as no part of it. An open expression carries a list of names. If every open expression
in a term carries the names that its arguments depend on, then the names of the term are what it
depends on, and building terms from such terms keeps it so.
-/

namespace Grounding.Term

variable {t a : Term} {ts items : List Term} {name functor : String}

/-- A density, a realized value or a coordinate with this name stands in the term. -/
inductive DependsOn (name : String) : Term → Prop
  | density : DependsOn name (.density name)
  | realized {functor : String} {args : List Term} {dimensions : Nat} :
      DependsOn name (.realized functor args name dimensions)
  | coordinate {index : Nat} : DependsOn name (.coordinate name index)
  | compound {functor : String} {args : List Term} {a : Term} (ha : a ∈ args)
      (h : DependsOn name a) : DependsOn name (.compound functor args)
  | symbolic {functor : String} {args : List Term} {names : NameSet} {a : Term} (ha : a ∈ args)
      (h : DependsOn name a) : DependsOn name (.symbolic functor args names)

theorem dependsOn_compound_iff : DependsOn name (.compound functor ts) ↔
    ∃ a ∈ ts, a.DependsOn name := by
  constructor
  · intro h
    cases h with
    | compound ha h => exact ⟨_, ha, h⟩
  · rintro ⟨a, ha, h⟩
    exact .compound ha h

theorem dependsOn_symbolic_iff {names : NameSet} : DependsOn name (.symbolic functor ts names) ↔
    ∃ a ∈ ts, a.DependsOn name := by
  constructor
  · intro h
    cases h with
    | symbolic ha h => exact ⟨_, ha, h⟩
  · rintro ⟨a, ha, h⟩
    exact .symbolic ha h

/-- Every open expression in the term carries the names that its arguments depend on. -/
def Labelled (t : Term) : Prop :=
  ∀ functor args names, t.Part (.symbolic functor args names) →
    ∀ name, name ∈ names ↔ ∃ a ∈ args, a.DependsOn name

theorem Labelled.part (ht : t.Labelled) (ha : t.Part a) : a.Labelled :=
  fun functor args names hpart => ht functor args names (ha.trans hpart)

/-- A term that is no open expression is labelled if its arguments are. -/
theorem labelled_of_args (hargs : ∀ a ∈ t.args, a.Labelled)
    (ht : ∀ functor args names, t ≠ .symbolic functor args names) : t.Labelled := by
  intro functor args names hpart
  rcases Relation.ReflTransGen.cases_head hpart with rfl | ⟨a, ha, hpart⟩
  · exact absurd rfl (ht functor args names)
  · exact hargs a ha functor args names hpart

theorem labelled_constant (n : Number) : (constant n).Labelled :=
  labelled_of_args (List.forall_mem_nil _) (by nofun)

theorem labelled_coordinate (name : String) (index : Nat) : (coordinate name index).Labelled :=
  labelled_of_args (List.forall_mem_nil _) (by nofun)

theorem labelled_ofList (hitems : ∀ a ∈ items, a.Labelled) : (ofList items).Labelled := by
  induction items with
  | nil => exact labelled_of_args (List.forall_mem_nil _) (by nofun)
  | cons x xs ih =>
    obtain ⟨hx, hxs⟩ := List.forall_mem_cons.mp hitems
    refine labelled_of_args ?_ (by nofun)
    exact List.forall_mem_cons.mpr ⟨hx, List.forall_mem_singleton.mpr (ih hxs)⟩

theorem mem_singleton_names {other : String} : name ∈ ({other} : NameSet) ↔ name = other := by
  show name ∈ (∅ : NameSet).insert other ↔ name = other
  rw [Std.ExtTreeSet.mem_insert, Std.LawfulEqOrd.compare_eq_iff_eq]
  simp [eq_comm]

theorem mem_namesOf : name ∈ namesOf ts ↔ ∃ a ∈ ts, name ∈ a.names := by
  induction ts with
  | nil => simp [namesOf]
  | cons a as ih => simp [namesOf, Std.ExtTreeSet.mem_union_iff, ih]

theorem mem_names_ofList : name ∈ (ofList items).names ↔ ∃ a ∈ items, name ∈ a.names := by
  induction items with
  | nil => simp [ofList, nil, names]
  | cons a as ih =>
    show name ∈ namesOf [a, ofList as] ↔ _
    simp [mem_namesOf, ih]

/-- The names of a labelled term are what it depends on. -/
theorem mem_names_iff {t : Term} (ht : t.Labelled) : name ∈ t.names ↔ t.DependsOn name := by
  cases t with
  | constant | atom | var =>
    refine iff_of_false (by simp [names]) ?_
    nofun
  | density other | coordinate other | realized _ _ other =>
    rw [names, mem_singleton_names]
    constructor
    · rintro rfl
      constructor
    · rintro ⟨⟩
      rfl
  | compound functor args =>
    rw [names, mem_namesOf, dependsOn_compound_iff]
    refine exists_congr fun a => and_congr_right fun ha => ?_
    have hlower : a.height < (compound functor args).height := height_lt_of_mem_args ha
    exact mem_names_iff (ht.part (.single ha))
  | symbolic functor args names =>
    rw [dependsOn_symbolic_iff]
    exact ht functor args names .refl name
termination_by t.height

/-- An open expression on labelled arguments is labelled. -/
theorem labelled_mkSymbolic (hargs : ∀ a ∈ ts, a.Labelled) : (mkSymbolic functor ts).Labelled := by
  intro functor' args names hpart
  rcases Relation.ReflTransGen.cases_head hpart with h | ⟨a, ha, hpart⟩
  · obtain ⟨-, rfl, rfl⟩ := Term.symbolic.inj h
    intro name
    rw [mem_namesOf]
    exact exists_congr fun a => and_congr_right fun ha => mem_names_iff (hargs a ha)
  · exact hargs a ha functor' args names hpart

end Grounding.Term
