import Grounding.Proofs.Formula.Correspondence
import Grounding.Proofs.Replay
import Grounding.Proofs.Session.Operation

/-!
# Nested conjunctions

Conjoining is commutative and drops repetitions, constants are neutral or absorbing, but a
conjunction is registered with the guards that it was made of, and these are not taken apart. So the
two ways of nesting three guards give guards that hold in the same worlds, and as a rule these are
different nodes. `Guard.Merges` says when they are the same.

A conjunction that was registered is found again in every later formula. So both nestings can be
looked at in the last formula, where they change nothing, and where a conjunction of two different
nodes comes after both.
-/

namespace Grounding

namespace Formula

variable {f g h k : Formula} {a b c x y : Guard} {i j p : NodeId}

theorem conjoin_comm (a b : Guard) (f : Formula) : conjoin a b f = conjoin b a f :=
  conjoinAll_congr (fun x => by simp [or_comm]) f

theorem conjoin_always (a : Guard) (f : Formula) : conjoin .always a f = (a, f) := by
  cases a with
  | always => rfl
  | never => rfl
  | node id => rfl

theorem conjoin_never (a : Guard) (f : Formula) : conjoin .never a f = (.never, f) := rfl

theorem conjoin_self (a : Guard) (f : Formula) : conjoin a a f = (a, f) := by
  have hone : conjoinAll [a, a] f = conjoinAll [a] f := conjoinAll_congr (fun x => by simp) f
  rw [conjoin, hone]
  cases a <;> rfl

/-- In a formula that has the conjunction of two nodes, it is the one node, or a later one that has
both as its children. -/
theorem conjoin_node_cases (hk : k.WellFormed) (h : conjoin (.node i) (.node j) k = (x, k)) :
    ∃ p, x = .node p ∧ (i = j ∧ p = i ∨ i ≠ j ∧ i.index < p.index ∧ j.index < p.index ∧
      k.node? p = some (.conjunction (childrenOf [.node i, .node j]))) := by
  by_cases hij : i = j
  · subst hij
    rw [conjoin_self] at h
    cases h
    exact ⟨i, rfl, .inl ⟨rfl, rfl⟩⟩
  have hi : i ∈ childrenOf [.node i, .node j] := mem_childrenOf.mpr (by simp)
  have hj : j ∈ childrenOf [.node i, .node j] := mem_childrenOf.mpr (by simp)
  have hnever : Guard.never ∉ [.node i, .node j] := by simp
  have hcontent := conjoinAll_content hk hnever
  rw [← conjoin, h] at hcontent
  rcases hcontent with ⟨hnil, -⟩ | ⟨c, hc, -⟩ | ⟨-, p, hx, hp⟩
  · rw [hnil] at hi
    cases hi
  · rw [hc, List.mem_singleton] at hi hj
    exact absurd (hi.trans hj.symm) hij
  · have hbefore := (hk.children p _ hp).2.2
    exact ⟨p, hx, .inr ⟨hij, hbefore i hi, hbefore j hj, hp⟩⟩

/-- The conjunction of three guards, the first two first. -/
def conjoinLeft (a b c : Guard) (f : Formula) : Guard × Formula :=
  let (ab, f) := conjoin a b f
  conjoin ab c f

/-- The conjunction of three guards, the last two first. -/
def conjoinRight (a b c : Guard) (f : Formula) : Guard × Formula :=
  let (bc, f) := conjoin b c f
  conjoin a bc f

end Formula

/-- The two nestings of three guards give one guard: one of them is a constant, or the outer two are
equal. -/
def Guard.Merges (a b c : Guard) : Prop :=
  a.node? = none ∨ b.node? = none ∨ c.node? = none ∨ a = c

instance (a b c : Guard) : Decidable (Guard.Merges a b c) :=
  inferInstanceAs (Decidable (_ ∨ _ ∨ _ ∨ _))

namespace Formula

variable {f g h k : Formula} {a b c x y z : Guard} {i j l : NodeId}

theorem Guard.eq_always_or_never (h : a.node? = none) : a = .always ∨ a = .never := by
  cases a with
  | always => exact .inl rfl
  | never => exact .inr rfl
  | node id => cases h

/-- If one of the guards is a constant or the outer two are equal, both nestings do the same, or
give `never`. -/
theorem conjoinLeft_cases (h : Guard.Merges a b c) (f : Formula) :
    conjoinLeft a b c f = conjoinRight a b c f ∨
      (conjoinLeft a b c f).1 = .never ∧ (conjoinRight a b c f).1 = .never := by
  rw [conjoinLeft, conjoinRight]
  rcases h with ha | hb | hc | rfl
  · rcases Guard.eq_always_or_never ha with rfl | rfl
    · simp only [conjoin_always, true_or]
    · simp only [conjoin_never, and_self, or_true]
  · rcases Guard.eq_always_or_never hb with rfl | rfl
    · simp only [conjoin_comm a .always, conjoin_always, true_or]
    · simp only [conjoin_comm a .never, conjoin_never, true_or]
  · rcases Guard.eq_always_or_never hc with rfl | rfl
    · simp only [conjoin_comm _ .always, conjoin_always, true_or]
    · simp only [conjoin_comm _ .never, conjoin_never, and_self, or_true]
  · simp only [conjoin_comm b a, conjoin_comm _ a, true_or]

/-- In a formula that has both nestings of three nodes, they are the same only if the outer two
nodes are. -/
theorem eq_of_nested (hk : k.WellFormed) {ij jl : Guard}
    (hfirst : conjoin (.node i) (.node j) k = (ij, k)) (hleft : conjoin ij (.node l) k = (x, k))
    (hlast : conjoin (.node j) (.node l) k = (jl, k)) (hright : conjoin (.node i) jl k = (x, k)) :
    i = l := by
  obtain ⟨p, rfl, hij⟩ := conjoin_node_cases hk hfirst
  obtain ⟨q, rfl, hjl⟩ := conjoin_node_cases hk hlast
  obtain ⟨r, rfl, hx⟩ := conjoin_node_cases hk hleft
  obtain ⟨r', hr, hy⟩ := conjoin_node_cases hk hright
  obtain rfl := Guard.node.inj hr
  by_contra hil
  rcases hx with ⟨rfl, rfl⟩ | ⟨hpl, hpr, hlr, hx⟩ <;> rcases hy with ⟨rfl, rfl⟩ | ⟨hiq, hir, hqr, hy⟩
  · exact hil rfl
  · -- the last node is the whole conjunction, so no conjunction with it comes before
    rcases hjl with ⟨rfl, rfl⟩ | ⟨-, -, hlq, -⟩
    · exact Nat.lt_irrefl _ hqr
    · exact Nat.lt_asymm hlq hqr
  · rcases hij with ⟨rfl, rfl⟩ | ⟨-, hip, -, -⟩
    · exact Nat.lt_irrefl _ hpr
    · exact Nat.lt_asymm hip hpr
  · -- two conjunctions of two nodes each, with the same children
    rw [hx] at hy
    have hsame : childrenOf [.node p, .node l] = childrenOf [.node i, .node q] :=
      Node.conjunction.inj (Option.some.inj hy)
    have hi : i ∈ childrenOf [.node p, .node l] := by
      rw [hsame, mem_childrenOf]
      exact List.mem_cons_self
    have hl : l ∈ childrenOf [.node i, .node q] := by
      rw [← hsame, mem_childrenOf]
      exact List.mem_cons_of_mem _ List.mem_cons_self
    simp only [mem_childrenOf, List.mem_cons, Guard.node.injEq, List.not_mem_nil, or_false] at hi hl
    obtain rfl := hi.resolve_right hil
    obtain rfl := hl.resolve_left (Ne.symm hil)
    rcases hij with ⟨rfl, -⟩ | ⟨-, hlt, -, -⟩
    · rcases hjl with ⟨rfl, -⟩ | ⟨-, -, hlt, -⟩
      · exact hil rfl
      · exact Nat.lt_irrefl _ hlt
    · exact Nat.lt_irrefl _ hlt

/-- The other nesting is that of the guards in reverse. -/
theorem conjoinRight_eq (a b c : Guard) (f : Formula) :
    conjoinRight a b c f = conjoinLeft c b a f := by
  rw [conjoinRight, conjoinLeft, conjoin_comm b c]
  exact conjoin_comm _ _ _

theorem conjoinLeft_again (hk : (conjoinLeft a b c f).2.Extends k) : ∃ ab,
    conjoin a b k = (ab, k) ∧ conjoin ab c k = ((conjoinLeft a b c f).1, k) :=
  ⟨(conjoin a b f).1, conjoinAll_again ((extends_conjoinAll _ _).trans hk), conjoinAll_again hk⟩

theorem extends_conjoinLeft (a b c : Guard) (f : Formula) :
    f.Extends (conjoinLeft a b c f).2 := (f.extends_conjoinAll _).trans (extends_conjoinAll _ _)

theorem conjoinLeft_eq (a b c : Guard) (f : Formula) :
    conjoinLeft a b c f = conjoinAll [(conjoinAll [a, b] f).1, c] (conjoinAll [a, b] f).2 := rfl

theorem knows_pair (ha : f.Knows a) (hb : f.Knows b) : ∀ x ∈ [a, b], f.Knows x :=
  List.forall_mem_cons.mpr ⟨ha, List.forall_mem_singleton.mpr hb⟩

theorem wellFormed_conjoinLeft (hf : f.WellFormed) (ha : f.Knows a) (hb : f.Knows b)
    (hc : f.Knows c) : (conjoinLeft a b c f).2.WellFormed ∧
      (conjoinLeft a b c f).2.Knows (conjoinLeft a b c f).1 := by
  obtain ⟨hwf, hab⟩ := wellFormed_conjoinAll hf (knows_pair ha hb)
  exact wellFormed_conjoinAll hwf (knows_pair hab ((f.extends_conjoinAll [a, b]).knows hc))

theorem holds_conjoinLeft (hf : f.WellFormed) (ha : f.Knows a) (hb : f.Knows b) (hc : f.Knows c)
    (w : World) : (conjoinLeft a b c f).2.holds w (conjoinLeft a b c f).1 =
      (f.holds w a && f.holds w b && f.holds w c) := by
  obtain ⟨hwf, hab⟩ := wellFormed_conjoinAll hf (knows_pair ha hb)
  have hgrown := f.extends_conjoinAll [a, b]
  rw [conjoinLeft_eq, holds_conjoinAll hwf (knows_pair hab (hgrown.knows hc)), List.all_cons,
    List.all_cons, List.all_nil, Bool.and_true, hgrown.holds_eq hc,
    holds_conjoinAll hf (knows_pair ha hb), List.all_cons, List.all_cons, List.all_nil,
    Bool.and_true]

theorem corresponds_conjoinLeft {a' b' c' : Guard} (hg : g.WellFormed) (hh : h.WellFormed)
    (ha : Corresponds g h a a') (hb : Corresponds g h b b') (hc : Corresponds g h c c') :
    Corresponds (conjoinLeft a b c g).2 (conjoinLeft a' b' c' h).2 (conjoinLeft a b c g).1
      (conjoinLeft a' b' c' h).1 := by
  have hab := corresponds_conjoinAll hg hh (.cons ha (.cons hb .nil))
  have hc' := hc.grow (g.extends_conjoinAll [a, b]) (h.extends_conjoinAll [a', b'])
  have hwf := wellFormed_conjoinAll hg (knows_pair ha.left hb.left)
  have hwf' := wellFormed_conjoinAll hh (knows_pair ha.symm.left hb.symm.left)
  exact corresponds_conjoinAll hwf.1 hwf'.1 (.cons hab (.cons hc' .nil))

/-- The guard that both nestings give if they give one. -/
theorem fst_conjoinLeft_of_merges (h : Guard.Merges a b c) (f : Formula) :
    (conjoinLeft a b c f).1 = (conjoinRight a b c f).1 := by
  rcases conjoinLeft_cases h f with hsame | ⟨hleft, hright⟩
  · rw [hsame]
  · rw [hleft, hright]

/-- One after the other, the nestings give one guard exactly if one of the guards is a constant or
the outer two are equal. -/
theorem conjoinLeft_eq_iff (hh : h.WellFormed) (ha : h.Knows a) (hb : h.Knows b) (hc : h.Knows c)
    (hgrown : (conjoinLeft a b c f).2.Extends h) :
    (conjoinLeft a b c f).1 = (conjoinRight a b c h).1 ↔ Guard.Merges a b c := by
  constructor
  · rw [conjoinRight_eq]
    intro hsame
    have hk := (wellFormed_conjoinLeft hh hc hb ha).1
    have hgrown' := extends_conjoinLeft c b a h
    obtain ⟨ab, hab, hleft⟩ := conjoinLeft_again (hgrown.trans hgrown')
    obtain ⟨bc, hbc, hright⟩ := conjoinLeft_again (.refl (conjoinLeft c b a h).2)
    rw [hsame] at hleft
    rw [conjoin_comm] at hbc hright
    cases a with
    | always | never => exact .inl rfl
    | node i =>
      cases b with
      | always | never => exact .inr (.inl rfl)
      | node j =>
        cases c with
        | always | never => exact .inr (.inr (.inl rfl))
        | node l =>
          exact .inr (.inr (.inr (congrArg Guard.node (eq_of_nested hk hab hleft hbc hright))))
  · intro hmerges
    obtain ⟨ab, hab, hleft⟩ := conjoinLeft_again hgrown
    have hagain : conjoinLeft a b c h = ((conjoinLeft a b c f).1, h) := by
      rw [conjoinLeft, hab]
      exact hleft
    rw [← fst_conjoinLeft_of_merges hmerges, hagain]

/-- On two copies of a formula, the nestings give the same condition only in these cases. -/
theorem merges_of_corresponds (hf : f.WellFormed) (ha : f.Knows a) (hb : f.Knows b)
    (hc : f.Knows c) (hsame : Corresponds (conjoinLeft a b c f).2 (conjoinRight a b c f).2
      (conjoinLeft a b c f).1 (conjoinRight a b c f).1) : Guard.Merges a b c := by
  rw [conjoinRight_eq] at hsame
  obtain ⟨hg, -⟩ := wellFormed_conjoinLeft hf ha hb hc
  have hgrown := extends_conjoinLeft a b c f
  have hknown {x : Guard} (hx : f.Knows x) : Corresponds (conjoinLeft a b c f).2 f x x :=
    .of_known hf hgrown (.refl f) hx
  -- the second nesting made after the first one has the same counterpart as that on the copy
  have hfirst := hsame.grow (extends_conjoinLeft c b a _) (.refl _)
  have hafter := corresponds_conjoinLeft hg hf (hknown hc) (hknown hb) (hknown ha)
  have hwf := (wellFormed_conjoinLeft hf hc hb ha).1
  have hwf' := (wellFormed_conjoinLeft hg (hgrown.knows hc) (hgrown.knows hb) (hgrown.knows ha)).1
  have hequal : (conjoinLeft a b c f).1 = (conjoinRight a b c (conjoinLeft a b c f).2).1 := by
    rw [conjoinRight_eq]
    exact hfirst.symm.unique hwf hwf' hafter.symm
  exact (conjoinLeft_eq_iff hg (hgrown.knows ha) (hgrown.knows hb) (hgrown.knows hc)
    (.refl _)).mp hequal

end Formula

open Formula (conjoinLeft conjoinRight Corresponds)

/-- The two ways of nesting three guards give guards that hold in the same worlds. If one of the
guards is a constant or the outer two are equal, it is one guard; otherwise the guards differ,
whether the nestings are made one after the other or each on a copy of the formula. -/
theorem nestings_of_reachable {f : Formula} {a b c : Guard} (hf : f.Reachable) (ha : f.Knows a)
    (hb : f.Knows b) (hc : f.Knows c) :
    (∀ w, (conjoinLeft a b c f).2.holds w (conjoinLeft a b c f).1 =
      (f.holds w a && f.holds w b && f.holds w c)) ∧
    (∀ w, (conjoinRight a b c f).2.holds w (conjoinRight a b c f).1 =
      (f.holds w a && f.holds w b && f.holds w c)) ∧
    (Guard.Merges a b c → (conjoinLeft a b c f).1 = (conjoinRight a b c f).1) ∧
    (Corresponds (conjoinLeft a b c f).2 (conjoinRight a b c f).2 (conjoinLeft a b c f).1
      (conjoinRight a b c f).1 ↔ Guard.Merges a b c) ∧
    ∀ h, (conjoinLeft a b c f).2.Reaches h →
      ((conjoinLeft a b c f).1 = (conjoinRight a b c h).1 ↔ Guard.Merges a b c) := by
  have hwf := hf.wellFormed
  obtain ⟨hleft, hknown⟩ := Formula.wellFormed_conjoinLeft hwf ha hb hc
  refine ⟨Formula.holds_conjoinLeft hwf ha hb hc, fun w => ?_,
    fun hmerges => Formula.fst_conjoinLeft_of_merges hmerges f,
    ⟨Formula.merges_of_corresponds hwf ha hb hc, fun hmerges => ?_⟩, fun h hh => ?_⟩
  · rw [Formula.conjoinRight_eq, Formula.holds_conjoinLeft hwf hc hb ha, Bool.and_assoc,
      Bool.and_comm, Bool.and_comm (f.holds w b)]
  · rcases Formula.conjoinLeft_cases hmerges f with hsame | ⟨hnever, hnever'⟩
    · rw [← hsame]
      exact .of_known hleft (.refl _) (.refl _) hknown
    · rw [hnever, hnever']
      exact .never
  · have hchain := hh.chain hleft
    have hgrown := (Formula.extends_conjoinLeft a b c f).trans hchain.grows
    exact Formula.conjoinLeft_eq_iff (hchain.wellFormed hleft) (hgrown.knows ha) (hgrown.knows hb)
      (hgrown.knows hc) hchain.grows

/-- Three facts, and the conjunction of the first two. -/
def Formula.paired : Formula :=
  let (_, f) := empty.addAtom (.atom "a") none .fact
  let (_, f) := f.addAtom (.atom "b") none .fact
  let (_, f) := f.addAtom (.atom "c") none .fact
  (conjoin (.node ⟨0⟩) (.node ⟨1⟩) f).2

theorem Formula.paired_reachable : paired.Reachable := by
  have ha : Reachable (empty.addAtom (.atom "a") none .fact).2 :=
    .step (.atom (.atom "a") none .fact) .refl trivial rfl
  have hb := Reaches.step (.atom (.atom "b") none .fact) ha trivial rfl
  have hc := Reaches.step (.atom (.atom "c") none .fact) hb trivial rfl
  exact .step (.conjoin [.node ⟨0⟩, .node ⟨1⟩]) hc (by decide) rfl

theorem nestings_of_paired :
    (conjoinLeft (.node ⟨0⟩) (.node ⟨1⟩) (.node ⟨2⟩) Formula.paired).1 ≠
      (conjoinRight (.node ⟨0⟩) (.node ⟨1⟩) (.node ⟨2⟩)
        (conjoinLeft (.node ⟨0⟩) (.node ⟨1⟩) (.node ⟨2⟩) Formula.paired).2).1 ∧
    (conjoinLeft (.node ⟨0⟩) (.node ⟨3⟩) (.node ⟨0⟩) Formula.paired).1 =
      (conjoinRight (.node ⟨0⟩) (.node ⟨3⟩) (.node ⟨0⟩) Formula.paired).1 := by
  obtain ⟨-, -, -, -, hafter⟩ := nestings_of_reachable (a := .node ⟨0⟩) (b := .node ⟨1⟩)
    (c := .node ⟨2⟩) Formula.paired_reachable (by decide) (by decide) (by decide)
  obtain ⟨-, -, hmerges, -, -⟩ := nestings_of_reachable (a := .node ⟨0⟩) (b := .node ⟨3⟩)
    (c := .node ⟨0⟩) Formula.paired_reachable (by decide) (by decide) (by decide)
  exact ⟨fun hsame => absurd ((hafter _ .refl).mp hsame) (by decide), hmerges (by decide)⟩

/-- Three different guards, nested in both ways: on the formula itself, on a copy of it, and one
after the other. -/
theorem nestings_differ : Formula.paired.Reachable ∧
    (∀ x ∈ [Guard.node ⟨0⟩, .node ⟨1⟩, .node ⟨2⟩], Formula.paired.Knows x) ∧
    (conjoinLeft (.node ⟨0⟩) (.node ⟨1⟩) (.node ⟨2⟩) Formula.paired).1 = .node ⟨4⟩ ∧
    (conjoinRight (.node ⟨0⟩) (.node ⟨1⟩) (.node ⟨2⟩) Formula.paired).1 = .node ⟨5⟩ ∧
    (conjoinRight (.node ⟨0⟩) (.node ⟨1⟩) (.node ⟨2⟩)
      (conjoinLeft (.node ⟨0⟩) (.node ⟨1⟩) (.node ⟨2⟩) Formula.paired).2).1 = .node ⟨6⟩ :=
  ⟨Formula.paired_reachable, by decide, rfl, rfl, rfl⟩

end Grounding
