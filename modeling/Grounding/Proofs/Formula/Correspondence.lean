import Mathlib.Combinatorics.Enumerative.DoubleCounting
import Mathlib.Data.List.Sort
import Grounding.Proofs.Formula.World

/-!
# Nodes with the same content

Two formulas may number the same conditions differently, and a conjunction lists its children by
number. So nodes are compared by content down to the atoms. Since content is registered once, no
node has the content of two nodes of another formula; if every node of two formulas has a
counterpart, the formulas differ by a renumbering.
-/

namespace Grounding

namespace Formula

variable {f g h g' h' : Formula} {i j k : NodeId} {xs ys : List Guard} {x y : Guard}

/-- The contents of two nodes match if related nodes count as the same. -/
inductive Matches (g h : Formula) (T : NodeId → NodeId → Prop) (i j : NodeId) : Prop
  | atom (t : Term) (p : Option Term) (s : Source) (hi : g.node? i = some (.atom t p s))
      (hj : h.node? j = some (.atom t p s))
  | conjunction (cs ds : List NodeId) (hi : g.node? i = some (.conjunction cs))
      (hj : h.node? j = some (.conjunction ds)) (hcs : ∀ c ∈ cs, ∃ d ∈ ds, T c d)
      (hds : ∀ d ∈ ds, ∃ c ∈ cs, T c d)

theorem Matches.mono {T T' : NodeId → NodeId → Prop} (hm : Matches g h T i j)
    (hT : ∀ a b, T a b → T' a b) : Matches g h T' i j := by
  cases hm with
  | atom t p s hi hj => exact .atom t p s hi hj
  | conjunction cs ds hi hj hcs hds =>
    refine .conjunction cs ds hi hj (fun c hc => ?_) fun d hd => ?_
    · obtain ⟨d, hd, hcd⟩ := hcs c hc
      exact ⟨d, hd, hT c d hcd⟩
    · obtain ⟨c, hc, hcd⟩ := hds d hd
      exact ⟨c, hc, hT c d hcd⟩

theorem Matches.symm {T : NodeId → NodeId → Prop} (hm : Matches g h T i j) :
    Matches h g (flip T) j i := by
  cases hm with
  | atom t p s hi hj => exact .atom t p s hj hi
  | conjunction cs ds hi hj hcs hds => exact .conjunction ds cs hj hi hds hcs

theorem Matches.grow {T : NodeId → NodeId → Prop} (hm : Matches g h T i j) (hg : g.Extends g')
    (hh : h.Extends h') : Matches g' h' T i j := by
  cases hm with
  | atom t p s hi hj => exact .atom t p s (hg.node? hi) (hh.node? hj)
  | conjunction cs ds hi hj hcs hds =>
    exact .conjunction cs ds (hg.node? hi) (hh.node? hj) hcs hds

/-- The nodes have the same content down to the atoms: some relation between nodes whose contents
match relates them. -/
def SameNode (g h : Formula) (i j : NodeId) : Prop :=
  ∃ T : NodeId → NodeId → Prop, (∀ a b, T a b → Matches g h T a b) ∧ T i j

namespace SameNode

theorem content (hij : SameNode g h i j) : Matches g h (SameNode g h) i j := by
  obtain ⟨T, hT, hij⟩ := hij
  exact (hT i j hij).mono fun a b hab => ⟨T, hT, hab⟩

theorem of_content (hm : Matches g h (SameNode g h) i j) : SameNode g h i j := by
  refine ⟨fun a b => SameNode g h a b ∨ a = i ∧ b = j, ?_, .inr ⟨rfl, rfl⟩⟩
  rintro a b (hab | ⟨rfl, rfl⟩)
  · exact hab.content.mono fun _ _ => .inl
  · exact hm.mono fun _ _ => .inl

theorem symm (hij : SameNode g h i j) : SameNode h g j i := by
  obtain ⟨T, hT, hij⟩ := hij
  exact ⟨flip T, fun a b hab => (hT b a hab).symm, hij⟩

theorem grow (hij : SameNode g h i j) (hg : g.Extends g') (hh : h.Extends h') :
    SameNode g' h' i j := by
  obtain ⟨T, hT, hij⟩ := hij
  exact ⟨T, fun a b hab => (hT a b hab).grow hg hh, hij⟩

/-- A node of a formula that both have grown from keeps its number. -/
theorem of_known (hf : f.WellFormed) (hg : f.Extends g) (hh : f.Extends h) (hi : f.Knows (.node i)) :
    SameNode g h i i := by
  refine ⟨fun a b => a = b ∧ f.Knows (.node a), ?_, rfl, hi⟩
  rintro a _ ⟨rfl, ha⟩
  obtain ⟨n, hn⟩ := Option.isSome_iff_exists.mp (isSome_node?_iff.mpr ha)
  cases n with
  | atom t p s => exact .atom t p s (hg.node? hn) (hh.node? hn)
  | conjunction cs =>
    have hknown (c : NodeId) (hc : c ∈ cs) : f.Knows (.node c) :=
      Nat.lt_trans ((hf.children a cs hn).2.2 c hc) ha
    exact .conjunction cs cs (hg.node? hn) (hh.node? hn) (fun c hc => ⟨c, hc, rfl, hknown c hc⟩)
      fun c hc => ⟨c, hc, rfl, hknown c hc⟩

theorem left (hij : SameNode g h i j) : g.Knows (.node i) := by
  cases hij.content with
  | atom _ _ _ hi => exact index_lt_of_node? hi
  | conjunction _ _ hi => exact index_lt_of_node? hi

theorem right (hij : SameNode g h i j) : h.Knows (.node j) := hij.symm.left

theorem atom (hij : SameNode g h i j) {t : Term} {p : Option Term} {s : Source}
    (hi : g.node? i = some (.atom t p s)) : h.node? j = some (.atom t p s) := by
  cases hij.content with
  | atom _ _ _ hi' hj =>
    rw [hi] at hi'
    cases hi'
    exact hj
  | conjunction _ _ hi' =>
    rw [hi] at hi'
    cases hi'

theorem conjunction (hij : SameNode g h i j) {cs : List NodeId}
    (hi : g.node? i = some (.conjunction cs)) : ∃ ds, h.node? j = some (.conjunction ds) ∧
      (∀ c ∈ cs, ∃ d ∈ ds, SameNode g h c d) ∧ ∀ d ∈ ds, ∃ c ∈ cs, SameNode g h c d := by
  cases hij.content with
  | atom _ _ _ hi' =>
    rw [hi] at hi'
    cases hi'
  | conjunction _ ds hi' hj hcs hds =>
    rw [hi] at hi'
    cases hi'
    exact ⟨ds, hj, hcs, hds⟩

end SameNode

/-- Two ascending lists of nodes with the same members are equal. -/
theorem eq_of_ascending {cs ds : List NodeId} (hcs : cs.Pairwise (·.index < ·.index))
    (hds : ds.Pairwise (·.index < ·.index)) (hmem : ∀ c, c ∈ cs ↔ c ∈ ds) : cs = ds := by
  have : Std.Irrefl fun a b : NodeId => a.index < b.index := ⟨fun a => Nat.lt_irrefl a.index⟩
  have : Std.Antisymm fun a b : NodeId => a.index < b.index :=
    ⟨fun a b hab hba => absurd hab (Nat.lt_asymm hba)⟩
  exact hcs.eq_of_mem_iff hds hmem

/-- Content is registered once, so there is one node of this content at most. -/
theorem SameNode.unique (hg : g.WellFormed) (hh : h.WellFormed) (hj : SameNode g h i j)
    (hk : SameNode g h i k) : j = k := by
  -- the children come before their conjunction
  induction hn : i.index using Nat.strong_induction_on generalizing i j k with
  | h n ih =>
    obtain ⟨node, hi⟩ := Option.isSome_iff_exists.mp (isSome_node?_iff.mpr hj.left)
    cases node with
    | atom t p s =>
      have hfound := (hh.findAtom_iff t j).mpr ⟨p, s, hj.atom hi⟩
      rw [(hh.findAtom_iff t k).mpr ⟨p, s, hk.atom hi⟩] at hfound
      exact (Option.some.inj hfound).symm
    | conjunction cs =>
      obtain ⟨ds, hj', hcs, hds⟩ := hj.conjunction hi
      obtain ⟨ds', hk', hcs', hds'⟩ := hk.conjunction hi
      have hbefore := (hg.children i cs hi).2.2
      have hsame (c : NodeId) (hc : c ∈ cs) {d d' : NodeId} (hd : SameNode g h c d)
          (hd' : SameNode g h c d') : d = d' := ih c.index (hn ▸ hbefore c hc) hd hd' rfl
      have hmem (d : NodeId) : d ∈ ds ↔ d ∈ ds' := by
        constructor
        · intro hd
          obtain ⟨c, hc, hcd⟩ := hds d hd
          obtain ⟨d', hd', hcd'⟩ := hcs' c hc
          exact hsame c hc hcd hcd' ▸ hd'
        · intro hd
          obtain ⟨c, hc, hcd⟩ := hds' d hd
          obtain ⟨d', hd', hcd'⟩ := hcs c hc
          exact hsame c hc hcd hcd' ▸ hd'
      obtain rfl := eq_of_ascending (hh.children j ds hj').2.1 (hh.children k ds' hk').2.1 hmem
      have hfound := (hh.conjunction_iff ds j).mpr hj'
      rw [(hh.conjunction_iff ds k).mpr hk'] at hfound
      exact (Option.some.inj hfound).symm

/-- A list is no longer than another one that has a counterpart for each of its members, if these
counterparts differ. -/
theorem length_le_of_related {T : NodeId → NodeId → Prop} {cs ds : List NodeId} (hnodup : cs.Nodup)
    (htotal : ∀ c ∈ cs, ∃ d ∈ ds, T c d) (hdiffer : ∀ a b d, T a d → T b d → a = b) :
    cs.length ≤ ds.length := by
  rw [← List.toFinset_card_of_nodup hnodup]
  refine Nat.le_trans (Finset.card_le_card_of_forall_subsingleton T (fun c hc => ?_) ?_)
    (List.toFinset_card_le ds)
  · obtain ⟨d, hd, hcd⟩ := htotal c (List.mem_toFinset.mp hc)
    exact ⟨d, List.mem_toFinset.mpr hd, hcd⟩
  · rintro d - a ⟨-, ha⟩ b ⟨-, hb⟩
    exact hdiffer a b d ha hb

/-- Nodes of the same content hold in the same worlds, if the atoms do. -/
theorem SameNode.holds_eq (hg : g.WellFormed) (hh : h.WellFormed) {w w' : World}
    (hw : ∀ a b t p s, g.node? a = some (.atom t p s) → h.node? b = some (.atom t p s) → w' b = w a)
    (hij : SameNode g h i j) : h.holds w' (.node j) = g.holds w (.node i) := by
  induction hn : i.index using Nat.strong_induction_on generalizing i j with
  | h n ih =>
    obtain ⟨node, hi⟩ := Option.isSome_iff_exists.mp (isSome_node?_iff.mpr hij.left)
    cases node with
    | atom t p s =>
      rw [holds_atom hi, holds_atom (hij.atom hi), hw i j t p s hi (hij.atom hi)]
    | conjunction cs =>
      obtain ⟨ds, hj, hcs, hds⟩ := hij.conjunction hi
      have hbefore := (hg.children i cs hi).2.2
      have hchild (c : NodeId) (hc : c ∈ cs) {d : NodeId} (hcd : SameNode g h c d) :
          h.holds w' (.node d) = g.holds w (.node c) := ih c.index (hn ▸ hbefore c hc) hcd rfl
      rw [holds_conjunction hg hi, holds_conjunction hh hj, Bool.eq_iff_iff, List.all_eq_true,
        List.all_eq_true]
      constructor
      · intro hall c hc
        obtain ⟨d, hd, hcd⟩ := hcs c hc
        rw [← hchild c hc hcd]
        exact hall d hd
      · intro hall d hd
        obtain ⟨c, hc, hcd⟩ := hds d hd
        rw [hchild c hc hcd]
        exact hall c hc

/-- The guards are the same constant, or name nodes with the same content. -/
inductive Corresponds (g h : Formula) : Guard → Guard → Prop
  | always : Corresponds g h .always .always
  | never : Corresponds g h .never .never
  | node {i j : NodeId} (hij : SameNode g h i j) : Corresponds g h (.node i) (.node j)

namespace Corresponds

theorem grow (hxy : Corresponds g h x y) (hg : g.Extends g') (hh : h.Extends h') :
    Corresponds g' h' x y := by
  cases hxy with
  | always => exact .always
  | never => exact .never
  | node hij => exact .node (hij.grow hg hh)

theorem symm (hxy : Corresponds g h x y) : Corresponds h g y x := by
  cases hxy with
  | always => exact .always
  | never => exact .never
  | node hij => exact .node hij.symm

theorem of_known (hf : f.WellFormed) (hg : f.Extends g) (hh : f.Extends h) (hx : f.Knows x) :
    Corresponds g h x x := by
  cases x with
  | always => exact .always
  | never => exact .never
  | node i => exact .node (.of_known hf hg hh hx)

theorem left (hxy : Corresponds g h x y) : g.Knows x := by
  cases hxy with
  | always | never => trivial
  | node hij => exact hij.left

theorem holds_eq (hg : g.WellFormed) (hh : h.WellFormed) {w w' : World}
    (hw : ∀ a b t p s, g.node? a = some (.atom t p s) → h.node? b = some (.atom t p s) → w' b = w a)
    (hxy : Corresponds g h x y) : h.holds w' y = g.holds w x := by
  cases hxy with
  | always | never => rfl
  | node hij => exact hij.holds_eq hg hh hw

theorem unique (hg : g.WellFormed) (hh : h.WellFormed) (hy : Corresponds g h x y)
    (hz : Corresponds g h x z) : y = z := by
  cases hy with
  | always =>
    cases hz
    rfl
  | never =>
    cases hz
    rfl
  | node hij =>
    cases hz with
    | node hik => exact congrArg Guard.node (hij.unique hg hh hik)

end Corresponds

section Conjunctions

theorem childrenOf_congr {xs ys : List Guard} (h : ∀ id, .node id ∈ xs ↔ .node id ∈ ys) :
    childrenOf xs = childrenOf ys :=
  eq_of_ascending (pairwise_childrenOf xs) (pairwise_childrenOf ys) fun c => by
    rw [mem_childrenOf, mem_childrenOf, h]

/-- What guards conjoin to depends on which guards there are beside `always`, not on their order. -/
theorem conjoinAll_congr_of_ne_always {xs ys : List Guard}
    (h : ∀ x, x ≠ .always → (x ∈ xs ↔ x ∈ ys)) (f : Formula) :
    conjoinAll xs f = conjoinAll ys f := by
  have hany : xs.any Guard.isNever = ys.any Guard.isNever := by
    rw [Bool.eq_iff_iff, List.any_eq_true, List.any_eq_true]
    refine exists_congr fun x => and_congr_left fun hx => h x ?_
    rintro rfl
    cases hx
  rw [conjoinAll, conjoinAll, hany, childrenOf_congr fun id => h _ (by simp)]

theorem conjoinAll_congr {xs ys : List Guard} (h : ∀ x, x ∈ xs ↔ x ∈ ys) (f : Formula) :
    conjoinAll xs f = conjoinAll ys f := conjoinAll_congr_of_ne_always (fun x _ => h x) f

theorem exists_of_mem_forall₂ {α β : Type} {R : α → β → Prop} {as : List α} {bs : List β} {a : α}
    (h : List.Forall₂ R as bs) (ha : a ∈ as) : ∃ b ∈ bs, R a b := by
  induction h with
  | nil => cases ha
  | @cons _ b _ _ hab _ ih =>
    rcases List.mem_cons.mp ha with rfl | ha
    · exact ⟨b, List.mem_cons_self, hab⟩
    · obtain ⟨c, hc, hac⟩ := ih ha
      exact ⟨c, List.mem_cons_of_mem _ hc, hac⟩

theorem never_mem_of_corresponds (hxs : List.Forall₂ (Corresponds g h) xs ys)
    (hx : .never ∈ xs) : .never ∈ ys := by
  obtain ⟨y, hy, hxy⟩ := exists_of_mem_forall₂ hxs hx
  cases hxy
  exact hy

theorem childrenOf_of_corresponds (hxs : List.Forall₂ (Corresponds g h) xs ys) {c : NodeId}
    (hc : c ∈ childrenOf xs) : ∃ d ∈ childrenOf ys, SameNode g h c d := by
  obtain ⟨y, hy, hxy⟩ := exists_of_mem_forall₂ hxs (mem_childrenOf.mp hc)
  cases hxy with
  | node hij => exact ⟨_, mem_childrenOf.mpr hy, hij⟩

theorem flip_corresponds (hxs : List.Forall₂ (Corresponds g h) xs ys) :
    List.Forall₂ (Corresponds h g) ys xs := hxs.flip.imp fun _ _ => Corresponds.symm

theorem nodup_childrenOf (guards : List Guard) : (childrenOf guards).Nodup := by
  refine (pairwise_childrenOf guards).imp fun {a b} hlt he => ?_
  rw [he] at hlt
  exact Nat.lt_irrefl _ hlt

theorem length_childrenOf_le (hg : g.WellFormed) (hh : h.WellFormed)
    (hxs : List.Forall₂ (Corresponds g h) xs ys) :
    (childrenOf xs).length ≤ (childrenOf ys).length :=
  length_le_of_related (nodup_childrenOf xs) (fun _ => childrenOf_of_corresponds hxs)
    fun _ _ _ ha hb => SameNode.unique hh hg ha.symm hb.symm

/-- What guards other than `never` conjoin to, whether the conjunction was there before or not. -/
theorem conjoinAll_content (hg : g.WellFormed) (hn : .never ∉ xs) :
    (childrenOf xs = [] ∧ (conjoinAll xs g).1 = .always) ∨
    (∃ c, childrenOf xs = [c] ∧ (conjoinAll xs g).1 = .node c) ∨
    (2 ≤ (childrenOf xs).length ∧ ∃ id, (conjoinAll xs g).1 = .node id ∧
      (conjoinAll xs g).2.node? id = some (.conjunction (childrenOf xs))) := by
  have hcases := conjoinAll_conjoins xs g
  generalize conjoinAll xs g = r at hcases ⊢
  obtain ⟨x, k⟩ := r
  cases hcases with
  | never h => exact absurd h hn
  | always _ hc => exact .inl ⟨hc, rfl⟩
  | single _ c hc => exact .inr (.inl ⟨c, hc, rfl⟩)
  | found _ hlen id hid => exact .inr (.inr ⟨hlen, id, rfl, (hg.conjunction_iff _ id).mp hid⟩)
  | new _ hlen =>
    exact .inr (.inr ⟨hlen, _, rfl, (node?_withConjunction g _ _).trans (if_pos rfl)⟩)

theorem conjoinAll_of_never (hn : .never ∈ xs) : (conjoinAll xs g).1 = .never := by
  have hcases := conjoinAll_conjoins xs g
  generalize conjoinAll xs g = r at hcases ⊢
  obtain ⟨x, k⟩ := r
  cases hcases with
  | never => rfl
  | always h | single h | found h | new h => exact absurd hn h

/-- The only node that conjoining can add is the one that it gives. -/
theorem knows_conjoinAll (hi : (conjoinAll xs g).2.Knows (.node i)) :
    g.Knows (.node i) ∨ (conjoinAll xs g).1 = .node i := by
  have hcases := conjoinAll_conjoins xs g
  generalize conjoinAll xs g = r at hcases hi ⊢
  obtain ⟨x, k⟩ := r
  cases hcases with
  | never | always | single | found => exact .inl hi
  | new => exact (knows_of_push (f := g) rfl hi).imp_right fun hnew => congrArg Guard.node hnew.symm

/-- Conjunctions of corresponding guards correspond. -/
theorem corresponds_conjoinAll (hg : g.WellFormed) (hh : h.WellFormed)
    (hxs : List.Forall₂ (Corresponds g h) xs ys) :
    Corresponds (conjoinAll xs g).2 (conjoinAll ys h).2 (conjoinAll xs g).1 (conjoinAll ys h).1 := by
  have hys := flip_corresponds hxs
  by_cases hn : .never ∈ xs
  · rw [conjoinAll_of_never hn, conjoinAll_of_never (never_mem_of_corresponds hxs hn)]
    exact .never
  have hn' : .never ∉ ys := fun hy => hn (never_mem_of_corresponds hys hy)
  have hgrown := g.extends_conjoinAll xs
  have hgrown' := h.extends_conjoinAll ys
  have hchild (c : NodeId) (hc : c ∈ childrenOf xs) : ∃ d ∈ childrenOf ys,
      SameNode (conjoinAll xs g).2 (conjoinAll ys h).2 c d := by
    obtain ⟨d, hd, hcd⟩ := childrenOf_of_corresponds hxs hc
    exact ⟨d, hd, hcd.grow hgrown hgrown'⟩
  have hchild' (d : NodeId) (hd : d ∈ childrenOf ys) : ∃ c ∈ childrenOf xs,
      SameNode (conjoinAll xs g).2 (conjoinAll ys h).2 c d := by
    obtain ⟨c, hc, hdc⟩ := childrenOf_of_corresponds hys hd
    exact ⟨c, hc, (hdc.grow hgrown' hgrown).symm⟩
  have hlength : (childrenOf xs).length = (childrenOf ys).length :=
    Nat.le_antisymm (length_childrenOf_le hg hh hxs) (length_childrenOf_le hh hg hys)
  rcases conjoinAll_content hg hn with ⟨hcs, hx⟩ | ⟨c, hcs, hx⟩ | ⟨hlen, id, hx, hid⟩ <;>
    rcases conjoinAll_content hh hn' with ⟨hds, hy⟩ | ⟨d, hds, hy⟩ | ⟨hlen', id', hy, hid'⟩ <;>
    rw [hx, hy]
  · exact .always
  · rw [hcs, hds] at hlength
    cases hlength
  · rw [hcs, List.length_nil] at hlength
    omega
  · rw [hcs, hds] at hlength
    cases hlength
  · obtain ⟨d', hd', hcd⟩ := hchild c (hcs ▸ List.mem_singleton_self c)
    rw [hds, List.mem_singleton] at hd'
    exact .node (hd' ▸ hcd)
  · rw [hcs, List.length_singleton] at hlength
    omega
  · rw [hds, List.length_nil] at hlength
    omega
  · rw [hds, List.length_singleton] at hlength
    omega
  · exact .node (.of_content (.conjunction _ _ hid hid' hchild hchild'))

end Conjunctions

end Formula

/-- The guard with its node renumbered. -/
def Guard.renumber (σ : NodeId → NodeId) : Guard → Guard
  | .node id => .node (σ id)
  | x => x

namespace Formula

variable {g h : Formula} {x y : Guard} {σ : NodeId → NodeId}

/-- `h` is `g` with its nodes renumbered: an atom is the same under its new number, and a
conjunction is that of its renumbered children. -/
structure Renumbering (g h : Formula) (σ : NodeId → NodeId) : Prop where
  bijective : Set.BijOn σ {i | g.Knows (.node i)} {j | h.Knows (.node j)}
  atom : ∀ i t p s, g.node? i = some (.atom t p s) → h.node? (σ i) = some (.atom t p s)
  conjunction : ∀ i cs, g.node? i = some (.conjunction cs) →
    h.node? (σ i) = some (.conjunction (childrenOf (cs.map fun c => (Guard.node c).renumber σ)))

theorem Renumbering.size_eq (hσ : Renumbering g h σ) : h.size = g.size := by
  have hinj {a b : NodeId} (hab : a.index = b.index) : a = b := by
    cases a
    cases b
    exact congrArg NodeId.mk hab
  have hcard : (Finset.range g.size).card = (Finset.range h.size).card := by
    refine Finset.card_nbij (fun i => (σ ⟨i⟩).index) (fun i hi => ?_) (fun i hi k hk hik => ?_) ?_
    · rw [Finset.mem_coe, Finset.mem_range] at hi ⊢
      exact hσ.bijective.mapsTo hi
    · rw [Finset.mem_coe, Finset.mem_range] at hi hk
      exact congrArg NodeId.index (hσ.bijective.injOn hi hk (hinj hik))
    · intro j hj
      rw [Finset.mem_coe, Finset.mem_range] at hj
      obtain ⟨i, hi, hij⟩ := hσ.bijective.surjOn (show (⟨j⟩ : NodeId) ∈ _ from hj)
      exact ⟨i.index, Finset.mem_range.mpr hi, congrArg NodeId.index hij⟩
  rwa [Finset.card_range, Finset.card_range, eq_comm] at hcard

/-- If every node of two formulas has a counterpart, giving each its counterpart is a renumbering.
-/
theorem exists_renumbering (hg : g.WellFormed) (hh : h.WellFormed)
    (hleft : ∀ i, g.Knows (.node i) → ∃ j, SameNode g h i j)
    (hright : ∀ j, h.Knows (.node j) → ∃ i, SameNode g h i j) :
    ∃ σ, Renumbering g h σ ∧ ∀ i j, SameNode g h i j → σ i = j := by
  have htotal (i : NodeId) : ∃ j, g.Knows (.node i) → SameNode g h i j := by
    by_cases hi : g.Knows (.node i)
    · obtain ⟨j, hij⟩ := hleft i hi
      exact ⟨j, fun _ => hij⟩
    · exact ⟨i, fun h => absurd h hi⟩
  choose σ hσ using htotal
  have heq (i j : NodeId) (hij : SameNode g h i j) : σ i = j := (hσ i hij.left).unique hg hh hij
  refine ⟨σ, ⟨⟨fun i hi => (hσ i hi).right, ?_, ?_⟩, ?_, ?_⟩, heq⟩
  · intro i hi k hk hik
    have hback := (hσ i hi).symm
    rw [hik] at hback
    exact hback.unique hh hg (hσ k hk).symm
  · intro j hj
    obtain ⟨i, hij⟩ := hright j hj
    exact ⟨i, hij.left, heq i j hij⟩
  · exact fun i t p s hi => (hσ i (index_lt_of_node? hi)).atom hi
  · intro i cs hi
    obtain ⟨ds, hj, hcs, hds⟩ := (hσ i (index_lt_of_node? hi)).conjunction hi
    have hmem (d : NodeId) :
        d ∈ ds ↔ d ∈ childrenOf (cs.map fun c => (Guard.node c).renumber σ) := by
      rw [mem_childrenOf, List.mem_map]
      constructor
      · intro hd
        obtain ⟨c, hc, hcd⟩ := hds d hd
        exact ⟨c, hc, congrArg Guard.node (heq c d hcd)⟩
      · rintro ⟨c, hc, hcd⟩
        obtain ⟨d', hd', hcd'⟩ := hcs c hc
        rw [Guard.renumber, heq c d' hcd', Guard.node.injEq] at hcd
        exact hcd ▸ hd'
    rw [hj, eq_of_ascending (hh.children _ ds hj).2.1 (pairwise_childrenOf _) hmem]

theorem Corresponds.renumber_eq (hσ : ∀ i j, SameNode g h i j → σ i = j)
    (hxy : Corresponds g h x y) : x.renumber σ = y := by
  cases hxy with
  | always | never => rfl
  | node hij => exact congrArg Guard.node (hσ _ _ hij)

end Formula

end Grounding
