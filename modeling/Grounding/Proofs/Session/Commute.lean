import Grounding.Proofs.Evaluation.Parallel
import Grounding.Proofs.Formula.Alike
import Grounding.Proofs.Formula.Correspondence
import Grounding.Proofs.Session.Site

/-!
# The order of evaluations

Two expressions can be evaluated in either order. Both orders come to the same values, under guards
that hold in the same worlds, and leave formulas that differ by a renumbering of the conjunctions
that were added.

Each expression is evaluated twice: on the formula as it was, and on the one that the other
expression has left. These two runs go side by side. What one of them adds to its formula, the other
adds to its own or finds there, so at the end every node of one order has a counterpart in the
other.
-/

namespace Grounding

open GroundingM

namespace Formula

variable {f g h k g' h' : Formula} {v : Term} {s : NodeId} {d : Descriptor} {xs ys : List Guard}

theorem withDescriptor_of_found (hd : g.descriptor? d.name = some d) : g.withDescriptor d = g := by
  have hsame : g.descriptors.insert d.name d = g.descriptors := by
    refine Std.ExtTreeMap.ext_getElem? fun name => ?_
    rw [Std.ExtTreeMap.getElem?_insert]
    split
    · next hname =>
      rw [← Std.LawfulEqCmp.compare_eq_iff_eq.mp hname]
      exact hd.symm
    · rfl
  show { g with descriptors := g.descriptors.insert d.name d } = g
  rw [hsame]

/-- Whether it is there or not, the descriptor of a realization is made of its distribution and the
number of its coordinates. -/
theorem Coherent.descriptorOf_eq (hg : g.Coherent) : g.descriptorOf v s =
    (g.newDescriptor v s (g.coordinatesOf (realizationName v s)).length).map
      fun d => (d, g.withDescriptor d) := by
  have hlength (name : String) (n : Nat) : (Term.coordinates name n).length = n := by
    rw [Term.coordinates, List.length_map, List.length_range]
  unfold descriptorOf coordinatesOf
  cases hd : g.descriptor? (realizationName v s) with
  | some d =>
    have hnew := (hg.descriptor_of_name hd).1
    dsimp only
    rw [Descriptor.coordinates, hlength, hnew]
    rw [← (newDescriptor_inv hnew).1] at hd
    show Except.ok (d, g) = .ok (d, g.withDescriptor d)
    rw [withDescriptor_of_found hd]
  | none =>
    dsimp only
    rw [hlength, fixDescriptor]
    cases g.newDescriptor v s 1 <;> rfl

/-- What has been added to `f` on the way to `g` is also in `g'`. -/
structure Covers (f g g' : Formula) : Prop where
  nodes : ∀ i, g.Knows (.node i) → f.Knows (.node i) ∨ ∃ j, SameNode g g' i j
  descriptors : ∀ name d, g.descriptor? name = some d →
    f.descriptor? name = some d ∨ g'.descriptor? name = some d

namespace Covers

theorem refl : Covers f f g := ⟨fun _ => .inl, fun _ _ => .inl⟩

theorem grow_right (hfg : Covers f g g') (hgrown : g'.Extends h') : Covers f g h' where
  nodes i hi := (hfg.nodes i hi).imp_right fun ⟨j, hij⟩ => ⟨j, hij.grow (.refl g) hgrown⟩
  descriptors name d hd := (hfg.descriptors name d hd).imp_right (hgrown.descriptors name d)

theorem trans (hfg : Covers f g h') (hgh : Covers g h h') (hgrown : g.Extends h) :
    Covers f h h' where
  nodes i hi := by
    rcases hgh.nodes i hi with hg | hsame
    · exact (hfg.nodes i hg).imp_right fun ⟨j, hij⟩ => ⟨j, hij.grow hgrown (.refl h')⟩
    · exact .inr hsame
  descriptors name d hd := by
    rcases hgh.descriptors name d hd with hg | hsame
    · exact hfg.descriptors name d hg
    · exact .inr hsame

theorem step (hfg : Covers f g g') (hgh : Covers g h h') (hgrown : g.Extends h)
    (hgrown' : g'.Extends h') : Covers f h h' := (hfg.grow_right hgrown').trans hgh hgrown

/-- The conjunction that is added has its counterpart. -/
theorem conjoinAll (hg : g.WellFormed) (hh : h.WellFormed)
    (hxs : List.Forall₂ (Corresponds g h) xs ys) :
    Covers g (conjoinAll xs g).2 (conjoinAll ys h).2 where
  nodes i hi := by
    refine (knows_conjoinAll hi).imp_right fun hnew => ?_
    have hcorresponds := corresponds_conjoinAll hg hh hxs
    rw [hnew] at hcorresponds
    generalize (Formula.conjoinAll ys h).1 = y at hcorresponds
    cases hcorresponds with
    | node hij => exact ⟨_, hij⟩
  descriptors name d hd := by
    have hsame : (Formula.conjoinAll xs g).2.descriptors = g.descriptors :=
      (congrArg Formula.descriptors (withoutNodes_conjoinAll xs g) :)
    rw [descriptor?, hsame] at hd
    exact .inl hd

theorem withDescriptor (d : Descriptor) : Covers g (g.withDescriptor d) (h.withDescriptor d) where
  nodes _ := .inl
  descriptors name e he := by
    rw [descriptor?_withDescriptor] at he ⊢
    split at he
    · next hname => exact .inr (by rw [if_pos hname, he])
    · exact .inl he

end Covers

/-- A node that was added to `f` is covered, and any other one is in both formulas. -/
theorem Covers.counterpart (hfg : Covers f g h) (hf : f.WellFormed) (hg : f.Extends g)
    (hh : f.Extends h) {i : NodeId} (hi : g.Knows (.node i)) : ∃ j, SameNode g h i j := by
  rcases hfg.nodes i hi with hf' | hsame
  · exact ⟨i, .of_known hf hg hh hf'⟩
  · exact hsame

theorem Covers.descriptor (hfg : Covers f g h) (hh : f.Extends h) {name : String}
    (hd : g.descriptor? name = some d) : h.descriptor? name = some d :=
  (hfg.descriptors name d hd).elim (hh.descriptors name d) id

/-- Evaluations have led from `f` to `g` and to `h`. What has been added to `g₀` on the way to `g`
is in `h` as well, and what has been added to `h₀` on the way to `h` is in `g`. -/
structure Abreast (f g₀ h₀ g h : Formula) : Prop where
  left : f.Chain Edit.ByEvaluation g
  right : f.Chain Edit.ByEvaluation h
  coversLeft : Covers g₀ g h
  coversRight : Covers h₀ h g

end Formula

open Formula (Abreast Covers Corresponds)

/-- The guards have the same content. -/
abbrev SameContent (x y : Guard) (g h : Formula) : Prop := Corresponds g h x y

section Evaluation

variable {f g₀ h₀ g h : Formula} {v : Term} {s : NodeId} {c : Context} {fuel : Nat}

theorem Formula.Abreast.step {g' h' : Formula} (hr : Abreast f g₀ h₀ g h)
    (hg : g.Chain Edit.ByEvaluation g') (hh : h.Chain Edit.ByEvaluation h') (hcovers : Covers g g' h')
    (hcovers' : Covers h h' g') : Abreast f g₀ h₀ g' h' where
  left := hr.left.trans hg
  right := hr.right.trans hh
  coversLeft := hr.coversLeft.step hcovers hg.grows hh.grows
  coversRight := hr.coversRight.step hcovers' hh.grows hg.grows

theorem Formula.Abreast.probability?_eq (hr : Abreast f g₀ h₀ g h) (hf : f.WellFormed)
    (hs : g.IsSite v s) : h.probability? s = g.probability? s := by
  have hsites : g.sites = f.sites := (hr.left.growsTo fun _ => Edit.ByEvaluation.keepsSites).sites
  have hknown : f.Knows (.node s) :=
    hf.sites v s (Formula.isSite_iff.mp ((Formula.isSite_congr hsites).mp hs))
  rw [hr.right.grows.probability?_eq hknown, hr.left.grows.probability?_eq hknown]

theorem Formula.Abreast.corresponds_body (hr : Abreast f g₀ h₀ g h) (hf : f.WellFormed)
    (s : NodeId) : Corresponds g h (g.body s) (h.body s) := by
  rw [Formula.body_eq hr.left, Formula.body_eq hr.right]
  exact .of_known hf hr.left.grows hr.right.grows (Formula.knows_body hf s)

/-- Both formulas give the descriptor that is made of the same distribution and as many coordinates.
-/
theorem descriptorOf_abreast (hf : f.WellFormed) (hcoherent : f.Coherent) (hs : g.IsSite v s) :
    Parallel (Abreast f g₀ h₀) g h (attempt (·.descriptorOf v s)) (attempt (·.descriptorOf v s))
      fun d d' _ _ => d' = d := by
  refine .attempt fun hr => ?_
  let n := (f.coordinatesOf (realizationName v s)).length
  have hg : g.descriptorOf v s =
      (g.newDescriptor v s n).map fun d => (d, g.withDescriptor d) := by
    rw [(hcoherent.trail hr.left.trail).descriptorOf_eq, Formula.coordinatesOf_eq hr.left]
  have hh : h.descriptorOf v s =
      (g.newDescriptor v s n).map fun d => (d, h.withDescriptor d) := by
    rw [(hcoherent.trail hr.right.trail).descriptorOf_eq, Formula.coordinatesOf_eq hr.right,
      Formula.newDescriptor, hr.probability?_eq hf hs, ← Formula.newDescriptor]
  cases hd : g.newDescriptor v s n with
  | error e =>
    rw [hd] at hg hh
    exact .inl ⟨e, hg, hh⟩
  | ok d =>
    rw [hd] at hg hh
    have hchain := (Formula.descriptorOf_chain hg).1
    have hchain' := (Formula.descriptorOf_chain hh).1
    exact .inr ⟨d, _, d, _, hg, hh, hchain.grows, hchain'.grows,
      hr.step hchain hchain' (.withDescriptor d) (.withDescriptor d), rfl⟩

theorem conjoinAll_abreast (hf : f.WellFormed) {xs ys : List Guard}
    (hxs : List.Forall₂ (Corresponds g h) xs ys) :
    Parallel (Abreast f g₀ h₀) g h (update (Formula.conjoinAll xs)) (update (Formula.conjoinAll ys))
      SameContent := by
  refine .update (g.extends_conjoinAll xs) (h.extends_conjoinAll ys) fun hr => ?_
  have hg := hr.left.wellFormed hf
  have hh := hr.right.wellFormed hf
  have hys := Formula.flip_corresponds hxs
  have hchain {g h : Formula} {xs ys : List Guard} (hxs : List.Forall₂ (Corresponds g h) xs ys) :
      g.Chain Edit.ByEvaluation (Formula.conjoinAll xs g).2 :=
    .single (e := .conjunction xs) trivial (forall_of_forall₂ hxs.flip fun _ _ hx => hx.left)
  exact ⟨hr.step (hchain hxs) (hchain hys) (.conjoinAll hg hh hxs) (.conjoinAll hh hg hys),
    Formula.corresponds_conjoinAll hg hh hxs⟩

/-- Evaluation on both formulas comes to the same values, under guards with the same content. -/
theorem simulation_abreast (hf : f.WellFormed) (hcoherent : f.Coherent) :
    Simulation (Abreast f g₀ h₀) (SameUnder SameContent) :=
  GuardSimulation.simulation {
    sites := fun _ _ hr => by
      rw [(hr.right.growsTo fun _ => Edit.ByEvaluation.keepsSites).sites,
        (hr.left.growsTo fun _ => Edit.ByEvaluation.keepsSites).sites]
    stable := fun _ _ _ _ _ _ hg hh hx => hx.grow hg hh
    always := fun _ _ => .always
    probability := fun _ _ _ _ hr hs => hr.probability?_eq hf hs
    body := fun _ s _ _ hr _ => hr.corresponds_body hf s
    descriptor := fun _ _ _ _ hs => descriptorOf_abreast hf hcoherent hs
    conjoined := fun _ _ _ _ => conjoinAll_abreast hf }

/-- An evaluation that answers on one of two formulas answers on the other as well. -/
theorem evaluate_abreast (hf : f.WellFormed) (hcoherent : f.Coherent)
    (hg : f.Chain Edit.ByEvaluation g) (hh : f.Chain Edit.ByEvaluation h) {t : Term}
    {vs : List GuardedValue} {g' : Formula}
    (hrun : (evaluate c fuel t).run g = some (.ok vs, g')) :
    ∃ us h', (evaluate c fuel t).run h = some (.ok us, h') ∧ h.Extends h' ∧
      Abreast f g h g' h' ∧ Simulation.Values (SameUnder SameContent) vs us g' h' :=
  ((simulation_abreast hf hcoherent).evaluate fuel t).answers ⟨hg, hh, .refl, .refl⟩ hrun

end Evaluation

/-- One value, under guards that are the same up to the numbers of nodes and hold in the same
worlds. -/
structure SameUpTo (σ : NodeId → NodeId) (g h : Formula) (v v' : GuardedValue) : Prop where
  value : v'.value = v.value
  guard : v'.guard = v.guard.renumber σ
  worlds : ∀ w, h.holds w v'.guard = g.holds w v.guard

section Orders

variable {f f₁ f₁₂ g h : Formula} {vs₁ vs₂ : List GuardedValue} {t₁ t₂ : Term} {fuel₁ fuel₂ : Nat}

/-- Atoms keep their numbers, so guards with the same content hold in the same worlds. -/
theorem Formula.Corresponds.sameWorlds (hg : g.WellFormed) (hh : h.WellFormed)
    (hatoms : h.atoms = g.atoms) {x y : Guard} (hxy : Corresponds g h x y) (w : World) :
    h.holds w y = g.holds w x := by
  refine hxy.holds_eq hg hh fun a b t p s ha hb => ?_
  have hfound : g.findAtom? t = some b := by
    rw [Formula.findAtom?, ← hatoms, ← Formula.findAtom?]
    exact (hh.findAtom_iff t b).mpr ⟨p, s, hb⟩
  rw [(hg.findAtom_iff t a).mpr ⟨p, s, ha⟩] at hfound
  rw [Option.some.inj hfound]

/-- If one evaluation and then another answer, they answer in the other order too, with the same
values under guards that hold in the same worlds. Evaluation adds no atoms and both orders fix the
same descriptors; apart from the nodes and the index of the conjunctions the two formulas are equal,
and they have the same nodes up to the numbers of those that were added. -/
theorem evaluate_commute (hf : f.Reachable) (c : Context)
    (h₁ : (evaluate c fuel₁ t₁).run f = some (.ok vs₁, f₁))
    (h₂ : (evaluate c fuel₂ t₂).run f₁ = some (.ok vs₂, f₁₂)) :
    ∃ us₂ f₂ us₁ f₂₁ σ,
      (evaluate c fuel₂ t₂).run f = some (.ok us₂, f₂) ∧
      (evaluate c fuel₁ t₁).run f₂ = some (.ok us₁, f₂₁) ∧
      f₁₂.Renumbering f₂₁ σ ∧ (∀ i, f.Knows (.node i) → σ i = i) ∧
      List.Forall₂ (SameUpTo σ f₁₂ f₂₁) vs₁ us₁ ∧ List.Forall₂ (SameUpTo σ f₁₂ f₂₁) vs₂ us₂ ∧
      f₁₂.atoms = f.atoms ∧ f₂₁.descriptors = f₁₂.descriptors ∧
      f₂₁ = { f₁₂ with nodes := f₂₁.nodes, conjunctions := f₂₁.conjunctions } ∧
      f₂₁.size = f₁₂.size := by
  have hwf := hf.wellFormed
  have hcoherent : f.Coherent := Formula.Coherent.empty.trail (hf.chain Formula.empty_wellFormed).trail
  have hchain₁ : f.Chain Edit.ByEvaluation f₁ := (evaluate_known hwf t₁ _ _ h₁).1
  -- the second expression on `f₁` and on `f`, then the first one on `f` and on what that left
  obtain ⟨us₂, f₂, hrun₂, -, hsecond, hvalues₂⟩ := evaluate_abreast hwf hcoherent hchain₁ .refl h₂
  obtain ⟨us₁, f₂₁, hrun₁, hgrown, hfirst, hvalues₁⟩ :=
    evaluate_abreast hwf hcoherent .refl hsecond.right h₁
  have hgrown₁ : f₁.Extends f₁₂ := (evaluate_known (hchain₁.wellFormed hwf) t₂ _ _ h₂).1.grows
  have hleft : f.Chain Edit.ByEvaluation f₁₂ := hsecond.left
  have hright : f.Chain Edit.ByEvaluation f₂₁ := hfirst.right
  have hwf₁₂ := hleft.wellFormed hwf
  have hwf₂₁ := hright.wellFormed hwf
  have hcovers : Covers f f₁₂ f₂₁ :=
    hfirst.coversLeft.trans (hsecond.coversLeft.grow_right hgrown) hgrown₁
  have hcovers' : Covers f f₂₁ f₁₂ :=
    hsecond.coversRight.trans (hfirst.coversRight.grow_right hgrown₁) hgrown
  obtain ⟨σ, hσ, hnumber⟩ := Formula.exists_renumbering hwf₁₂ hwf₂₁
    (fun i => hcovers.counterpart hwf hleft.grows hright.grows) fun j hj => by
      obtain ⟨i, hij⟩ := hcovers'.counterpart hwf hright.grows hleft.grows hj
      exact ⟨i, hij.symm⟩
  have hatoms : f₁₂.atoms = f.atoms := (congrArg Formula.atoms hleft.trail.evaluation_eq :)
  have hatoms' : f₂₁.atoms = f.atoms := (congrArg Formula.atoms hright.trail.evaluation_eq :)
  have hdescriptors : f₂₁.descriptors = f₁₂.descriptors := by
    refine Std.ExtTreeMap.ext_getElem? fun name => Option.ext fun d => ?_
    exact ⟨hcovers'.descriptor hleft.grows, hcovers.descriptor hright.grows⟩
  have hsame {v u : GuardedValue} {g h : Formula} (hv : SameUnder SameContent v u g h)
      (hg : g.Extends f₁₂) (hh : h.Extends f₂₁) : SameUpTo σ f₁₂ f₂₁ v u := by
    have hguard := hv.guard.grow hg hh
    exact ⟨hv.value, (hguard.renumber_eq hnumber).symm,
      hguard.sameWorlds hwf₁₂ hwf₂₁ (hatoms'.trans hatoms.symm)⟩
  refine ⟨us₂, f₂, us₁, f₂₁, σ, hrun₂, hrun₁, hσ, fun i hi => ?_,
    hvalues₁.imp fun _ _ hv => hsame hv hgrown₁ (.refl f₂₁),
    hvalues₂.imp fun _ _ hv => hsame hv (.refl f₁₂) hgrown, hatoms, hdescriptors, ?_, hσ.size_eq⟩
  · exact hnumber i i (.of_known hwf hleft.grows hright.grows hi)
  · have hrest := hleft.trail.evaluation_eq
    have hrest' := hright.trail.evaluation_eq
    rw [hdescriptors] at hrest'
    rw [hrest', hrest]

/-- Three variables, each under a fact of its own. -/
def Formula.crossing : Formula :=
  let (a, f) := empty.addAtom (.atom "a") none .fact
  let (b, f) := f.addAtom (.atom "b") none .fact
  let (c, f) := f.addAtom (.atom "c") none .fact
  let (_, f) := f.addSite (.atom "x") (some (.constant (.int 1))) (.node a)
  let (_, f) := f.addSite (.atom "y") (some (.constant (.int 2))) (.node b)
  (f.addSite (.atom "z") (some (.constant (.int 3))) (.node c)).2

theorem Formula.crossing_reachable : crossing.Reachable := by
  have ha : Reachable (empty.addAtom (.atom "a") none .fact).2 :=
    .step (.atom (.atom "a") none .fact) .refl trivial rfl
  have hb := ha.step (.atom (.atom "b") none .fact) trivial rfl
  have hc := hb.step (.atom (.atom "c") none .fact) trivial rfl
  have hx := hc.step (.site (.atom "x") (some (.constant (.int 1))) (.node ⟨0⟩)) (by decide) rfl
  have hy := hx.step (.site (.atom "y") (some (.constant (.int 2))) (.node ⟨1⟩)) (by decide) rfl
  exact hy.step (.site (.atom "z") (some (.constant (.int 3))) (.node ⟨2⟩)) (by decide) rfl

/-- Each sum adds a conjunction, which is the seventh node if the sum comes first and else the
eighth one. -/
theorem evaluate_commute_crossing : ∃ f₁ f₁₂ f₂ f₂₁ σ,
    (evaluate standardContext 2 (.compound "+" [.atom "x", .atom "y"])).run Formula.crossing =
      some (.ok [⟨.number (.int 3), .node ⟨6⟩⟩], f₁) ∧
    (evaluate standardContext 2 (.compound "+" [.atom "y", .atom "z"])).run f₁ =
      some (.ok [⟨.number (.int 5), .node ⟨7⟩⟩], f₁₂) ∧
    (evaluate standardContext 2 (.compound "+" [.atom "y", .atom "z"])).run Formula.crossing =
      some (.ok [⟨.number (.int 5), .node ⟨6⟩⟩], f₂) ∧
    (evaluate standardContext 2 (.compound "+" [.atom "x", .atom "y"])).run f₂ =
      some (.ok [⟨.number (.int 3), .node ⟨7⟩⟩], f₂₁) ∧
    f₁₂.Renumbering f₂₁ σ ∧ σ ⟨6⟩ = ⟨7⟩ ∧ σ ⟨7⟩ = ⟨6⟩ ∧ f₁₂.size = 8 ∧ f₂₁.size = 8 := by
  obtain ⟨f₁, f₁₂, h₁, h₁₂, hsize⟩ : ∃ f₁ f₁₂,
      (evaluate standardContext 2 (.compound "+" [.atom "x", .atom "y"])).run Formula.crossing =
        some (.ok [⟨.number (.int 3), .node ⟨6⟩⟩], f₁) ∧
      (evaluate standardContext 2 (.compound "+" [.atom "y", .atom "z"])).run f₁ =
        some (.ok [⟨.number (.int 5), .node ⟨7⟩⟩], f₁₂) ∧ f₁₂.size = 8 := ⟨_, _, rfl, rfl, rfl⟩
  obtain ⟨f₂, f₂₁, h₂, h₂₁⟩ : ∃ f₂ f₂₁,
      (evaluate standardContext 2 (.compound "+" [.atom "y", .atom "z"])).run Formula.crossing =
        some (.ok [⟨.number (.int 5), .node ⟨6⟩⟩], f₂) ∧
      (evaluate standardContext 2 (.compound "+" [.atom "x", .atom "y"])).run f₂ =
        some (.ok [⟨.number (.int 3), .node ⟨7⟩⟩], f₂₁) := ⟨_, _, rfl, rfl⟩
  obtain ⟨_, _, _, _, σ, hrun₂, hrun₁, hσ, -, hsame₁, hsame₂, -, -, -, hsizes⟩ :=
    evaluate_commute Formula.crossing_reachable standardContext h₁ h₁₂
  rw [h₂] at hrun₂
  cases hrun₂
  rw [h₂₁] at hrun₁
  cases hrun₁
  refine ⟨f₁, f₁₂, _, _, σ, h₁, h₁₂, h₂, h₂₁, hσ, ?_, ?_, hsize, hsizes.trans hsize⟩
  · cases hsame₁ with
    | cons h => exact (Guard.node.inj h.guard).symm
  · cases hsame₂ with
    | cons h => exact (Guard.node.inj h.guard).symm

end Orders

end Grounding
