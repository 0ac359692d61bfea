import Grounding.Proofs.Session.Site

/-!
# Nothing is taken back

An operation adds to a formula and leaves what is there as it is. The order of growth says so of
everything but the bodies of sites, since a body is set again whenever its site is registered again.
It is set to what it was: the identifier of a site ends in the body, so a registration that is given
the node of a site has the body of this site.

`Embodied` is the invariant behind it. As in `Site`, the guards that are given as bodies have
numbers that fit a word; in a formula with fewer than `2 ^ 32` nodes every guard that names a node
does.
-/

namespace Grounding

open Formula (Trail)

variable {f g : Formula} {v u : Term} {s : NodeId}

/-- What sites and bodies owe to each other. -/
structure Formula.Embodied (f : Formula) : Prop where
  indexed : f.Indexed
  /-- The identifier of a site ends in the body of the site. -/
  identifier : ∀ v s, f.IsSite v s → ∃ d p source,
    f.node? s = some (.atom (.compound siteFunctor [v, d, (f.body s).term]) p source)
  /-- Only a site has a body that does not always hold. -/
  isSite : ∀ s, f.body s ≠ .always → ∃ v, f.IsSite v s
  word : ∀ s, (f.body s).IsWord

namespace Formula.Embodied

theorem empty : Formula.empty.Embodied where
  indexed := empty_wellFormed.findAtom_iff
  identifier v s hs := by simp [isSite_iff, Formula.empty] at hs
  isSite s hbody := absurd rfl hbody
  word s := trivial

theorem trail {P : Edit → Prop} (hf : f.Embodied) (hfg : f.Trail P g)
    (hP : ∀ e, P e → e.KeepsSites) : g.Embodied where
  indexed := hfg.indexed hf.indexed
  identifier v s hs := by
    obtain ⟨d, p, source, hn⟩ := hf.identifier v s ((isSite_congr (hfg.sites_eq hP).1).mp hs)
    rw [hfg.body_eq hP]
    exact ⟨d, p, source, hfg.grows.node? hn⟩
  isSite s hbody := by
    rw [hfg.body_eq hP] at hbody
    obtain ⟨v, hs⟩ := hf.isSite s hbody
    exact ⟨v, hfg.grows.isSite hs⟩
  word s := by
    rw [hfg.body_eq hP]
    exact hf.word s

/-- A registration is given the node of a site with the same body, or a node that is no site. -/
theorem body_eq_of_addSite (hf : f.Embodied) (v : Term) (p : Option Term) {body : Guard}
    (hbody : body.IsWord) : f.body (f.addSite v p body).1 = body ∨
      f.body (f.addSite v p body).1 = .always ∧ ∀ u, ¬ f.IsSite u (f.addSite v p body).1 := by
  by_cases hsite : ∃ u, f.IsSite u (f.addSite v p body).1
  · obtain ⟨u, hs⟩ := hsite
    obtain ⟨d, q, source, hn⟩ := hf.identifier u _ hs
    -- the node has the identifier of the site and the one under which it was found
    have hfound := f.findAtom?_addAtom (siteIdentifier v p body) p .realization
    obtain ⟨_, _, hn'⟩ := (hf.indexed.apply (.site v p body) _ _).mp hfound
    have hsame := ((f.extends_addSite v p body).node? hn).symm.trans hn'
    simp only [Option.some.injEq, Node.atom.injEq, siteIdentifier, Term.compound.injEq,
      List.cons.injEq] at hsame
    exact .inl (Guard.term_inj (hf.word _) hbody hsame.1.2.2.2.1)
  · refine .inr ⟨?_, fun u hs => hsite ⟨u, hs⟩⟩
    by_contra hne
    exact hsite (hf.isSite _ hne)

/-- Registering a site leaves the bodies of all sites alone. -/
theorem body_addSite_of_isSite (hf : f.Embodied) (v : Term) (p : Option Term) {body : Guard}
    (hbody : body.IsWord) (hs : f.IsSite u s) : (f.addSite v p body).2.body s = f.body s := by
  have hold := hf.body_eq_of_addSite v p hbody
  rw [body_addSite (hold.imp_right And.left)]
  split
  · next hsite =>
    subst hsite
    rcases hold with hsame | ⟨-, hnone⟩
    · exact hsame.symm
    · exact absurd hs (hnone u)
  · rfl

theorem addSite (hf : f.Embodied) (v : Term) (p : Option Term) {body : Guard}
    (hbody : body.IsWord) : (f.addSite v p body).2.Embodied := by
  have hsplit (s : NodeId) : (f.addSite v p body).2.body s =
      if (f.addSite v p body).1 = s then body else f.body s :=
    body_addSite ((hf.body_eq_of_addSite v p hbody).imp_right And.left)
  have hindexed := hf.indexed.apply (.site v p body)
  refine ⟨hindexed, fun u s hs => ?_, fun s hne => ?_, fun s => ?_⟩
  · rcases (isSite_addSite p body).mp hs with ⟨rfl, rfl⟩ | hs
    · have hfound := f.findAtom?_addAtom (siteIdentifier u p body) p .realization
      obtain ⟨q, source, hn⟩ := (hindexed _ _).mp hfound
      rw [hsplit, if_pos rfl]
      exact ⟨_, q, source, hn⟩
    · obtain ⟨d, q, source, hn⟩ := hf.identifier u s hs
      rw [hf.body_addSite_of_isSite v p hbody hs]
      exact ⟨d, q, source, (f.extends_addSite v p body).node? hn⟩
  · by_cases hsite : (f.addSite v p body).1 = s
    · exact ⟨v, (isSite_addSite p body).mpr (.inl ⟨rfl, hsite.symm⟩)⟩
    · rw [hsplit, if_neg hsite] at hne
      obtain ⟨u, hs⟩ := hf.isSite s hne
      exact ⟨u, (isSite_addSite p body).mpr (.inr hs)⟩
  · rw [hsplit]
    split
    · exact hbody
    · exact hf.word s

end Formula.Embodied

/-- Whether a guard that an operation gives as a body has a number that fits a word. -/
def Operation.HasWords : Operation → Prop
  | .site _ _ body => body.IsWord
  | _ => True

/-- Only the registration of a site makes edits that touch the sites. -/
theorem Operation.Makes.keepsSites {op : Operation} (hop : ∀ v p body, op ≠ .site v p body)
    {e : Edit} (he : op.Makes e) : e.KeepsSites := by
  cases op with
  | atom t p source =>
    cases he
    trivial
  | site v p body => exact absurd rfl (hop v p body)
  | _ => exact Edit.SparesSites.keepsSites he

/-- One operation, whatever comes of it, leaves the bodies of all sites alone. -/
theorem Formula.Embodied.run (hf : f.Embodied) {op : Operation} (hop : op.HasWords)
    {r : Except Error Outcome} (hrun : op.run.run f = some (r, g)) :
    g.Embodied ∧ ∀ v s, f.IsSite v s → g.body s = f.body s := by
  have hspared (hother : ∀ v p body, op ≠ .site v p body) :
      g.Embodied ∧ ∀ v s, f.IsSite v s → g.body s = f.body s := by
    have htrail := op.run_follows _ _ _ hrun
    have hkeeps (e : Edit) : op.Makes e → e.KeepsSites := Operation.Makes.keepsSites hother
    exact ⟨hf.trail htrail hkeeps, fun _ s _ => htrail.body_eq hkeeps s⟩
  cases op with
  | site v p body =>
    cases hrun
    exact ⟨hf.addSite v p hop, fun _ _ hs => hf.body_addSite_of_isSite v p hop hs⟩
  | _ => exact hspared fun _ _ _ h => by cases h

theorem Formula.Knows.isWord {x : Guard} (hx : f.Knows x) (hsize : f.size < 2 ^ 32) : x.IsWord := by
  cases x with
  | always | never => trivial
  | node id =>
    have hlt : id.index < f.size := hx
    show id.index + 1 < 2 ^ 32
    omega

theorem Operation.Admissible.hasWords {op : Operation} (hop : op.Admissible f)
    (hsize : f.size < 2 ^ 32) : op.HasWords := by
  cases op with
  | site v p body => exact Formula.Knows.isWord hop hsize
  | _ => trivial

theorem Formula.Reaches.grows (hfg : f.Reaches g) : f.Extends g := by
  induction hfg with
  | refl => exact .refl f
  | step op _ _ hrun ih => exact ih.trans (op.run_follows _ _ _ hrun).grows

theorem Formula.Reaches.embodied (hf : f.Embodied) (hfg : f.Reaches g) (hsize : g.size < 2 ^ 32) :
    g.Embodied ∧ ∀ v s, f.IsSite v s → g.body s = f.body s := by
  induction hfg with
  | refl => exact ⟨hf, fun _ _ _ => rfl⟩
  | @step g h op r hg hop hrun ih =>
    have hgrown : g.Extends h := (op.run_follows _ _ _ hrun).grows
    have hsize' : g.size < 2 ^ 32 := Nat.lt_of_le_of_lt hgrown.size_le hsize
    obtain ⟨hembodied, hbodies⟩ := ih hsize'
    obtain ⟨hembodied', hbodies'⟩ := hembodied.run (hop.hasWords hsize') hrun
    refine ⟨hembodied', fun v s hs => ?_⟩
    rw [hbodies' v s (hg.grows.isSite hs), hbodies v s hs]

/-- `g` has all that `f` has: nodes, identifiers and names at their places, the sites with their
bodies, and the descriptors, densities and free variables. -/
structure Formula.Contained (f g : Formula) : Prop extends Formula.Extends f g where
  bodies : ∀ v s, f.IsSite v s → g.body s = f.body s

/-- Whatever comes of an operation, the formula before it is contained in the one after it, and so
it is in every formula that operations lead to. -/
theorem contained_of_reachable (hf : f.Reachable) (hsize : f.size < 2 ^ 32) :
    (∀ (op : Operation) r g, op.Admissible f → op.run.run f = some (r, g) → f.Contained g) ∧
    ∀ g, f.Reaches g → g.size < 2 ^ 32 → f.Contained g := by
  have hembodied : f.Embodied := (Formula.Reaches.embodied .empty hf hsize).1
  refine ⟨fun op r g hop hrun => ?_, fun g hfg hsize' => ?_⟩
  · exact ⟨(op.run_follows _ _ _ hrun).grows, (hembodied.run (hop.hasWords hsize) hrun).2⟩
  · exact ⟨hfg.grows, (hfg.embodied hembodied hsize').2⟩

/-- A site registered again, and a comparison that adds a condition, leave the body of the site. -/
theorem contained_rainy : ∃ g h r,
    (Operation.site (.atom "x") (some (.compound pointMassFunctor [.constant (.int 2)]))
      (.node ⟨0⟩)).run.run Formula.rainy = some (.ok (.guard (.node ⟨1⟩)), g) ∧
    (BuiltinTable.standard.call (standardContext.scope 1) Comparison.less.name
      [.atom "x", .constant (.int 3)]).run g = some (r, h) ∧
    Formula.rainy.Contained g ∧ Formula.rainy.Contained h ∧ h.size = 4 ∧
    h.body ⟨1⟩ = .node ⟨0⟩ := by
  obtain ⟨hstep, hruns⟩ := contained_of_reachable Formula.rainy_reachable (by decide)
  let again : Operation :=
    .site (.atom "x") (some (.compound pointMassFunctor [.constant (.int 2)])) (.node ⟨0⟩)
  let less : Operation :=
    .call standardContext 1 Comparison.less.name [.atom "x", .constant (.int 3)]
  have hagain : Formula.rainy.Reaches _ := .step again .refl (by decide) rfl
  have hless := hagain.step less trivial rfl
  have hcontained := hruns _ hless (by decide)
  exact ⟨_, _, _, rfl, rfl, hstep again _ _ (by decide) rfl, hcontained, rfl,
    (hcontained.bodies (.atom "x") ⟨1⟩ ⟨_, rfl, List.mem_cons_self⟩).trans rfl⟩

end Grounding
