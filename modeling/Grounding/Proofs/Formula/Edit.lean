import Grounding.Proofs.Formula.Growth

/-!
# Edits

Whatever happens to a formula is a sequence of edits. An edit is proper if it fixes a descriptor
only where none is, and the one that the realization gets; it fits if the guards that it is given
are known as well. A `Trail` is a sequence of proper edits of one kind, a `Chain` one of fitting
edits. What every single edit keeps, every sequence keeps.
-/

namespace Grounding

/-- The ways in which a formula changes. -/
inductive Edit where
  | atom (identifier : Term) (probability : Option Term) (source : Source)
  | conjunction (guards : List Guard)
  | site (v : Term) (distribution : Option Term) (body : Guard)
  | name (term : Term) (guard : Guard) (label : Label)
  /-- Fixes the descriptor of a variable at a site. -/
  | descriptor (v : Term) (site : NodeId) (d : Descriptor)
  | density (v density : Term)
  | free (v : Term)

namespace Edit

def apply (f : Formula) : Edit → Formula
  | .atom t p s => (f.addAtom t p s).2
  | .conjunction guards => (Formula.conjoinAll guards f).2
  | .site v p body => (f.addSite v p body).2
  | .name t x l => f.addName t x l
  | .descriptor _ _ d => f.withDescriptor d
  | .density v d => f.addDensity v d
  | .free v => f.addFree v

/-- What an edit asks of the formula it is made on, whatever guards it is given. -/
def Proper (f : Formula) : Edit → Prop
  | .descriptor v id d =>
    f.newDescriptor v id d.dimensions = .ok d ∧ 1 ≤ d.dimensions ∧ f.descriptor? d.name = none
  | _ => True

/-- What an edit asks of the formula it is made on. -/
def Fits (f : Formula) : Edit → Prop
  | .conjunction guards => ∀ x ∈ guards, f.Knows x
  | .site _ _ body => f.Knows body
  | .name _ x _ => f.Knows x
  | .descriptor v id d =>
    f.newDescriptor v id d.dimensions = .ok d ∧ 1 ≤ d.dimensions ∧ f.descriptor? d.name = none
  | .atom .. | .density .. | .free _ => True

theorem Fits.proper {f : Formula} {e : Edit} (he : e.Fits f) : e.Proper f := by
  cases e with
  | descriptor => exact he
  | _ => trivial

/-- Whether an edit leaves the sites and their bodies alone. -/
def KeepsSites : Edit → Prop
  | .site .. => False
  | _ => True

end Edit

namespace Formula

variable {f g h : Formula} {P Q : Edit → Prop}

theorem WellFormed.addSite (hf : f.WellFormed) (v : Term) (p : Option Term) {body : Guard}
    (hbody : f.Knows body) : (f.addSite v p body).2.WellFormed := by
  have hatom := wellFormed_addAtom hf (siteIdentifier v p body) p .realization
  have hfound := findAtom?_addAtom f (siteIdentifier v p body) p .realization
  have hext := f.extends_addAtom (siteIdentifier v p body) p .realization
  unfold Formula.addSite
  generalize f.addAtom (siteIdentifier v p body) p .realization = r at hatom hfound hext ⊢
  obtain ⟨site, g⟩ := r
  obtain ⟨_, _, hnode⟩ := (hatom.findAtom_iff _ _).mp hfound
  refine { hatom with sites := ?_, bodies := ?_ }
  · intro v' id hid
    simp only [Std.ExtTreeMap.getD_insert] at hid
    split at hid
    · rcases Std.ExtTreeSet.mem_insert.mp hid with he | hold
      · rw [Std.LawfulEqCmp.compare_eq_iff_eq] at he
        exact he ▸ index_lt_of_node? hnode
      · exact hatom.sites v id hold
    · exact hatom.sites v' id hid
  · intro id x hx
    change (if body.isAlways then g.bodies else g.bodies.insert site body)[id]? = some x at hx
    by_cases hb : body.isAlways
    · rw [if_pos hb] at hx
      exact hatom.bodies id x hx
    · rw [if_neg hb, Std.ExtTreeMap.getElem?_insert] at hx
      split at hx
      · cases hx
        exact hext.knows hbody
      · exact hatom.bodies id x hx

theorem WellFormed.addName (hf : f.WellFormed) (t : Term) {x : Guard} (hx : f.Knows x) (l : Label) :
    (f.addName t x l).WellFormed := by
  have hentry {entries : List (Term × Guard)} (hold : ∀ e ∈ entries, f.Knows e.2) :
      ∀ e ∈ addEntry (t, x) entries, f.Knows e.2 := by
    intro e he
    rcases mem_addEntry.mp he with rfl | he
    · exact hx
    · exact hold e he
  cases l
  · refine { hf with names := ?_ }
    intro l e he
    cases l
    · exact hentry (hf.names .query) e he
    · exact hf.names .evidence e he
  · refine { hf with names := ?_ }
    intro l e he
    cases l
    · exact hf.names .query e he
    · exact hentry (hf.names .evidence) e he

theorem WellFormed.apply (hf : f.WellFormed) {e : Edit} (he : e.Fits f) : (e.apply f).WellFormed := by
  cases e with
  | atom t p s => exact wellFormed_addAtom hf t p s
  | conjunction guards => exact (wellFormed_conjoinAll hf he).1
  | site v p body => exact hf.addSite v p he
  | name t x l => exact hf.addName t he l
  | descriptor | density | free => exact { hf with names := hf.names }

theorem extends_apply {e : Edit} (he : e.Proper f) : f.Extends (e.apply f) := by
  cases e with
  | atom t p s => exact f.extends_addAtom t p s
  | conjunction guards => exact f.extends_conjoinAll guards
  | site v p body => exact f.extends_addSite v p body
  | name t x l => exact f.extends_addName t x l
  | descriptor v site d => exact extends_withDescriptor he.2.2
  | density v d => exact f.extends_addDensity v d
  | free v => exact f.extends_addFree v

theorem Indexed.addAtom (hf : f.Indexed) (t : Term) (p : Option Term) (s : Source) :
    (f.addAtom t p s).2.Indexed := by
  rcases f.addAtom_cases t p s with h | ⟨hnew, h⟩ <;> rw [h]
  · exact hf
  · exact hf.withAtom hnew p s

theorem Indexed.apply (hf : f.Indexed) (e : Edit) : (e.apply f).Indexed := by
  cases e with
  | atom t p s => exact hf.addAtom t p s
  | conjunction guards =>
    rw [Edit.apply]
    rcases f.conjoinAll_cases guards with h | ⟨-, h⟩ <;> rw [h]
    · exact hf
    · exact hf.withConjunction _
  | site v p body => exact hf.addAtom (siteIdentifier v p body) p .realization
  | name t x l => cases l <;> exact hf
  | descriptor | density | free => exact hf

theorem sites_addAtom (f : Formula) (t : Term) (p : Option Term) (s : Source) :
    (f.addAtom t p s).2.sites = f.sites ∧ (f.addAtom t p s).2.bodies = f.bodies :=
  have hrest := f.withoutNodes_addAtom t p s
  ⟨(congrArg Formula.sites hrest :), (congrArg Formula.bodies hrest :)⟩

theorem sites_conjoinAll (f : Formula) (guards : List Guard) :
    (conjoinAll guards f).2.sites = f.sites ∧ (conjoinAll guards f).2.bodies = f.bodies :=
  have hrest := withoutNodes_conjoinAll guards f
  ⟨(congrArg Formula.sites hrest :), (congrArg Formula.bodies hrest :)⟩

/-- Only the registration of a site changes the sites and their bodies. -/
theorem sites_apply {e : Edit} (he : e.KeepsSites) (f : Formula) :
    (e.apply f).sites = f.sites ∧ (e.apply f).bodies = f.bodies := by
  cases e with
  | atom t p s => exact f.sites_addAtom t p s
  | conjunction guards => exact f.sites_conjoinAll guards
  | site => exact he.elim
  | name t x l => cases l <;> exact ⟨rfl, rfl⟩
  | descriptor | density | free => exact ⟨rfl, rfl⟩

/-- `g` comes from `f` by proper edits of the kind `P`. -/
inductive Trail (P : Edit → Prop) (f : Formula) : Formula → Prop
  | refl : Trail P f f
  | step {g : Formula} {e : Edit} (hg : Trail P f g) (hp : P e) (he : e.Proper g) :
      Trail P f (e.apply g)

namespace Trail

theorem single {e : Edit} (hp : P e) (he : e.Proper f) : Trail P f (e.apply f) := .step .refl hp he

theorem trans (hfg : Trail P f g) (hgh : Trail P g h) : Trail P f h := by
  induction hgh with
  | refl => exact hfg
  | step _ hp he ih => exact .step ih hp he

theorem mono (hpq : ∀ e, P e → Q e) (hfg : Trail P f g) : Trail Q f g := by
  induction hfg with
  | refl => exact .refl
  | step _ hp he ih => exact .step ih (hpq _ hp) he

theorem grows (hfg : Trail P f g) : f.Extends g := by
  induction hfg with
  | refl => exact .refl f
  | step _ _ he ih => exact ih.trans (extends_apply he)

theorem indexed (hfg : Trail P f g) (hf : f.Indexed) : g.Indexed := by
  induction hfg with
  | refl => exact hf
  | step _ _ _ ih => exact ih.apply _

theorem sites_eq (hfg : Trail P f g) (hP : ∀ e, P e → e.KeepsSites) :
    g.sites = f.sites ∧ g.bodies = f.bodies := by
  induction hfg with
  | refl => exact ⟨rfl, rfl⟩
  | step _ hp _ ih =>
    obtain ⟨hsites, hbodies⟩ := sites_apply (hP _ hp) _
    exact ⟨hsites.trans ih.1, hbodies.trans ih.2⟩

theorem sites?_eq (hfg : Trail P f g) (hP : ∀ e, P e → e.KeepsSites) (v : Term) :
    g.sites? v = f.sites? v := by
  rw [sites?, (hfg.sites_eq hP).1, sites?]

theorem body_eq (hfg : Trail P f g) (hP : ∀ e, P e → e.KeepsSites) (site : NodeId) :
    g.body site = f.body site := by
  rw [body, (hfg.sites_eq hP).2, body]

end Trail

/-- `g` comes from `f` by fitting edits of the kind `P`. -/
inductive Chain (P : Edit → Prop) (f : Formula) : Formula → Prop
  | refl : Chain P f f
  | step {g : Formula} {e : Edit} (hg : Chain P f g) (hp : P e) (he : e.Fits g) :
      Chain P f (e.apply g)

namespace Chain

theorem single {e : Edit} (hp : P e) (he : e.Fits f) : Chain P f (e.apply f) := .step .refl hp he

theorem trans (hfg : Chain P f g) (hgh : Chain P g h) : Chain P f h := by
  induction hgh with
  | refl => exact hfg
  | step _ hp he ih => exact .step ih hp he

theorem mono (hpq : ∀ e, P e → Q e) (hfg : Chain P f g) : Chain Q f g := by
  induction hfg with
  | refl => exact .refl
  | step _ hp he ih => exact .step ih (hpq _ hp) he

theorem trail (hfg : Chain P f g) : f.Trail P g := by
  induction hfg with
  | refl => exact .refl
  | step _ hp he ih => exact .step ih hp he.proper

theorem wellFormed (hfg : Chain P f g) (hf : f.WellFormed) : g.WellFormed := by
  induction hfg with
  | refl => exact hf
  | step _ _ he ih => exact ih.apply he

theorem grows (hfg : Chain P f g) : f.Extends g := hfg.trail.grows

theorem sites_eq (hfg : Chain P f g) (hP : ∀ e, P e → e.KeepsSites) :
    g.sites = f.sites ∧ g.bodies = f.bodies := hfg.trail.sites_eq hP

end Chain

end Formula

end Grounding
