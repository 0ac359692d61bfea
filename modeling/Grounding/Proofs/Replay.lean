import Grounding.Builtin.Standard
import Grounding.Proofs.Evaluation.Effect

/-!
# Replaying a computation

A computation replays if running it again on the formula it left comes to the same outcome and
changes nothing. The first steps of a computation run again on a formula that the later steps have
changed, so the statement that goes through asks more: an answer comes again on every formula that
the one left has grown to. Growing means here that sites and bodies stay as they are.
-/

namespace Grounding

/-- `g` extends `f` and has the same sites with the same bodies. -/
structure Formula.GrowsTo (f g : Formula) : Prop where
  grown : f.Extends g
  sites : g.sites = f.sites
  bodies : g.bodies = f.bodies

namespace Formula

variable {f g h : Formula}

theorem GrowsTo.refl (f : Formula) : f.GrowsTo f := ⟨.refl f, rfl, rfl⟩

theorem GrowsTo.trans (hfg : f.GrowsTo g) (hgh : g.GrowsTo h) : f.GrowsTo h :=
  ⟨hfg.grown.trans hgh.grown, hgh.sites.trans hfg.sites, hgh.bodies.trans hfg.bodies⟩

theorem Chain.growsTo {P : Edit → Prop} (hfg : f.Chain P g) (hP : ∀ e, P e → e.KeepsSites) :
    f.GrowsTo g := ⟨hfg.grows, (hfg.sites_eq hP).1, (hfg.sites_eq hP).2⟩

theorem GrowsTo.sites?_eq (hfg : f.GrowsTo g) (v : Term) : g.sites? v = f.sites? v := by
  rw [sites?, hfg.sites, sites?]

theorem GrowsTo.body_eq (hfg : f.GrowsTo g) (site : NodeId) : g.body site = f.body site := by
  rw [body, hfg.bodies, body]

theorem addAtom_again {t : Term} {p : Option Term} {s : Source}
    (hg : (f.addAtom t p s).2.Extends g) : g.addAtom t p s = ((f.addAtom t p s).1, g) :=
  addAtom_of_found (hg.atoms t _ (f.findAtom?_addAtom t p s)) p s

/-- There is only one way in which guards are conjoined. -/
theorem Conjoins.eq {guards : List Guard} {x y : Guard} (hg : Conjoins guards f x g)
    (hh : Conjoins guards f y h) : (x, g) = (y, h) := by
  cases hg <;> cases hh <;> simp_all

/-- Guards that were conjoined are conjoined in the same way once the formula has grown. -/
theorem Conjoins.again {guards : List Guard} {x : Guard} (hg : Conjoins guards f x g)
    (hgh : g.Extends h) : Conjoins guards h x h := by
  cases hg with
  | never hn => exact .never hn
  | always hn hc => exact .always hn hc
  | single hn c hc => exact .single hn c hc
  | found hn hlen id hid => exact .found hn hlen id (hgh.conjunctions _ id hid)
  | new hn hlen hid =>
    refine .found hn hlen f.nextId (hgh.conjunctions _ _ ?_)
    exact (conjunctions_withConjunction f _ _).trans (if_pos rfl)

theorem conjoinAll_again {guards : List Guard} (hg : (conjoinAll guards f).2.Extends g) :
    conjoinAll guards g = ((conjoinAll guards f).1, g) :=
  (conjoinAll_conjoins guards g).eq ((conjoinAll_conjoins guards f).again hg)

theorem addName_again {t : Term} {x : Guard} {l : Label} (hg : (f.addName t x l).Extends g) :
    g.addName t x l = g := by
  have hmem : (t, x) ∈ (f.addName t x l).names l := by
    cases l <;> exact mem_addEntry.mpr (.inl rfl)
  have hmem' : (t, x) ∈ g.names l := (hg.names l).subset hmem
  cases l
  · show { g with queries := addEntry (t, x) g.queries } = g
    rw [addEntry, if_pos (show (t, x) ∈ g.queries from hmem')]
  · show { g with evidence := addEntry (t, x) g.evidence } = g
    rw [addEntry, if_pos (show (t, x) ∈ g.evidence from hmem')]

theorem insert_of_mem {α : Type} [Ord α] [Std.TransOrd α] [Std.LawfulEqOrd α]
    {s : Std.ExtTreeSet α} {a : α} (ha : a ∈ s) : s.insert a = s := by
  refine Std.ExtTreeSet.ext_mem fun b => ?_
  rw [Std.ExtTreeSet.mem_insert]
  constructor
  · rintro (hab | hb)
    · exact Std.LawfulEqCmp.compare_eq_iff_eq.mp hab ▸ ha
    · exact hb
  · exact .inr

theorem addDensity_again {v d : Term} (hg : (f.addDensity v d).Extends g) :
    g.addDensity v d = g := by
  have hmem : d ∈ g.densities.getD v ∅ := by
    refine hg.densities v d ?_
    show d ∈ (f.densities.insert v ((f.densities.getD v ∅).insert d)).getD v ∅
    rw [Std.ExtTreeMap.getD_insert_self]
    exact Std.ExtTreeSet.mem_insert_self
  have hinsert : g.densities.insert v ((g.densities.getD v ∅).insert d) = g.densities := by
    rw [insert_of_mem hmem]
    refine Std.ExtTreeMap.ext_getElem? fun u => ?_
    rw [Std.ExtTreeMap.getElem?_insert]
    split
    · next hu =>
      rw [Std.LawfulEqCmp.compare_eq_iff_eq] at hu
      subst hu
      rw [Std.ExtTreeMap.getD_eq_getD_getElem?] at hmem ⊢
      cases hv : g.densities[v]? with
      | some s => rfl
      | none =>
        rw [hv] at hmem
        exact absurd hmem Std.ExtTreeSet.not_mem_empty
    · rfl
  show { g with densities := _ } = g
  rw [hinsert]

theorem addFree_again {v : Term} (hg : (f.addFree v).Extends g) : g.addFree v = g := by
  have hmem : v ∈ g.freeVariables := hg.freeVariables v Std.ExtTreeSet.mem_insert_self
  show { g with freeVariables := _ } = g
  rw [insert_of_mem hmem]

variable {v : Term} {site : NodeId} {d : Descriptor}

theorem fixDescriptor_growsTo {n : Nat} (hnone : f.descriptor? (realizationName v site) = none)
    (h : f.fixDescriptor v site n = .ok (d, g)) :
    f.GrowsTo g ∧ g.descriptor? (realizationName v site) = some d ∧ d.dimensions = n := by
  obtain ⟨hnew, rfl⟩ := fixDescriptor_inv h
  obtain ⟨hname, hdim⟩ := newDescriptor_inv hnew
  refine ⟨⟨extends_withDescriptor (hname ▸ hnone), rfl, rfl⟩, ?_, hdim⟩
  rw [descriptor?_withDescriptor, if_pos hname]

/-- The descriptor that a realization was asked for is fixed afterwards. -/
theorem descriptorOf_growsTo (hg : f.descriptorOf v site = .ok (d, g)) :
    f.GrowsTo g ∧ g.descriptor? (realizationName v site) = some d := by
  unfold descriptorOf at hg
  cases hd : f.descriptor? (realizationName v site) with
  | some d' =>
    rw [hd] at hg
    cases hg
    exact ⟨.refl f, hd⟩
  | none =>
    rw [hd] at hg
    obtain ⟨hgrows, hfix, -⟩ := fixDescriptor_growsTo hd hg
    exact ⟨hgrows, hfix⟩

theorem descriptorOf_again (hg : f.descriptorOf v site = .ok (d, g)) :
    f.GrowsTo g ∧ ∀ h, g.GrowsTo h → h.descriptorOf v site = .ok (d, h) := by
  obtain ⟨hgrows, hfound⟩ := descriptorOf_growsTo hg
  refine ⟨hgrows, fun h hgh => ?_⟩
  rw [descriptorOf, hgh.grown.descriptors _ _ hfound]

theorem descriptorWith_again {n : Nat} (hg : f.descriptorWith v site n = .ok (d, g)) :
    f.GrowsTo g ∧ ∀ h, g.GrowsTo h → h.descriptorWith v site n = .ok (d, h) := by
  have hfound : f.GrowsTo g ∧ g.descriptor? (realizationName v site) = some d ∧
      d.dimensions = max n 1 := by
    unfold descriptorWith at hg
    dsimp only at hg
    cases hd : f.descriptor? (realizationName v site) with
    | some d' =>
      rw [hd] at hg
      dsimp only at hg
      split at hg
      · next hdim =>
        cases hg
        exact ⟨.refl f, hd, hdim⟩
      · cases hg
    | none =>
      rw [hd] at hg
      exact fixDescriptor_growsTo hd hg
  obtain ⟨hgrows, hd, hdim⟩ := hfound
  refine ⟨hgrows, fun h hgh => ?_⟩
  unfold descriptorWith
  dsimp only
  rw [hgh.grown.descriptors _ _ hd]
  exact if_pos hdim

end Formula

namespace GroundingM

variable {α β : Type} {f : Formula}

/-- Whatever comes of a run from `f` on, the computation comes to it again on the formula left and
changes nothing; an answer comes again on every formula that the one left has grown to. -/
def Replays (f : Formula) (m : GroundingM α) : Prop :=
  ∀ r g, m.run f = some (r, g) → f.GrowsTo g ∧ m.run g = some (r, g) ∧
    ∀ a, r = .ok a → ∀ h, g.GrowsTo h → m.run h = some (.ok a, h)

namespace Replays

theorem pure (a : α) : Replays f (pure a : GroundingM α) := by
  intro r g h
  cases h
  exact ⟨.refl f, rfl, fun _ hr _ _ => by cases hr; rfl⟩

theorem throw (e : Error) : Replays f (throw e : GroundingM α) := by
  intro r g h
  cases h
  exact ⟨.refl f, rfl, fun _ hr => by cases hr⟩

theorem outOfFuel : Replays f (outOfFuel : GroundingM α) := by
  intro r g h
  cases h

theorem ofExcept_bind {r : Except Error α} {k : α → GroundingM β} (hk : ∀ a, Replays f (k a)) :
    Replays f (ofExcept r >>= k) := by
  cases r with
  | ok a => exact hk a
  | error e => exact throw e

/-- The first step gives its answer again on the formula that the second step has left. -/
theorem bind {x : GroundingM α} {k : α → GroundingM β} (hx : Replays f x)
    (hk : ∀ a g, f.GrowsTo g → Replays g (k a)) : Replays f (x >>= k) := by
  intro r g hrun
  rcases run_bind_cases hrun with ⟨e, hxe, rfl⟩ | ⟨a, f', hxa, hka⟩
  · obtain ⟨hgrows, hagain, -⟩ := hx _ _ hxe
    exact ⟨hgrows, run_bind_error hagain k, fun _ hr => by cases hr⟩
  · obtain ⟨hff', -, hlater⟩ := hx _ _ hxa
    obtain ⟨hf'g, hagain, hlater'⟩ := hk a f' hff' r g hka
    refine ⟨hff'.trans hf'g, ?_, fun b hr h hgh => ?_⟩
    · rw [run_bind_ok (hlater a rfl g hf'g), hagain]
    · rw [run_bind_ok (hlater a rfl h (hf'g.trans hgh)), hlater' b hr h hgh]

/-- A step that reads the formula reads the same from every formula it has grown to. -/
theorem get_bind {k : Formula → GroundingM α} (hsame : ∀ g, f.GrowsTo g → k g = k f)
    (hk : Replays f (k f)) : Replays f (get >>= k) := by
  intro r g hrun
  rw [run_get_bind] at hrun
  obtain ⟨hgrows, hagain, hlater⟩ := hk r g hrun
  refine ⟨hgrows, ?_, fun a hr h hgh => ?_⟩
  · rw [run_get_bind, hsame g hgrows, hagain]
  · rw [run_get_bind, hsame h (hgrows.trans hgh), hlater a hr h hgh]

theorem update {op : Formula → α × Formula} (hgrows : f.GrowsTo (op f).2)
    (hagain : ∀ g, (op f).2.GrowsTo g → op g = ((op f).1, g)) : Replays f (update op) := by
  have hrun (g : Formula) (hg : (op f).2.GrowsTo g) :
      (GroundingM.update op).run g = some (.ok (op f).1, g) := by
    rw [run_update, hagain g hg]
  intro r g h
  rw [run_update] at h
  cases h
  exact ⟨hgrows, hrun _ (.refl _), fun a hr h hh => by cases hr; exact hrun h hh⟩

theorem modify {op : Formula → Formula} (hgrows : f.GrowsTo (op f))
    (hagain : ∀ g, (op f).GrowsTo g → op g = g) : Replays f (modify op) := by
  have hupdate : Replays f (GroundingM.update fun f => ((), op f)) :=
    update hgrows fun g hg => by rw [hagain g hg]
  exact hupdate

/-- A failing operation changes nothing, so it fails again. -/
theorem attempt {op : Formula → Except Error (α × Formula)}
    (hop : ∀ a g, op f = .ok (a, g) → f.GrowsTo g ∧ ∀ h, g.GrowsTo h → op h = .ok (a, h)) :
    Replays f (attempt op) := by
  intro r g hrun
  have hf := hrun
  rw [run_attempt] at hrun
  cases hopf : op f with
  | error e =>
    rw [hopf] at hrun
    cases hrun
    exact ⟨.refl f, hf, fun _ hr => by cases hr⟩
  | ok p =>
    obtain ⟨a, g'⟩ := p
    rw [hopf] at hrun
    cases hrun
    obtain ⟨hgrows, hagain⟩ := hop a g hopf
    have hlater (h : Formula) (hgh : g.GrowsTo h) :
        (GroundingM.attempt op).run h = some (.ok a, h) := by
      rw [run_attempt, hagain h hgh]
    exact ⟨hgrows, hlater g (.refl g), fun _ hr h hgh => by cases hr; exact hlater h hgh⟩

theorem mapM {xs : List α} {k : α → GroundingM β}
    (hk : ∀ a ∈ xs, ∀ g, f.GrowsTo g → Replays g (k a)) : Replays f (xs.mapM k) := by
  induction xs generalizing f with
  | nil => exact pure []
  | cons a as ih =>
    rw [List.mapM_cons]
    refine (hk a List.mem_cons_self f (.refl f)).bind fun b g hfg => ?_
    have has : Replays g (as.mapM k) :=
      ih fun a' ha' h hgh => hk a' (List.mem_cons_of_mem a ha') h (hfg.trans hgh)
    exact has.bind fun bs h _ => pure (b :: bs)

theorem conjoinAll (f : Formula) (guards : List Guard) :
    Replays f (GroundingM.update (Formula.conjoinAll guards)) :=
  update ⟨f.extends_conjoinAll guards, (f.sites_conjoinAll guards).1, (f.sites_conjoinAll guards).2⟩
    fun _ hg => Formula.conjoinAll_again hg.grown

theorem addAtom (f : Formula) (t : Term) (p : Option Term) (s : Source) :
    Replays f (GroundingM.update (Formula.addAtom t p s)) :=
  update ⟨f.extends_addAtom t p s, (f.sites_addAtom t p s).1, (f.sites_addAtom t p s).2⟩
    fun _ hg => Formula.addAtom_again hg.grown

end Replays

end GroundingM

end Grounding
