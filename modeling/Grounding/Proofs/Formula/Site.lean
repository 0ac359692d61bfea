import Grounding.Proofs.Formula.Edit

/-!
# Sites and the names of realizations

The text of a term does not determine the term, but the name of a realization determines the site:
the number after the last `#` is that of the site, whatever the text of the variable contains. And a
site determines its variable, which is part of the identifier of the site.

`Coherent` collects what this rests on. It holds of the empty formula and survives every proper
edit, whatever guards and identifiers the edit is given.
-/

namespace Grounding

/-- A list is split in one way only by a separator that does not occur after it. -/
theorem append_cons_inj {α : Type} {c : α} {x y a b : List α} (ha : c ∉ a) (hb : c ∉ b)
    (h : x ++ c :: a = y ++ c :: b) : x = y ∧ a = b := by
  rcases List.append_eq_append_iff.mp h with ⟨as, rfl, htail⟩ | ⟨bs, rfl, htail⟩
  · cases as with
    | nil =>
      obtain ⟨-, hab⟩ := List.cons_eq_cons.mp htail
      exact ⟨(List.append_nil x).symm, hab⟩
    | cons d as =>
      obtain ⟨-, rfl⟩ := List.cons_eq_cons.mp htail
      exact absurd (List.mem_append_right as List.mem_cons_self) ha
  · cases bs with
    | nil =>
      obtain ⟨-, hba⟩ := List.cons_eq_cons.mp htail
      exact ⟨List.append_nil y, hba.symm⟩
    | cons d bs =>
      obtain ⟨-, rfl⟩ := List.cons_eq_cons.mp htail
      exact absurd (List.mem_append_right bs List.mem_cons_self) hb

theorem separator_notMem_repr (n : Nat) : '#' ∉ n.repr.toList := by
  intro h
  rw [Nat.toList_repr] at h
  have hdigit : '#'.isDigit = true :=
    Nat.isDigit_of_mem_toDigits (by decide) (Nat.le_refl 10) h
  exact absurd hdigit (by decide)

theorem repr_toList_inj {m n : Nat} (h : m.repr.toList = n.repr.toList) : m = n := by
  rw [Nat.toList_repr, Nat.toList_repr] at h
  have hread (k : Nat) : Nat.ofDigitChars 10 (Nat.toDigits 10 k) 0 = k :=
    Nat.ofDigitChars_toDigits (by decide) (Nat.le_refl 10)
  rw [← hread m, h, hread n]

theorem toList_realizationName (v : Term) (site : NodeId) :
    (realizationName v site).toList = v.text.toList ++ '#' :: site.number.repr.toList := by
  simp [realizationName, String.toList_append, Nat.toString_eq_repr]

theorem NodeId.number_inj {a b : NodeId} : a.number = b.number ↔ a = b := by
  rw [NodeId.number, NodeId.number, Nat.add_right_cancel_iff]
  constructor
  · intro hindex
    cases a
    cases b
    exact congrArg NodeId.mk hindex
  · exact congrArg NodeId.index

/-- The name gives the text of the variable and the site, since no digit is a separator. -/
theorem realizationName_inj {v u : Term} {s t : NodeId}
    (h : realizationName v s = realizationName u t) : v.text = u.text ∧ s = t := by
  have hlist := congrArg String.toList h
  rw [toList_realizationName, toList_realizationName] at hlist
  obtain ⟨htext, hdigits⟩ :=
    append_cons_inj (separator_notMem_repr _) (separator_notMem_repr _) hlist
  have hnumber : s.number = t.number := repr_toList_inj hdigits
  exact ⟨String.toList_inj.mp htext, NodeId.number_inj.mp hnumber⟩

/-- An atom and a variable can share their text, so the text alone would not do. -/
example : (Term.atom "x").text = (Term.var "x").text := by decide

/-- Whether an edit leaves the descriptors alone. -/
def Edit.KeepsDescriptors : Edit → Prop
  | .descriptor .. => False
  | _ => True

namespace Formula

variable {f g : Formula} {v u : Term} {s t : NodeId} {d : Descriptor}

/-- The node is a site of the variable. -/
def IsSite (f : Formula) (v : Term) (s : NodeId) : Prop :=
  ∃ sites, f.sites? v = some sites ∧ s ∈ sites

theorem isSite_iff : f.IsSite v s ↔ s ∈ f.sites.getD v ∅ := mem_getD_iff.symm

theorem Extends.isSite (hfg : f.Extends g) (hs : f.IsSite v s) : g.IsSite v s :=
  isSite_iff.mpr (hfg.sites v s (isSite_iff.mp hs))

theorem isSite_congr (h : g.sites = f.sites) : g.IsSite v s ↔ f.IsSite v s := by
  rw [isSite_iff, isSite_iff, h]

/-- Registering a site makes it a site of its variable, and no other node of any variable. -/
theorem isSite_addSite (p : Option Term) (body : Guard) :
    (f.addSite v p body).2.IsSite u s ↔ u = v ∧ s = (f.addSite v p body).1 ∨ f.IsSite u s := by
  have hold := (f.sites_addAtom (siteIdentifier v p body) p .realization).1
  rw [isSite_iff, isSite_iff]
  unfold Formula.addSite
  generalize f.addAtom (siteIdentifier v p body) p .realization = r at hold ⊢
  obtain ⟨site, g⟩ := r
  dsimp only at hold ⊢
  rw [hold]
  exact mem_getD_insert_iff

theorem bodies_addSite (f : Formula) (v : Term) (p : Option Term) (body : Guard) :
    (f.addSite v p body).2.bodies =
      if body.isAlways then f.bodies else f.bodies.insert (f.addSite v p body).1 body := by
  have hold := (f.sites_addAtom (siteIdentifier v p body) p .realization).2
  unfold Formula.addSite
  generalize f.addAtom (siteIdentifier v p body) p .realization = r at hold ⊢
  obtain ⟨site, g⟩ := r
  dsimp only at hold ⊢
  rw [hold]

/-- A body that always holds is not stored, which does no harm where no other is. -/
theorem body_addSite {p : Option Term} {body : Guard}
    (hold : f.body (f.addSite v p body).1 = body ∨ f.body (f.addSite v p body).1 = .always) :
    (f.addSite v p body).2.body s = if (f.addSite v p body).1 = s then body else f.body s := by
  rw [Formula.body, bodies_addSite]
  by_cases hb : body.isAlways
  · have halways : body = .always := by
      cases body with
      | always => rfl
      | never | node => cases hb
    subst halways
    rw [if_pos hb, ← Formula.body]
    by_cases hs : (f.addSite v p .always).1 = s
    · rw [if_pos hs, ← hs]
      exact hold.elim id id
    · rw [if_neg hs]
  · rw [if_neg hb]
    simp only [Std.ExtTreeMap.getD_insert, Std.LawfulEqCmp.compare_eq_iff_eq]
    rfl

theorem node?_addSite_of_ne {p : Option Term} {body : Guard} (hs : (f.addSite v p body).1 ≠ s) :
    (f.addSite v p body).2.node? s = f.node? s := by
  show (f.addAtom (siteIdentifier v p body) p .realization).2.node? s = f.node? s
  change (f.addAtom (siteIdentifier v p body) p .realization).1 ≠ s at hs
  cases hfound : f.findAtom? (siteIdentifier v p body) with
  | some id => rw [addAtom_of_found hfound]
  | none =>
    rw [addAtom_of_new hfound] at hs ⊢
    rw [node?_withAtom, if_neg (Ne.symm hs)]

theorem Extends.probability?_of_some (hfg : f.Extends g) {p : Term}
    (hp : f.probability? s = some p) : g.probability? s = some p := by
  obtain ⟨n, hn, hp⟩ := Option.bind_eq_some_iff.mp hp
  rw [probability?, hfg.node? hn]
  exact hp

/-- The descriptor that a realization gets is made of the distribution and the name. -/
theorem newDescriptor_eq_ok_iff {n : Nat} : f.newDescriptor v s n = .ok d ↔
    ∃ p functor args, f.probability? s = some p ∧ distributionParts p = .ok (functor, args) ∧
      d = ⟨functor, args, realizationName v s, n⟩ := by
  unfold newDescriptor
  constructor
  · intro h
    split at h
    · cases h
    · next p hp =>
      cases hparts : distributionParts p with
      | error e => rw [hparts] at h; cases h
      | ok parts =>
        rw [hparts] at h
        cases h
        exact ⟨p, parts.1, parts.2, hp, hparts, rfl⟩
  · rintro ⟨p, functor, args, hp, hparts, rfl⟩
    rw [hp]
    dsimp only
    rw [hparts]
    rfl

theorem newDescriptor_inv {n : Nat} (h : f.newDescriptor v s n = .ok d) :
    d.name = realizationName v s ∧ d.dimensions = n := by
  obtain ⟨p, functor, args, -, -, rfl⟩ := newDescriptor_eq_ok_iff.mp h
  exact ⟨rfl, rfl⟩

/-- There is no descriptor without a distribution, or if that is no term with a functor. -/
theorem newDescriptor_error {n : Nat} {e : Error} (h : f.newDescriptor v s n = .error e) :
    e = .undefinedRealization v ∨ ∃ p, e = .incorrectArgument (.notADistribution p) := by
  unfold newDescriptor at h
  split at h
  · cases h
    exact .inl rfl
  · next p _ =>
    cases hparts : distributionParts p with
    | ok parts => rw [hparts] at h; cases h
    | error e' =>
      rw [hparts] at h
      cases h
      unfold distributionParts at hparts
      split at hparts
      · cases hparts
      · split at hparts <;> cases hparts
        exact .inr ⟨_, rfl⟩

theorem fixDescriptor_error {n : Nat} {e : Error} (h : f.fixDescriptor v s n = .error e) :
    f.newDescriptor v s n = .error e := by
  unfold fixDescriptor at h
  cases hd : f.newDescriptor v s n with
  | error e' => rw [hd] at h; cases h; rfl
  | ok d => rw [hd] at h; cases h

theorem descriptorOf_error {e : Error} (h : f.descriptorOf v s = .error e) :
    f.newDescriptor v s 1 = .error e := by
  unfold descriptorOf at h
  split at h
  · cases h
  · exact fixDescriptor_error h

theorem descriptorWith_error {n : Nat} {e : Error} (h : f.descriptorWith v s n = .error e) :
    f.newDescriptor v s (max n 1) = .error e ∨
      ∃ pinned asked, e = .incorrectArgument
        (.pinnedDimensions (realizationName v s) pinned asked) := by
  unfold descriptorWith at h
  dsimp only at h
  split at h
  · split at h <;> cases h
    exact .inr ⟨_, _, rfl⟩
  · exact .inl (fixDescriptor_error h)

theorem Extends.newDescriptor (hfg : f.Extends g) {n : Nat} (h : f.newDescriptor v s n = .ok d) :
    g.newDescriptor v s n = .ok d := by
  obtain ⟨p, functor, args, hp, hparts, rfl⟩ := newDescriptor_eq_ok_iff.mp h
  exact newDescriptor_eq_ok_iff.mpr
    ⟨p, functor, args, hfg.probability?_of_some hp, hparts, rfl⟩

theorem descriptors_apply {e : Edit} (he : e.KeepsDescriptors) (f : Formula) :
    (e.apply f).descriptors = f.descriptors := by
  have hatom (t : Term) (p : Option Term) (source : Source) :
      (f.addAtom t p source).2.descriptors = f.descriptors :=
    (congrArg Formula.descriptors (f.withoutNodes_addAtom t p source) :)
  cases e with
  | atom t p source => exact hatom t p source
  | conjunction guards => exact (congrArg Formula.descriptors (withoutNodes_conjoinAll guards f) :)
  | site v p body => exact hatom (siteIdentifier v p body) p .realization
  | name t x l => cases l <;> rfl
  | descriptor => exact he.elim
  | density | free => rfl

/-- What sites and descriptors owe to the nodes, whatever guards the formula keeps. -/
structure Coherent (f : Formula) : Prop where
  indexed : f.Indexed
  /-- A site is an atom whose identifier starts with the variable. -/
  identifier : ∀ v s, f.IsSite v s → ∃ d b p source,
    f.node? s = some (.atom (.compound siteFunctor [v, d, b]) p source)
  /-- A descriptor is found under the name of a realization and is the one that this gets. -/
  descriptor : ∀ name d, f.descriptor? name = some d → ∃ v s,
    name = realizationName v s ∧ f.newDescriptor v s d.dimensions = .ok d ∧ 1 ≤ d.dimensions

namespace Coherent

theorem empty : empty.Coherent where
  indexed := empty_wellFormed.findAtom_iff
  identifier v s hs := by
    rw [isSite_iff] at hs
    simp [Formula.empty] at hs
  descriptor name d hd := by simp [descriptor?, Formula.empty] at hd

/-- Descriptors that were there stay good, since the nodes that they describe stay. -/
theorem descriptor_of_grows (hf : f.Coherent) (hfg : f.Extends g) {name : String}
    (hd : f.descriptor? name = some d) : ∃ v s,
      name = realizationName v s ∧ g.newDescriptor v s d.dimensions = .ok d ∧ 1 ≤ d.dimensions := by
  obtain ⟨v, s, hname, hnew, hdim⟩ := hf.descriptor name d hd
  exact ⟨v, s, hname, hfg.newDescriptor hnew, hdim⟩

theorem identifier_apply (hf : f.Coherent) {e : Edit} (he : e.Proper f)
    (hs : (e.apply f).IsSite v s) : ∃ d b p source,
      (e.apply f).node? s = some (.atom (.compound siteFunctor [v, d, b]) p source) := by
  have hgrows : f.Extends (e.apply f) := extends_apply he
  have hold (hs : f.IsSite v s) : ∃ d b p source,
      (e.apply f).node? s = some (.atom (.compound siteFunctor [v, d, b]) p source) := by
    obtain ⟨d, b, p, source, hn⟩ := hf.identifier v s hs
    exact ⟨d, b, p, source, hgrows.node? hn⟩
  have hspared (hkeep : e.KeepsSites) := hold ((isSite_congr (sites_apply hkeep f).1).mp hs)
  cases e with
  | site u p body =>
    rcases (isSite_addSite p body).mp hs with ⟨rfl, rfl⟩ | hs
    · -- the site that was registered is found by its identifier
      have hfound := f.findAtom?_addAtom (siteIdentifier v p body) p .realization
      have hindexed := hf.indexed.apply (.site v p body)
      obtain ⟨q, source, hn⟩ := (hindexed (siteIdentifier v p body) _).mp hfound
      exact ⟨_, _, q, source, hn⟩
    · exact hold hs
  | _ => exact hspared trivial

theorem descriptor_apply (hf : f.Coherent) {e : Edit} (he : e.Proper f) {name : String}
    (hd : (e.apply f).descriptor? name = some d) : ∃ v s, name = realizationName v s ∧
      (e.apply f).newDescriptor v s d.dimensions = .ok d ∧ 1 ≤ d.dimensions := by
  have hgrows : f.Extends (e.apply f) := extends_apply he
  have hold (hd : f.descriptor? name = some d) := hf.descriptor_of_grows hgrows hd
  have hspared (hkeep : e.KeepsDescriptors) :=
    hold (by rwa [descriptor?, descriptors_apply hkeep] at hd)
  cases e with
  | descriptor v s d' =>
    rw [Edit.apply, descriptor?_withDescriptor] at hd
    split at hd
    · next hname =>
      cases hd
      exact ⟨v, s, hname ▸ (newDescriptor_inv he.1).1, hgrows.newDescriptor he.1, he.2.1⟩
    · exact hold hd
  | _ => exact hspared trivial

theorem apply (hf : f.Coherent) {e : Edit} (he : e.Proper f) : (e.apply f).Coherent where
  indexed := hf.indexed.apply e
  identifier _ _ hs := hf.identifier_apply he hs
  descriptor _ _ hd := hf.descriptor_apply he hd

theorem trail {P : Edit → Prop} (hf : f.Coherent) (hfg : f.Trail P g) : g.Coherent := by
  induction hfg with
  | refl => exact hf
  | step _ _ he ih => exact ih.apply he

/-- A site is a node of the formula. -/
theorem knows_site (hf : f.Coherent) (hs : f.IsSite v s) : f.Knows (.node s) := by
  obtain ⟨_, _, _, _, hn⟩ := hf.identifier v s hs
  exact isSome_node?_iff.mp (hn ▸ rfl)

theorem variable_unique (hf : f.Coherent) (hv : f.IsSite v s) (hu : f.IsSite u s) : v = u := by
  obtain ⟨d, b, p, source, hn⟩ := hf.identifier v s hv
  obtain ⟨d', b', p', source', hn'⟩ := hf.identifier u s hu
  rw [hn] at hn'
  cases hn'
  rfl

theorem name_inj (hf : f.Coherent) (hs : f.IsSite v s) (ht : f.IsSite u t)
    (hname : realizationName v s = realizationName u t) : v = u ∧ s = t := by
  obtain ⟨-, rfl⟩ := realizationName_inj hname
  exact ⟨hf.variable_unique hs ht, rfl⟩

/-- The descriptor found under the name of a realization is that of this very realization. -/
theorem descriptor_of_name (hf : f.Coherent) (hd : f.descriptor? (realizationName v s) = some d) :
    f.newDescriptor v s d.dimensions = .ok d ∧ 1 ≤ d.dimensions := by
  obtain ⟨u, t, hname, hnew, hdim⟩ := hf.descriptor _ d hd
  obtain ⟨-, rfl⟩ := realizationName_inj hname
  obtain ⟨p, functor, args, hp, hparts, he⟩ := newDescriptor_eq_ok_iff.mp hnew
  rw [← hname] at he
  exact ⟨newDescriptor_eq_ok_iff.mpr ⟨p, functor, args, hp, hparts, he⟩, hdim⟩

end Coherent

end Formula

end Grounding
