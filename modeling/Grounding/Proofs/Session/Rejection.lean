import Grounding.Proofs.Session.Dimension

/-!
# Rejected realizations

A call of `as` goes through the sites of its variable in order and fixes the descriptor at each of
them before it looks at the next. A site that rejects the call ends it, and what was fixed at the
sites before stays fixed. Since the realizations of a variable at different sites have different
names, no site is judged otherwise for what was fixed at the others.
-/

namespace Grounding

open GroundingM

variable {f g h : Formula} {v : Term} {s t : NodeId} {n : Nat} {d : Descriptor}

/-- The descriptor that a site gives for this number of coordinates, or why it gives none. -/
def Formula.verdict (f : Formula) (v : Term) (n : Nat) (s : NodeId) : Except Error Descriptor :=
  (f.descriptorWith v s n).map Prod.fst

/-- `g` is `f` with the descriptors that these sites of the variable give, and nothing else. -/
structure Formula.FixedAt (f : Formula) (v : Term) (n : Nat) (sites : List NodeId) (g : Formula) :
    Prop where
  kept : g = { f with descriptors := g.descriptors }
  fixed : ∀ t ∈ sites, ∃ d, f.verdict v n t = .ok d ∧ g.descriptor? (realizationName v t) = some d
  others : ∀ name, (∀ t ∈ sites, realizationName v t ≠ name) → g.descriptor? name = f.descriptor? name

namespace Formula

theorem verdict_max (f : Formula) (v : Term) (n : Nat) (s : NodeId) :
    f.verdict v (max n 1) s = f.verdict v n s := by
  rw [verdict, verdict, descriptorWith, descriptorWith, Nat.max_assoc, Nat.max_self]

/-- A site is judged by its own descriptor and distribution. -/
theorem verdict_congr (hd : g.descriptor? (realizationName v s) = f.descriptor? (realizationName v s))
    (hp : g.probability? s = f.probability? s) : g.verdict v n s = f.verdict v n s := by
  have hnew : g.newDescriptor v s (max n 1) = f.newDescriptor v s (max n 1) := by
    rw [newDescriptor, hp, newDescriptor]
  unfold verdict descriptorWith
  dsimp only
  rw [hd]
  split
  · split <;> rfl
  · rw [fixDescriptor, fixDescriptor, hnew]
    cases f.newDescriptor v s (max n 1) <;> rfl

theorem verdict_of_descriptorWith (h : f.descriptorWith v s n = .ok (d, g)) :
    f.verdict v n s = .ok d := by
  rw [verdict, h]
  rfl

theorem verdict_of_error {e : Error} (h : f.descriptorWith v s n = .error e) :
    f.verdict v n s = .error e := by
  rw [verdict, h]
  rfl

/-- A site whose descriptor is fixed gives this one or none. -/
theorem eq_of_verdict {d' : Descriptor} (hd : f.descriptor? (realizationName v s) = some d')
    (h : f.verdict v n s = .ok d) : d = d' := by
  unfold verdict descriptorWith at h
  dsimp only at h
  rw [hd] at h
  dsimp only at h
  split at h
  · cases h
    rfl
  · cases h

/-- Asking one site changes nothing or adds its descriptor. -/
theorem descriptorWith_fixedAt (h : f.descriptorWith v s n = .ok (d, g)) :
    f.FixedAt v n [s] g := by
  have hverdict := verdict_of_descriptorWith h
  unfold descriptorWith at h
  dsimp only at h
  cases hd : f.descriptor? (realizationName v s) with
  | some d' =>
    rw [hd] at h
    dsimp only at h
    split at h
    · cases h
      exact ⟨rfl, List.forall_mem_singleton.mpr ⟨d, hverdict, hd⟩, fun _ _ => rfl⟩
    · cases h
  | none =>
    rw [hd] at h
    obtain ⟨hnew, rfl⟩ := fixDescriptor_inv h
    obtain ⟨hname, -⟩ := newDescriptor_inv hnew
    refine ⟨rfl, List.forall_mem_singleton.mpr ⟨d, hverdict, ?_⟩, fun name hother => ?_⟩
    · rw [descriptor?_withDescriptor, if_pos hname]
    · rw [descriptor?_withDescriptor, if_neg]
      rw [hname]
      exact hother s (List.mem_singleton_self s)

namespace FixedAt

variable {sites : List NodeId}

theorem nil (f : Formula) (v : Term) (n : Nat) : f.FixedAt v n [] f :=
  ⟨rfl, by simp, fun _ _ => rfl⟩

/-- At least one coordinate is asked for in any case. -/
theorem max_one (hfg : f.FixedAt v n sites g) : f.FixedAt v (max n 1) sites g := by
  refine ⟨hfg.kept, fun t ht => ?_, hfg.others⟩
  rw [verdict_max]
  exact hfg.fixed t ht

/-- The sites that were not asked are judged as before. -/
theorem verdict_eq (hfg : f.FixedAt v n sites g) (hs : s ∉ sites) :
    g.verdict v n s = f.verdict v n s := by
  refine verdict_congr (hfg.others _ fun t ht hname => ?_) ?_
  · obtain ⟨-, rfl⟩ := realizationName_inj hname
    exact hs ht
  · rw [hfg.kept]
    rfl

theorem cons (hfg : f.FixedAt v n [s] g) (hgh : g.FixedAt v n sites h) (hs : s ∉ sites) :
    f.FixedAt v n (s :: sites) h where
  kept := by rw [hgh.kept, hfg.kept]
  fixed := by
    refine List.forall_mem_cons.mpr ⟨?_, fun t ht => ?_⟩
    · obtain ⟨d, hd, hfix⟩ := hfg.fixed s (List.mem_singleton_self s)
      refine ⟨d, hd, ?_⟩
      rw [hgh.others, hfix]
      intro t ht hname
      obtain ⟨-, rfl⟩ := realizationName_inj hname
      exact hs ht
    · obtain ⟨d, hd, hfix⟩ := hgh.fixed t ht
      have hother : t ∉ [s] := fun hmem => hs (List.mem_singleton.mp hmem ▸ ht)
      exact ⟨d, hfg.verdict_eq hother ▸ hd, hfix⟩
  others name hother := by
    obtain ⟨hname, hothers⟩ := List.forall_mem_cons.mp hother
    rw [hgh.others name hothers, hfg.others name (List.forall_mem_singleton.mpr hname)]

/-- Where all descriptors were fixed before, nothing changes. -/
theorem eq_of_fixed (hfg : f.FixedAt v n sites g)
    (hall : ∀ t ∈ sites, (f.descriptor? (realizationName v t)).isSome) : g = f := by
  have hdescriptors : g.descriptors = f.descriptors := by
    refine Std.ExtTreeMap.ext_getElem? fun name => ?_
    show g.descriptor? name = f.descriptor? name
    by_cases hname : ∃ t ∈ sites, realizationName v t = name
    · obtain ⟨t, ht, rfl⟩ := hname
      obtain ⟨d, hd, hfix⟩ := hfg.fixed t ht
      obtain ⟨d', hd'⟩ := Option.isSome_iff_exists.mp (hall t ht)
      rw [hfix, hd', eq_of_verdict hd' hd]
    · exact hfg.others name fun t ht he => hname ⟨t, ht, he⟩
  rw [hfg.kept, hdescriptors]

end FixedAt

theorem nodup_sites? {sites : List NodeId} (h : f.sites? v = some sites) : sites.Nodup := by
  obtain ⟨set, -, rfl⟩ := Option.map_eq_some_iff.mp h
  refine (Std.ExtTreeSet.ordered_toList (t := set)).imp fun hlt heq => ?_
  rw [heq, Std.ReflOrd.compare_self] at hlt
  cases hlt

end Formula

theorem run_asResult (v : Term) (length : Option Nat) (s : NodeId) (f : Formula) :
    (Builtin.asResult v length s).run f =
      match f.descriptorWith v s (length.getD 1) with
      | .ok (d, g) => some (.ok ((Builtin.boundValue? length.isSome d.coordinates).map fun t =>
          ([t, v], g.body s)), g)
      | .error e => some (.error e, f) := by
  have hask := run_attempt (·.descriptorWith v s (length.getD 1)) f
  unfold Builtin.asResult
  cases hd : f.descriptorWith v s (length.getD 1) with
  | error e =>
    rw [hd] at hask
    exact run_bind_error hask _
  | ok p =>
    rw [hd] at hask
    exact run_bind_ok hask _

/-- A traversal of the sites comes to its end, or stops at the first one that gives an error. Both
are told by what the formula had before the traversal. -/
theorem mapM_asResult_cases {length : Option Nat} {sites : List NodeId} (hnodup : sites.Nodup)
    {r : Except Error (List (Option (List Term × Guard)))}
    (hrun : (sites.mapM (Builtin.asResult v length)).run f = some (r, g)) :
    (∃ results, r = .ok results ∧ f.FixedAt v (length.getD 1) sites g) ∨
      ∃ before s after e, sites = before ++ s :: after ∧
        f.verdict v (length.getD 1) s = .error e ∧ r = .error e ∧
        f.FixedAt v (length.getD 1) before g := by
  induction sites generalizing f r with
  | nil =>
    cases hrun
    exact .inl ⟨[], rfl, .nil _ v _⟩
  | cons s sites ih =>
    obtain ⟨hs, hnodup⟩ := List.nodup_cons.mp hnodup
    have hstep := run_asResult v length s f
    rw [List.mapM_cons] at hrun
    cases hd : f.descriptorWith v s (length.getD 1) with
    | error e =>
      rw [hd] at hstep
      rw [run_bind_error hstep] at hrun
      cases hrun
      exact .inr ⟨[], s, sites, e, rfl, Formula.verdict_of_error hd, rfl, .nil _ v _⟩
    | ok p =>
      obtain ⟨d, f₁⟩ := p
      rw [hd] at hstep
      rw [run_bind_ok hstep] at hrun
      have hfixed := Formula.descriptorWith_fixedAt hd
      rcases run_bind_cases hrun with ⟨e, hrest, rfl⟩ | ⟨results, f₂, hrest, hend⟩
      · rcases ih hnodup hrest with ⟨_, he, -⟩ | ⟨before, t, after, e', rfl, ht, he, hbefore⟩
        · cases he
        cases he
        have htail : ∀ u ∈ [s], u ∉ before ++ t :: after := List.forall_mem_singleton.mpr hs
        have ht' : t ∉ [s] := fun hmem => htail t hmem (by simp)
        rw [hfixed.verdict_eq ht'] at ht
        exact .inr ⟨s :: before, t, after, e, rfl, ht, rfl,
          hfixed.cons hbefore fun hmem => hs (List.mem_append_left _ hmem)⟩
      · cases hend
        rcases ih hnodup hrest with ⟨_, -, hall⟩ | ⟨_, _, _, _, -, -, he, -⟩
        · exact .inl ⟨_, rfl, hfixed.cons hall hs⟩
        · cases he

variable {c : Context} {fuel : Nat} {value : Term}

/-- A call of `as` that has no answers was stopped by the first site that gives an error, and leaves
the descriptors of the sites before it; nothing is changed if these were fixed before the call, or
if the call did not come to a site. Which sites give an error, and which one they give, is told by
the formula as it was before the call. -/
theorem as_without_answers {r : Except Error Answers}
    (hrun : (BuiltinTable.standard.call (c.scope fuel) "as" [value, v]).run f = some (r, g))
    (hr : ∀ results, r ≠ .ok (.completed results)) :
    ((¬ v.isGround ∨ f.sites? v = none) ∧ g = f) ∨
    ∃ before s after e, f.sites? v = some (before ++ s :: after) ∧
      f.verdict v (askedDimensions value) s = .error e ∧ r = Answers.ofRun (.error e) ∧
      f.FixedAt v (askedDimensions value) before g ∧
      ((∀ t ∈ before, (f.descriptor? (realizationName v t)).isSome) → g = f) := by
  have hfind : BuiltinTable.standard.find? "as" [value, v].length = some Builtin.asBuiltin := rfl
  rw [BuiltinTable.run_call hfind, show Builtin.asBuiltin.mode = "*g" from rfl,
    check_assignment] at hrun
  by_cases hground : v.isGround
  · rw [if_pos hground] at hrun
    change ((Builtin.asResults (c.scope fuel) value v).run f).map _ = _ at hrun
    unfold Builtin.asResults at hrun
    rw [run_get_bind] at hrun
    cases hsites : f.sites? v with
    | none =>
      rw [hsites] at hrun
      cases hrun
      exact .inl ⟨.inr rfl, rfl⟩
    | some sites =>
      rw [hsites] at hrun
      obtain ⟨⟨r', g'⟩, hrule, he⟩ := Option.map_eq_some_iff.mp hrun
      cases he
      rcases run_bind_cases hrule with ⟨e, hall, rfl⟩ | ⟨results, f₁, -, hend⟩
      · rcases mapM_asResult_cases (Formula.nodup_sites? hsites) hall with
          ⟨_, he, -⟩ | ⟨before, s, after, e', rfl, hs, he, hbefore⟩
        · cases he
        cases he
        exact .inr ⟨before, s, after, e, rfl, (f.verdict_max v _ s).trans hs, rfl,
          hbefore.max_one, hbefore.eq_of_fixed⟩
      · cases hend
        exact absurd rfl (hr _)
  · rw [if_neg hground] at hrun
    cases hrun
    exact .inl ⟨.inl hground, rfl⟩

namespace Formula

/-- A variable with two sites, of which only the second was evaluated to a coordinate: the first is
a point mass. -/
def mixed : Formula :=
  let (_, f) := empty.addSite (.atom "x") (some (.compound pointMassFunctor [.constant (.int 3)]))
    .always
  let (_, f) := f.addSite (.atom "x")
    (some (.compound "normal" [.constant (.int 0), .constant (.int 1)])) .always
  f.withDescriptor ⟨"normal", [.constant (.int 0), .constant (.int 1)], "x#2", 1⟩

theorem mixed_reachable : mixed.Reachable := by
  have hpoint : Reachable (empty.addSite (.atom "x")
      (some (.compound pointMassFunctor [.constant (.int 3)])) .always).2 :=
    .step (.site (.atom "x") (some (.compound pointMassFunctor [.constant (.int 3)])) .always) .refl
      trivial rfl
  have hnormal := Reaches.step (.site (.atom "x") (some (.compound "normal"
    [.constant (.int 0), .constant (.int 1)])) .always) hpoint trivial rfl
  exact .step (.evaluate standardContext 1 (.atom "x")) hnormal trivial rfl

end Formula

theorem as_without_answers_mixed : ∃ g before s after,
    (BuiltinTable.standard.call (standardContext.scope 1) "as"
        [.ofList [.var "A", .var "B"], .atom "x"]).run Formula.mixed =
      some (.ok (.failed (.incorrectArgument (.pinnedDimensions "x#2" 1 2))), g) ∧
      [⟨0⟩, ⟨1⟩] = before ++ s :: after ∧ Formula.mixed.FixedAt (.atom "x") 2 before g := by
  obtain ⟨g, hrun⟩ : ∃ g, (BuiltinTable.standard.call (standardContext.scope 1) "as"
        [.ofList [.var "A", .var "B"], .atom "x"]).run Formula.mixed =
      some (.ok (.failed (.incorrectArgument (.pinnedDimensions "x#2" 1 2))), g) := ⟨_, rfl⟩
  rcases as_without_answers hrun (by nofun) with
    ⟨hnone, -⟩ | ⟨before, s, after, e, hsites, -, -, hfixed, -⟩
  · rcases hnone with hground | hsites
    · exact absurd rfl hground
    · cases hsites
  · exact ⟨g, before, s, after, hrun, Option.some.inj hsites, hfixed⟩

/-- The first site keeps the vector that the second one rejected, so that the variable cannot be
realized as a point any more, as it could before. -/
theorem as_keeps_rejected_vector : Formula.mixed.Reachable ∧
    Formula.mixed.descriptor? "x#1" = none ∧
    (∃ results g, (BuiltinTable.standard.call (standardContext.scope 1) "as"
        [.var "X", .atom "x"]).run Formula.mixed = some (.ok (.completed results), g)) ∧
    ∃ g h, (BuiltinTable.standard.call (standardContext.scope 1) "as"
          [.ofList [.var "A", .var "B"], .atom "x"]).run Formula.mixed =
        some (.ok (.failed (.incorrectArgument (.pinnedDimensions "x#2" 1 2))), g) ∧
      g.descriptor? "x#1" = some ⟨"delta", [.constant (.int 3)], "x#1", 2⟩ ∧
      (BuiltinTable.standard.call (standardContext.scope 1) "as" [.var "X", .atom "x"]).run g =
        some (.ok (.failed (.incorrectArgument (.pinnedDimensions "x#1" 2 1))), h) :=
  ⟨Formula.mixed_reachable, rfl, ⟨_, _, rfl⟩, _, _, rfl, rfl, rfl⟩

end Grounding
