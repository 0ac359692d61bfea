import Grounding.Proofs.Session.Observation
import Grounding.Proofs.Session.Rejection

/-!
# Vectors

A call of `as` with a list gives at every site of the variable the list of the coordinates of its
realization, and fixes the realization with so many coordinates. These are as many as the list has
items, so that nothing but an item can keep the two lists apart. The empty list is the exception: no
realization has fewer than one coordinate, and what the call gives is no instance of what it was
called with.
-/

namespace Grounding

open GroundingM

variable {f g : Formula} {v : Term} {s : NodeId} {n : Nat}

namespace Term

mutual

/-- The term with these terms put in for its variables. -/
def substitute (σ : String → Term) : Term → Term
  | .var x => σ x
  | .compound functor args => .compound functor (substituteAll σ args)
  | .symbolic functor args names => .symbolic functor (substituteAll σ args) names
  | .realized functor args name dimensions =>
    .realized functor (substituteAll σ args) name dimensions
  | t => t

def substituteAll (σ : String → Term) : List Term → List Term
  | [] => []
  | t :: ts => t.substitute σ :: substituteAll σ ts

end

def Unifiable (t u : Term) : Prop := ∃ σ, t.substitute σ = u.substitute σ

theorem ofList_inj {ts us : List Term} : ofList ts = ofList us ↔ ts = us := by
  refine ⟨fun h => ?_, congrArg ofList⟩
  have hlist := congrArg list? h
  rw [list?_ofList, list?_ofList] at hlist
  exact Option.some.inj hlist

theorem substitute_ofList (σ : String → Term) (ts : List Term) :
    (ofList ts).substitute σ = ofList (ts.map (substitute σ)) := by
  induction ts with
  | nil => rfl
  | cons t ts ih =>
    have hcell : (ofList (t :: ts)).substitute σ = cell (t.substitute σ) ((ofList ts).substitute σ) :=
      rfl
    rw [hcell, ih]
    rfl

theorem map_substitute_coordinates (σ : String → Term) (name : String) (n : Nat) :
    (coordinates name n).map (substitute σ) = coordinates name n := by
  rw [coordinates, List.map_map]
  rfl

/-- The coordinates have no variables, so only the items are to be instantiated. -/
theorem unifiable_coordinates_iff {items : List Term} {name : String} :
    (ofList items).Unifiable (ofList (coordinates name n)) ↔
      ∃ σ, items.map (substitute σ) = coordinates name n := by
  unfold Unifiable
  simp only [substitute_ofList, map_substitute_coordinates, ofList_inj]

/-- A list is unified with as many coordinates item by item. -/
theorem unifiable_coordinates_length_iff {items : List Term} {name : String} :
    (ofList items).Unifiable (ofList (coordinates name items.length)) ↔
      ∃ σ : String → Term, ∀ (i : Nat) (t : Term), items[i]? = some t →
        t.substitute σ = .coordinate name i := by
  rw [unifiable_coordinates_iff]
  refine exists_congr fun σ => ⟨fun h i t ht => ?_, fun h => ?_⟩
  · obtain ⟨hi, rfl⟩ := List.getElem?_eq_some_iff.mp ht
    have hat : (items.map (substitute σ))[i]? = (coordinates name items.length)[i]? := by rw [h]
    rw [coordinates, List.getElem?_map, List.getElem?_map, ht, List.getElem?_range hi] at hat
    exact Option.some.inj hat
  · refine List.ext_getElem (by simp [coordinates]) fun i hi _ => ?_
    have hi' : i < items.length := by rwa [List.length_map] at hi
    rw [List.getElem_map, h i _ (List.getElem?_eq_getElem hi')]
    simp [coordinates]

/-- Distinct variables can stand for any coordinates. -/
theorem unifiable_variables {xs : List String} (hxs : xs.Nodup) (name : String) :
    (ofList (xs.map .var)).Unifiable (ofList (coordinates name (xs.map Term.var).length)) := by
  refine unifiable_coordinates_length_iff.mpr ⟨fun x => .coordinate name (xs.idxOf x), ?_⟩
  intro i t ht
  rw [List.getElem?_map] at ht
  obtain ⟨x, hx, rfl⟩ := Option.map_eq_some_iff.mp ht
  obtain ⟨hi, rfl⟩ := List.getElem?_eq_some_iff.mp hx
  show Term.coordinate name (xs.idxOf xs[i]) = _
  rw [hxs.idxOf_getElem i hi]

/-- Lists of different lengths are never unified. -/
theorem not_unifiable_nil_coordinates (name : String) (hn : n ≠ 0) :
    ¬ nil.Unifiable (ofList (coordinates name n)) := by
  intro h
  have hnil : (ofList []).Unifiable (ofList (coordinates name n)) := h
  obtain ⟨σ, hσ⟩ := unifiable_coordinates_iff.mp hnil
  have hlength := congrArg List.length hσ
  rw [coordinates, List.length_map, List.length_map, List.length_range] at hlength
  exact hn hlength.symm

end Term

/-- The list of the coordinates of the realization at the site. -/
def vector (v : Term) (n : Nat) (s : NodeId) : Term :=
  .ofList (Term.coordinates (realizationName v s) n)

/-- The call gives at each of the sites, in order, the vector of `n` coordinates under the body of
the site, and leaves the realization there with so many. -/
structure BindsVectors (v : Term) (n : Nat) (f : Formula) (sites : List NodeId)
    (results : Results) (g : Formula) : Prop where
  answers : results = sites.map fun s => ([vector v n s, v], f.body s)
  dimensions : ∀ s ∈ sites, ∃ d, g.descriptor? (realizationName v s) = some d ∧ d.dimensions = n

/-- Of a coherent formula, a descriptor is that of the realization it is asked for. -/
theorem Formula.Coherent.descriptorWith_inv {d : Descriptor} (hf : f.Coherent)
    (h : f.descriptorWith v s n = .ok (d, g)) :
    d.coordinates = Term.coordinates (realizationName v s) (max n 1) ∧
      g.descriptor? (realizationName v s) = some d := by
  have hdim := descriptorWith_dimensions h
  obtain ⟨d', hd', hfix⟩ :=
    (Formula.descriptorWith_fixedAt h).fixed s (List.mem_singleton_self s)
  rw [Formula.verdict_of_descriptorWith h] at hd'
  cases hd'
  have hg : g.Coherent := hf.trail (Builtin.descriptorWith_chain h).trail
  obtain ⟨hname, -⟩ := Formula.newDescriptor_inv (hg.descriptor_of_name hfix).1
  rw [Descriptor.coordinates, hname, hdim]
  exact ⟨rfl, hfix⟩

/-- One site, from which the call goes on with a formula of the same bodies. -/
theorem run_asResult_vector {r : Option (List Term × Guard)} (hf : f.Coherent)
    (hrun : (Builtin.asResult v (some n) s).run f = some (.ok r, g)) :
    r = some ([vector v (max n 1) s, v], f.body s) ∧
      ∃ d, g.descriptor? (realizationName v s) = some d ∧ d.dimensions = max n 1 := by
  rw [run_asResult] at hrun
  cases hd : f.descriptorWith v s n with
  | error e =>
    rw [Option.getD_some, hd] at hrun
    cases hrun
  | ok p =>
    obtain ⟨d, f'⟩ := p
    rw [Option.getD_some, hd] at hrun
    cases hrun
    obtain ⟨hcoordinates, hfix⟩ := hf.descriptorWith_inv hd
    have hbody : g.body s = f.body s :=
      (Builtin.descriptorWith_chain hd).trail.body_eq (fun _ => Edit.ByAs.keepsSites) s
    refine ⟨?_, d, hfix, descriptorWith_dimensions hd⟩
    rw [hcoordinates, hbody]
    rfl

/-- A completed traversal gave a vector at every site. -/
theorem mapM_asResult_vector {sites : List NodeId} {rs : List (Option (List Term × Guard))}
    (hf : f.Coherent) (hrun : (sites.mapM (Builtin.asResult v (some n))).run f = some (.ok rs, g)) :
    BindsVectors v (max n 1) f sites (rs.filterMap id) g := by
  induction sites generalizing f rs with
  | nil =>
    cases hrun
    exact ⟨rfl, nofun⟩
  | cons s sites ih =>
    have hsplit : (([] ++ s :: sites).mapM (Builtin.asResult v (some n))).run f =
      some (.ok rs, g) := hrun
    obtain ⟨as, r, rest, f₁, f₂, hnil, hs, hrest, rfl⟩ := run_mapM_cases hsplit
    cases hnil
    have hstep : f.Trail (Edit.ByAs v) f₂ := Builtin.asResult_follows v _ s _ _ _ hs
    have hlater : f₂.Trail (Edit.ByAs v) g :=
      Follows.mapM (Builtin.asResult_follows v _) sites _ _ _ hrest
    obtain ⟨rfl, d, hd, hdim⟩ := run_asResult_vector hf hs
    obtain ⟨hanswers, hdimensions⟩ := ih (hf.trail hstep) hrest
    -- the later sites are answered from `f₂`, which has the bodies of `f`
    have hbody := hstep.body_eq fun _ => Edit.ByAs.keepsSites
    refine ⟨?_, List.forall_mem_cons.mpr
      ⟨⟨d, hlater.grows.descriptors _ _ hd, hdim⟩, hdimensions⟩⟩
    show _ :: rest.filterMap id = _
    rw [hanswers, List.map_cons]
    simp only [hbody]

/-- The realization at the site is fixed with so many coordinates, at least one, or it is not fixed
yet and there is a distribution for it. -/
def Formula.Accepts (f : Formula) (v : Term) (n : Nat) (s : NodeId) : Prop :=
  match f.descriptor? (realizationName v s) with
  | some d => d.dimensions = max n 1
  | none => ∃ p parts, f.probability? s = some p ∧ distributionParts p = .ok parts

theorem Formula.accepts_iff : f.Accepts v n s ↔ ∃ d, f.verdict v n s = .ok d := by
  unfold Accepts verdict descriptorWith
  dsimp only
  cases f.descriptor? (realizationName v s) with
  | some d =>
    dsimp only
    split
    · next hdim => exact iff_of_true hdim ⟨d, rfl⟩
    · next hdim => exact iff_of_false hdim nofun
  | none =>
    have hverdict : (f.fixDescriptor v s (max n 1)).map Prod.fst = f.newDescriptor v s (max n 1) := by
      unfold fixDescriptor
      cases f.newDescriptor v s (max n 1) <;> rfl
    dsimp only
    rw [hverdict]
    constructor
    · rintro ⟨p, ⟨functor, args⟩, hp, hparts⟩
      exact ⟨_, newDescriptor_eq_ok_iff.mpr ⟨p, functor, args, hp, hparts, rfl⟩⟩
    · rintro ⟨d, hd⟩
      obtain ⟨p, functor, args, hp, hparts, -⟩ := newDescriptor_eq_ok_iff.mp hd
      exact ⟨p, (functor, args), hp, hparts⟩

/-- A traversal completes if all sites accept: what it fixes at one is not asked at another. -/
theorem mapM_asResult_completes {sites : List NodeId} (hnodup : sites.Nodup)
    (haccept : ∀ s ∈ sites, f.Accepts v n s) :
    ∃ rs g, (sites.mapM (Builtin.asResult v (some n))).run f = some (.ok rs, g) := by
  induction sites generalizing f with
  | nil => exact ⟨[], f, rfl⟩
  | cons s sites ih =>
    obtain ⟨hs, hnodup⟩ := List.nodup_cons.mp hnodup
    obtain ⟨hfirst, hrest⟩ := List.forall_mem_cons.mp haccept
    obtain ⟨d, hverdict⟩ := Formula.accepts_iff.mp hfirst
    cases hd : f.descriptorWith v s n with
    | error e =>
      rw [Formula.verdict_of_error hd] at hverdict
      cases hverdict
    | ok p =>
      obtain ⟨d', f₁⟩ := p
      have hfixed := Formula.descriptorWith_fixedAt hd
      obtain ⟨rs, g, hrun⟩ := ih hnodup (f := f₁) fun t ht => by
        have hother : t ∉ [s] := fun hmem => hs (List.mem_singleton.mp hmem ▸ ht)
        rw [Formula.accepts_iff, hfixed.verdict_eq hother, ← Formula.accepts_iff]
        exact hrest t ht
      have hstep := run_asResult v (some n) s f
      rw [Option.getD_some, hd] at hstep
      rw [List.mapM_cons, run_bind_ok hstep, run_bind_ok hrun]
      exact ⟨_, _, rfl⟩

theorem run_asResults_ok_iff (scope : Scope) {items : List Term} {results : Results} :
    (Builtin.asResults scope (.ofList items) v).run f = some (.ok results, g) ↔
      ∃ sites rs, f.sites? v = some sites ∧
        (sites.mapM (Builtin.asResult v (some items.length))).run f = some (.ok rs, g) ∧
        results = rs.filterMap id := by
  unfold Builtin.asResults
  rw [run_get_bind, Term.list?_ofList]
  constructor
  · intro hrun
    cases hsites : f.sites? v with
    | none =>
      rw [hsites] at hrun
      cases hrun
    | some sites =>
      rw [hsites] at hrun
      rcases run_bind_cases hrun with ⟨_, _, he⟩ | ⟨rs, f', hrs, hend⟩
      · cases he
      cases hend
      exact ⟨sites, rs, rfl, hrs, rfl⟩
  · rintro ⟨sites, rs, hsites, hrs, rfl⟩
    rw [hsites]
    exact run_bind_ok hrs _

/-- A call with a list completes if the variable is ground and the traversal of its sites does. -/
theorem as_completed_iff {c : Context} {fuel : Nat} {items : List Term} {results : Results} :
    (BuiltinTable.standard.call (c.scope fuel) "as" [.ofList items, v]).run f =
        some (.ok (.completed results), g) ↔
      v.isGround ∧ ∃ sites rs, f.sites? v = some sites ∧
        (sites.mapM (Builtin.asResult v (some items.length))).run f = some (.ok rs, g) ∧
        results = rs.filterMap id := by
  have hfind : BuiltinTable.standard.find? "as" [.ofList items, v].length =
    some Builtin.asBuiltin := rfl
  rw [← run_asResults_ok_iff (c.scope fuel)]
  constructor
  · intro hrun
    obtain ⟨hcheck, hrule⟩ := BuiltinTable.run_of_completed hfind hrun
    rw [show Builtin.asBuiltin.mode = "*g" from rfl, check_assignment] at hcheck
    refine ⟨by_contra fun hground => ?_, hrule⟩
    rw [if_neg hground] at hcheck
    cases hcheck
  · rintro ⟨hground, hresults⟩
    have hrule : (Builtin.asBuiltin.run (c.scope fuel) [.ofList items, v]).run f =
      some (.ok results, g) := hresults
    rw [BuiltinTable.run_call hfind, show Builtin.asBuiltin.mode = "*g" from rfl, check_assignment,
      if_pos hground, hrule]
    rfl

/-- A call of `as` with a list completes exactly if every site of the ground variable accepts as
many coordinates as the list has items. It then gives at every site the vector of so many
coordinates, and fixes the realization there. What it gives and what it was called with are unified
item by item, which always succeeds for distinct variables. With the empty list it gives the vector
of one coordinate, which is not unified with that list. -/
theorem vectors_of_as (hf : Formula.LeadsTo .empty f) (v : Term) (items : List Term) (c : Context)
    (fuel : Nat) :
    ((∃ results g, (BuiltinTable.standard.call (c.scope fuel) "as" [.ofList items, v]).run f =
        some (.ok (.completed results), g)) ↔
      v.isGround ∧ ∃ sites, f.sites? v = some sites ∧ ∀ s ∈ sites, f.Accepts v items.length s) ∧
    ∀ results g, (BuiltinTable.standard.call (c.scope fuel) "as" [.ofList items, v]).run f =
        some (.ok (.completed results), g) →
      ∃ sites, f.sites? v = some sites ∧
        (items ≠ [] →
          BindsVectors v items.length f sites results g ∧
          ∀ s ∈ sites,
            ((Term.ofList items).Unifiable (vector v items.length s) ↔
              ∃ σ : String → Term, ∀ (i : Nat) (t : Term), items[i]? = some t →
                t.substitute σ = .coordinate (realizationName v s) i) ∧
            ∀ xs : List String, items = xs.map .var → xs.Nodup →
              (Term.ofList items).Unifiable (vector v items.length s)) ∧
        (items = [] →
          BindsVectors v 1 f sites results g ∧
          ∀ s ∈ sites, ¬ (Term.ofList items).Unifiable (vector v 1 s)) := by
  refine ⟨⟨?accepted, ?completes⟩, ?answers⟩
  case accepted =>
    rintro ⟨results, g, hrun⟩
    obtain ⟨hground, sites, rs, hsites, hrs, -⟩ := as_completed_iff.mp hrun
    refine ⟨hground, sites, hsites, fun s hs => Formula.accepts_iff.mpr ?_⟩
    rcases mapM_asResult_cases (Formula.nodup_sites? hsites) hrs with
      ⟨_, -, hfixed⟩ | ⟨_, _, _, _, -, -, he, -⟩
    · obtain ⟨d, hd, -⟩ := hfixed.fixed s hs
      exact ⟨d, hd⟩
    · cases he
  case completes =>
    rintro ⟨hground, sites, hsites, haccept⟩
    obtain ⟨rs, g, hrs⟩ := mapM_asResult_completes (Formula.nodup_sites? hsites) haccept
    exact ⟨_, g, as_completed_iff.mpr ⟨hground, sites, rs, hsites, hrs, rfl⟩⟩
  case answers =>
    intro results g hrun
    obtain ⟨-, sites, rs, hsites, hrs, rfl⟩ := as_completed_iff.mp hrun
    have hbinds : BindsVectors v (max items.length 1) f sites (rs.filterMap id) g :=
      mapM_asResult_vector hf.coherent hrs
    refine ⟨sites, hsites, fun hitems => ?_, fun hitems => ?_⟩
    · rw [Nat.max_eq_left (List.length_pos_iff.mpr hitems)] at hbinds
      refine ⟨hbinds, fun s _ => ⟨Term.unifiable_coordinates_length_iff, ?_⟩⟩
      rintro xs rfl hxs
      exact Term.unifiable_variables hxs _
    · subst hitems
      exact ⟨hbinds, fun s _ => Term.not_unifiable_nil_coordinates _ Nat.one_ne_zero⟩

theorem vectors_of_as_normal : ∃ results g,
    (BuiltinTable.standard.call (standardContext.scope 1) "as"
        [.ofList [.var "A", .var "B"], .atom "x"]).run Formula.normal =
      some (.ok (.completed results), g) ∧
    BindsVectors (.atom "x") 2 Formula.normal [⟨0⟩] results g ∧
    (Term.ofList [.var "A", .var "B"]).Unifiable (vector (.atom "x") 2 ⟨0⟩) := by
  obtain ⟨hcompletes, hanswers⟩ := vectors_of_as Formula.empty_leadsTo_normal (.atom "x")
    [.var "A", .var "B"] standardContext 1
  have haccepts : ∀ s ∈ [⟨0⟩], Formula.normal.Accepts (.atom "x") 2 s :=
    List.forall_mem_singleton.mpr ⟨_, _, rfl, rfl⟩
  obtain ⟨results, g, hrun⟩ := hcompletes.mpr ⟨rfl, [⟨0⟩], rfl, haccepts⟩
  obtain ⟨sites, hsites, hvector, -⟩ := hanswers results g hrun
  obtain rfl : [⟨0⟩] = sites := Option.some.inj hsites
  obtain ⟨hbinds, hunifies⟩ := hvector nofun
  exact ⟨results, g, hrun, hbinds,
    (hunifies ⟨0⟩ (List.mem_singleton_self _)).2 ["A", "B"] rfl (by decide)⟩

/-- A vector without items is realized with a coordinate all the same. -/
theorem as_of_empty_list : Formula.LeadsTo .empty Formula.normal ∧
    (∃ g, (BuiltinTable.standard.call (standardContext.scope 1) "as"
          [.ofList [], .atom "x"]).run Formula.normal =
        some (.ok (.completed [([.ofList [.coordinate "x#1" 0], .atom "x"], .always)]), g) ∧
      g.descriptor? "x#1" = some ⟨"normal", [.constant (.int 0), .constant (.int 1)], "x#1", 1⟩) ∧
    ¬ (Term.ofList []).Unifiable (.ofList [.coordinate "x#1" 0]) :=
  ⟨Formula.empty_leadsTo_normal, ⟨_, rfl, rfl⟩,
    Term.not_unifiable_nil_coordinates "x#1" Nat.one_ne_zero⟩

end Grounding
