import Mathlib.Algebra.Group.Nat.Defs
import Grounding.Proofs.Formula.Site
import Grounding.Proofs.Session.Effect

/-!
# Realization sites over a whole run

Realizations never share a name, in whatever order operations are done. And sites are registered by
content: a call that registers a site gets the node of the first call with the same identifier, that
is, with the same variable, distribution and body. The identifier writes an absent distribution as
the atom `none`, so it does not tell it from that atom given as a distribution.

`Registers` is a run that keeps a record of the sites it was asked for. Only the two facts about
identifiers are used of it: what is registered under one stays, and no other operation makes one.
-/

namespace Grounding

open Formula (Trail)

variable {f g : Formula} {v u : Term} {s t : NodeId}

theorem Formula.LeadsTo.coherent (hf : Formula.LeadsTo .empty f) : f.Coherent :=
  Formula.Coherent.empty.trail hf.trail

/-- No node is a site of two variables, and the realizations at different sites differ in name,
density constant and coordinates; the descriptor kept under a name is that of the one realization
which has the name. -/
theorem realizations_distinct (hf : Formula.LeadsTo .empty f) :
    (∀ v u s, f.IsSite v s → f.IsSite u s → v = u) ∧
    ∀ v u s t, f.IsSite v s → f.IsSite u t →
      (realizationName v s = realizationName u t → v = u ∧ s = t) ∧
      (Term.density (realizationName v s) = .density (realizationName u t) → v = u ∧ s = t) ∧
      (∀ m n x, x ∈ Term.coordinates (realizationName v s) m →
        x ∈ Term.coordinates (realizationName u t) n → v = u ∧ s = t) ∧
      (∀ d, f.descriptor? (realizationName v s) = some d →
        f.newDescriptor v s d.dimensions = .ok d ∧
          (f.descriptor? (realizationName u t) = some d → v = u ∧ s = t)) := by
  have hcoherent := hf.coherent
  refine ⟨fun v u s => hcoherent.variable_unique, fun v u s t hs ht => ?_⟩
  have hname : realizationName v s = realizationName u t → v = u ∧ s = t :=
    hcoherent.name_inj hs ht
  refine ⟨hname, fun hdensity => hname (Term.density.inj hdensity), ?_, ?_⟩
  · intro m n x hx hx'
    obtain ⟨i, -, rfl⟩ := List.mem_map.mp hx
    obtain ⟨j, -, hj⟩ := List.mem_map.mp hx'
    exact hname (Term.coordinate.inj hj).1.symm
  · intro d hd
    have hnew := (hcoherent.descriptor_of_name hd).1
    refine ⟨hnew, fun hd' => hname ?_⟩
    have hnew' := (hcoherent.descriptor_of_name hd').1
    rw [← (Formula.newDescriptor_inv hnew).1, ← (Formula.newDescriptor_inv hnew').1]

/-- An atom and a variable of one text, both realized. -/
def Formula.twins : Formula :=
  let normal := Term.compound "normal" [.constant (.int 0), .constant (.int 1)]
  let (_, f) := empty.addSite (.atom "x") (some normal) .always
  (f.addSite (.var "x") (some normal) .always).2

theorem Formula.empty_leadsTo_twins : Formula.LeadsTo .empty twins :=
  .step (.site (.var "x") _ .always) (.step (.site (.atom "x") _ .always) .refl rfl) rfl

theorem realizations_distinct_twins : (Term.atom "x").text = (Term.var "x").text ∧
    Formula.twins.IsSite (.atom "x") ⟨0⟩ ∧ Formula.twins.IsSite (.var "x") ⟨1⟩ ∧
    realizationName (.atom "x") ⟨0⟩ ≠ realizationName (.var "x") ⟨1⟩ := by
  have hatom : Formula.twins.IsSite (.atom "x") ⟨0⟩ := ⟨[⟨0⟩], rfl, List.mem_singleton_self _⟩
  have hvar : Formula.twins.IsSite (.var "x") ⟨1⟩ := ⟨[⟨1⟩], rfl, List.mem_singleton_self _⟩
  refine ⟨by decide, hatom, hvar, fun hname => ?_⟩
  obtain ⟨-, hdistinct⟩ := realizations_distinct Formula.empty_leadsTo_twins
  have hsame := (hdistinct _ _ _ _ hatom hvar).1 hname
  exact absurd hsame.2 (by decide)

/-- Numbers of nodes that fit a word of 32 bits, as those that are passed in do. -/
def Guard.IsWord : Guard → Prop
  | .always | .never => True
  | .node id => id.number < 2 ^ 32

theorem Guard.term_inj {x y : Guard} (hx : x.IsWord) (hy : y.IsWord) (h : x.term = y.term) :
    x = y := by
  have hread {id : NodeId} (hid : id.number < 2 ^ 32) :
      (Int64.ofNat id.number).toInt = id.number := Int64.toInt_ofNat_of_lt (by omega)
  match x, y with
  | .always, .always | .never, .never => rfl
  | .always, .never | .never, .always => simp [Guard.term] at h
  | .always, .node _ | .never, .node _ | .node _, .always | .node _, .never => cases h
  | .node a, .node b =>
    simp only [Guard.term, Term.constant.injEq, Number.int.injEq] at h
    have hnumber : (a.number : Int) = b.number := by
      rw [← hread hx, ← hread hy, h]
    exact congrArg Guard.node (NodeId.number_inj.mp (Int.ofNat.inj hnumber))

def writtenDistribution (distribution : Option Term) : Term := distribution.getD (.atom "none")

/-- Apart from the atom `none` given as a distribution, what is written is what was given. -/
theorem writtenDistribution_inj {p q : Option Term} (hp : p ≠ some (.atom "none"))
    (hq : q ≠ some (.atom "none")) : writtenDistribution p = writtenDistribution q ↔ p = q := by
  constructor
  · intro h
    cases p with
    | none =>
      cases q with
      | none => rfl
      | some d => exact absurd (congrArg some h.symm) hq
    | some c =>
      cases q with
      | none => exact absurd (congrArg some h) hp
      | some d => exact congrArg some h
  · exact congrArg writtenDistribution

theorem siteIdentifier_inj {p q : Option Term} {x y : Guard} (hx : x.IsWord) (hy : y.IsWord) :
    siteIdentifier v p x = siteIdentifier u q y ↔
      v = u ∧ writtenDistribution p = writtenDistribution q ∧ x = y := by
  constructor
  · intro h
    simp only [siteIdentifier, Term.compound.injEq, List.cons.injEq, and_true, true_and] at h
    exact ⟨h.1, h.2.1, Guard.term_inj hx hy h.2.2⟩
  · rintro ⟨rfl, hpq, rfl⟩
    rw [siteIdentifier, siteIdentifier]
    exact congrArg (fun d => Term.compound siteFunctor [v, d, x.term]) hpq

/-- An operation that is neither the registration of a site nor that of an atom that could be taken
for one. -/
def Operation.SparesSites : Operation → Prop
  | .site .. => False
  | .atom t _ _ => ¬ t.IsSiteIdentifier
  | _ => True

theorem Operation.SparesSites.makes {op : Operation} (hop : op.SparesSites) {e : Edit}
    (he : op.Makes e) : e.SparesSites := by
  cases op with
  | site => exact hop.elim
  | atom t p source =>
    cases he
    exact hop
  | _ => exact he

/-- One registration of a site: what was asked for, and the node that was given. -/
structure SiteCall where
  v : Term
  distribution : Option Term
  body : Guard
  site : NodeId

def SiteCall.identifier (c : SiteCall) : Term := siteIdentifier c.v c.distribution c.body

/-- The distribution as it stands in the identifier. -/
def SiteCall.written (c : SiteCall) : Term := writtenDistribution c.distribution

def SiteCall.on (f : Formula) (v : Term) (distribution : Option Term) (body : Guard) : SiteCall :=
  ⟨v, distribution, body, (f.addSite v distribution body).1⟩

/-- A run from the empty formula, with the sites that were asked for in order. -/
inductive Formula.Registers : List SiteCall → Formula → Prop
  | start : Registers [] .empty
  | site {calls : List SiteCall} {f : Formula} (v : Term) (p : Option Term) (body : Guard)
      (hbody : body.IsWord) (hf : Registers calls f) :
      Registers (calls ++ [.on f v p body]) (f.addSite v p body).2
  | other {calls : List SiteCall} {f g : Formula} (op : Operation) {r : Except Error Outcome}
      (hop : op.SparesSites) (hf : Registers calls f) (hrun : op.run.run f = some (r, g)) :
      Registers calls g

/-- The first of the calls that were given this node. -/
def firstAt (calls : List SiteCall) (s : NodeId) : Option SiteCall :=
  calls.find? fun c => c.site = s

/-- What the formula owes to the record. -/
structure Sited (calls : List SiteCall) (f : Formula) : Prop where
  indexed : f.Indexed
  words : ∀ c ∈ calls, c.body.IsWord
  /-- Every call was given the node of its identifier. -/
  found : ∀ c ∈ calls, f.findAtom? c.identifier = some c.site
  /-- An atom with the identifier of a site comes from the first call that was given it. -/
  first : ∀ s t p source, f.node? s = some (.atom t p source) → t.IsSiteIdentifier →
    ∃ c, firstAt calls s = some c ∧ c.identifier = t ∧ c.distribution = p
  body : ∀ s, f.body s = ((firstAt calls s).map (·.body)).getD .always
  isSite : ∀ v s, f.IsSite v s ↔ ∃ c ∈ calls, c.v = v ∧ c.site = s

namespace Sited

variable {calls : List SiteCall}

theorem start : Sited [] .empty where
  indexed := Formula.empty_wellFormed.findAtom_iff
  words := by simp
  found := by simp
  first s t p source hn := by simp [Formula.node?, Formula.empty] at hn
  body s := rfl
  isSite v s := by simp [Formula.isSite_iff, Formula.empty]

/-- An edit that spares the sites adds no atom that could be taken for one. -/
theorem node?_of_apply {e : Edit} (he : e.SparesSites) {t : Term} (ht : t.IsSiteIdentifier)
    {p : Option Term} {source : Source} (hn : (e.apply f).node? s = some (.atom t p source)) :
    f.node? s = some (.atom t p source) := by
  cases e with
  | atom t' p' source' =>
    rcases Formula.node?_of_addAtom hn with hn | ⟨rfl, -, -⟩
    · exact hn
    · exact absurd ht he
  | conjunction guards => exact Formula.node?_of_conjoinAll hn
  | site => exact he.elim
  | name t' x l => cases l <;> exact hn
  | descriptor | density | free => exact hn

theorem node?_of_trail (hfg : f.Trail Edit.SparesSites g) {t : Term} (ht : t.IsSiteIdentifier)
    {p : Option Term} {source : Source} (hn : g.node? s = some (.atom t p source)) :
    f.node? s = some (.atom t p source) := by
  induction hfg with
  | refl => exact hn
  | step _ hp _ ih => exact ih (node?_of_apply hp ht hn)

theorem trail (hf : Sited calls f) (hfg : f.Trail Edit.SparesSites g) : Sited calls g := by
  obtain ⟨hsites, hbodies⟩ := hfg.sites_eq fun _ => Edit.SparesSites.keepsSites
  exact {
    indexed := hfg.indexed hf.indexed
    words := hf.words
    found := fun c hc => hfg.grows.atoms _ _ (hf.found c hc)
    first := fun s t p source hn ht => hf.first s t p source (node?_of_trail hfg ht hn) ht
    body := fun s => by
      rw [Formula.body, hbodies]
      exact hf.body s
    isSite := fun v s => (Formula.isSite_congr hsites).trans (hf.isSite v s) }

theorem isSiteIdentifier (c : SiteCall) : c.identifier.IsSiteIdentifier := ⟨_, _, _, rfl⟩

/-- Two calls were given one node exactly if they have one identifier. -/
theorem site_eq_iff (hf : Sited calls f) {a b : SiteCall} (ha : a ∈ calls) (hb : b ∈ calls) :
    a.site = b.site ↔ a.identifier = b.identifier := by
  have hfa := hf.found a ha
  have hfb := hf.found b hb
  constructor
  · intro hsite
    obtain ⟨p, source, hn⟩ := (hf.indexed a.identifier a.site).mp hfa
    obtain ⟨q, source', hn'⟩ := (hf.indexed b.identifier b.site).mp hfb
    rw [hsite, hn'] at hn
    exact (Node.atom.inj (Option.some.inj hn)).1.symm
  · intro hidentifier
    rw [hidentifier, hfb] at hfa
    exact (Option.some.inj hfa).symm

theorem firstAt_append (calls : List SiteCall) (c : SiteCall) (s : NodeId) :
    firstAt (calls ++ [c]) s = (firstAt calls s).or (if c.site = s then some c else none) := by
  rw [firstAt, List.find?_append, firstAt]
  by_cases hs : c.site = s <;> simp [hs]

/-- A registration is given the node that the first call with its identifier was given. Either
that was an earlier call, or the node is new. -/
theorem firstAt_addSite (hf : Sited calls f) (v : Term) (p : Option Term) {body : Guard}
    (hbody : body.IsWord) : ∃ c₀ source,
      firstAt (calls ++ [.on f v p body]) (f.addSite v p body).1 = some c₀ ∧
      c₀.identifier = siteIdentifier v p body ∧ c₀.body = body ∧
      (f.addSite v p body).2.node? (f.addSite v p body).1 =
        some (.atom (siteIdentifier v p body) c₀.distribution source) ∧
      (f.body (f.addSite v p body).1 = body ∨ f.body (f.addSite v p body).1 = .always) := by
  have hsite : (f.addSite v p body).1 = (f.addAtom (siteIdentifier v p body) p .realization).1 := rfl
  have hnode (s : NodeId) : (f.addSite v p body).2.node? s =
      (f.addAtom (siteIdentifier v p body) p .realization).2.node? s := rfl
  rw [firstAt_append, hnode, hsite]
  cases hfound : f.findAtom? (siteIdentifier v p body) with
  | some id =>
    -- an earlier call was given the node, and its identifier tells its body
    rw [Formula.addAtom_of_found hfound]
    obtain ⟨q, source, hn⟩ := (hf.indexed _ id).mp hfound
    obtain ⟨c₀, hfirst, hidentifier, rfl⟩ := hf.first id _ q source hn ⟨_, _, _, rfl⟩
    have hmem : c₀ ∈ calls := List.mem_of_find?_eq_some hfirst
    have hsame := (siteIdentifier_inj (hf.words c₀ hmem) hbody).mp hidentifier
    refine ⟨c₀, source, by rw [hfirst, Option.some_or], hidentifier, hsame.2.2, hn, .inl ?_⟩
    rw [hf.body, hfirst]
    exact hsame.2.2
  | none =>
    -- the nodes of earlier calls are there, so none of them is the next one
    rw [Formula.addAtom_of_new hfound]
    have hfirst : firstAt calls f.nextId = none := by
      refine List.find?_eq_none.mpr fun c hc => ?_
      obtain ⟨q, source, hn⟩ := (hf.indexed _ c.site).mp (hf.found c hc)
      intro hnext
      rw [of_decide_eq_true hnext, Formula.node?_nextId] at hn
      cases hn
    have hnext : (SiteCall.on f v p body).site = f.nextId := by
      show (f.addAtom (siteIdentifier v p body) p .realization).1 = f.nextId
      rw [Formula.addAtom_of_new hfound]
    refine ⟨.on f v p body, .realization, ?_, rfl, rfl, ?_, .inr ?_⟩
    · rw [hfirst, Option.none_or, if_pos hnext]
    · rw [Formula.node?_withAtom, if_pos rfl]
      rfl
    · rw [hf.body, hfirst]
      rfl

theorem addSite (hf : Sited calls f) (v : Term) (p : Option Term) {body : Guard}
    (hbody : body.IsWord) : Sited (calls ++ [.on f v p body]) (f.addSite v p body).2 := by
  obtain ⟨c₀, source, hfirst, hidentifier, hsame, hn, hold⟩ := hf.firstAt_addSite v p hbody
  have hgrows := f.extends_addSite v p body
  have hother {s : NodeId} (hs : (SiteCall.on f v p body).site ≠ s) :
      firstAt (calls ++ [.on f v p body]) s = firstAt calls s := by
    rw [firstAt_append, if_neg hs, Option.or_none]
  refine ⟨hf.indexed.apply (.site v p body), ?_, ?_, ?_, ?_, ?_⟩
  · exact List.forall_mem_append.mpr ⟨hf.words, List.forall_mem_singleton.mpr hbody⟩
  · refine List.forall_mem_append.mpr ⟨fun c hc => hgrows.atoms _ _ (hf.found c hc), ?_⟩
    exact List.forall_mem_singleton.mpr (f.findAtom?_addAtom _ p .realization)
  · intro s t q source' hs ht
    by_cases hsite : (f.addSite v p body).1 = s
    · subst hsite
      rw [hn] at hs
      cases hs
      exact ⟨c₀, hfirst, hidentifier, rfl⟩
    · rw [hother hsite]
      rw [Formula.node?_addSite_of_ne hsite] at hs
      exact hf.first s t q source' hs ht
  · intro s
    rw [Formula.body_addSite hold]
    by_cases hsite : (f.addSite v p body).1 = s
    · subst hsite
      rw [if_pos rfl, hfirst]
      exact hsame.symm
    · rw [if_neg hsite, hother hsite]
      exact hf.body s
  · intro u s
    rw [Formula.isSite_addSite, hf.isSite]
    constructor
    · rintro (⟨rfl, rfl⟩ | ⟨c, hc, hv, hs⟩)
      · exact ⟨.on f u p body, List.mem_append_right calls (List.mem_singleton_self _), rfl, rfl⟩
      · exact ⟨c, List.mem_append_left _ hc, hv, hs⟩
    · rintro ⟨c, hc, rfl, rfl⟩
      rcases List.mem_append.mp hc with hc | hc
      · exact .inr ⟨c, hc, rfl, rfl⟩
      · rw [List.mem_singleton.mp hc]
        exact .inl ⟨rfl, rfl⟩

end Sited

theorem Formula.Registers.sited {calls : List SiteCall} (hf : Registers calls f) :
    Sited calls f := by
  induction hf with
  | start => exact .start
  | site v p body hbody _ ih => exact ih.addSite v p hbody
  | other op hop _ hrun ih =>
    exact ih.trail ((op.run_follows _ _ _ hrun).mono fun e he => hop.makes he)

variable {calls : List SiteCall}

/-- In a run that makes sites by registration only, calls are given one node exactly if they agree
in the variable, the written distribution and the body. The node keeps the body that was given and
the distribution that was given first, and the sites of a variable are the nodes given for it. Where
the atom `none` is never given as a distribution, the written distribution is the given one. -/
theorem sites_of_registers (hf : Formula.Registers calls f) :
    (∀ a ∈ calls, ∀ b ∈ calls, a.site = b.site ↔
      a.v = b.v ∧ a.written = b.written ∧ a.body = b.body) ∧
    (∀ a ∈ calls, f.body a.site = a.body ∧ ∃ first, firstAt calls a.site = some first ∧
      f.probability? a.site = first.distribution ∧ first.written = a.written) ∧
    (∀ v s, f.IsSite v s ↔ ∃ a ∈ calls, a.v = v ∧ a.site = s) ∧
    ((∀ a ∈ calls, a.distribution ≠ some (.atom "none")) →
      (∀ a ∈ calls, ∀ b ∈ calls, a.site = b.site ↔
        a.v = b.v ∧ a.distribution = b.distribution ∧ a.body = b.body) ∧
      ∀ a ∈ calls, f.probability? a.site = a.distribution) := by
  have hsited := hf.sited
  have hsame (a : SiteCall) (ha : a ∈ calls) (b : SiteCall) (hb : b ∈ calls) : a.site = b.site ↔
      a.v = b.v ∧ a.written = b.written ∧ a.body = b.body :=
    (hsited.site_eq_iff ha hb).trans (siteIdentifier_inj (hsited.words a ha) (hsited.words b hb))
  have hkept (a : SiteCall) (ha : a ∈ calls) : f.body a.site = a.body ∧
      ∃ first ∈ calls, firstAt calls a.site = some first ∧
        f.probability? a.site = first.distribution ∧ first.written = a.written := by
    obtain ⟨p, source, hn⟩ := (hsited.indexed _ a.site).mp (hsited.found a ha)
    obtain ⟨first, hfirst, hidentifier, rfl⟩ :=
      hsited.first a.site _ p source hn (Sited.isSiteIdentifier a)
    have hmem : first ∈ calls := List.mem_of_find?_eq_some hfirst
    have hagree := (siteIdentifier_inj (hsited.words first hmem) (hsited.words a ha)).mp hidentifier
    refine ⟨?_, first, hmem, hfirst, ?_, hagree.2.1⟩
    · rw [hsited.body, hfirst]
      exact hagree.2.2
    · rw [Formula.probability?, hn]
      rfl
  refine ⟨hsame, ?_, hsited.isSite, fun hnone => ⟨fun a ha b hb => ?_, fun a ha => ?_⟩⟩
  · intro a ha
    obtain ⟨hbody, first, -, hfirst⟩ := hkept a ha
    exact ⟨hbody, first, hfirst⟩
  · rw [hsame a ha b hb, SiteCall.written, SiteCall.written,
      writtenDistribution_inj (hnone a ha) (hnone b hb)]
  · obtain ⟨-, first, hmem, -, hprobability, hwritten⟩ := hkept a ha
    rw [hprobability, (writtenDistribution_inj (hnone first hmem) (hnone a ha)).mp hwritten]

namespace Formula

/-- A variable with a site without distribution. -/
def unrealized : Formula := (empty.addSite (.atom "x") none .always).2

/-- The calls that give a variable no distribution, and then the atom `none` as one. -/
def noneCalls : List SiteCall :=
  [.on empty (.atom "x") none .always, .on unrealized (.atom "x") (some (.atom "none")) .always]

theorem registers_noneCalls :
    Registers noneCalls (unrealized.addSite (.atom "x") (some (.atom "none")) .always).2 :=
  .site _ _ .always trivial (.site _ _ .always trivial .start)

end Formula

/-- The second call is given the node of the first, whose distribution is absent. -/
theorem sites_of_noneCalls : ∃ f, Formula.Registers Formula.noneCalls f ∧
    Formula.noneCalls.map (·.distribution) = [none, some (.atom "none")] ∧
    Formula.noneCalls.map (·.site) = [⟨0⟩, ⟨0⟩] ∧ f.IsSite (.atom "x") ⟨0⟩ ∧
    f.probability? ⟨0⟩ = none := by
  obtain ⟨hsame, -, hsites, -⟩ := sites_of_registers Formula.registers_noneCalls
  have hsecond := (hsame _ List.mem_cons_self _ (.tail _ List.mem_cons_self)).mpr ⟨rfl, rfl, rfl⟩
  have hsite := (hsites (.atom "x") ⟨0⟩).mpr ⟨_, List.mem_cons_self, rfl, rfl⟩
  refine ⟨_, Formula.registers_noneCalls, rfl, ?_, hsite, rfl⟩
  exact congrArg (fun s => [⟨0⟩, s]) hsecond.symm

/-- So the distribution given to a site can get lost, and a node does not determine it. -/
theorem distribution_lost : ¬ ∀ calls f, Formula.Registers calls f →
    (∀ a ∈ calls, ∀ b ∈ calls, a.site = b.site ↔
      a.v = b.v ∧ a.distribution = b.distribution ∧ a.body = b.body) ∧
    ∀ a ∈ calls, f.probability? a.site = a.distribution := by
  intro h
  obtain ⟨-, hkept⟩ := h _ _ Formula.registers_noneCalls
  have hlost := hkept _ (.tail _ List.mem_cons_self)
  cases hlost

end Grounding
