import Mathlib.Logic.Function.Basic
import Grounding.Formula.Shared
import Grounding.Proofs.Formula.Correspondence
import Grounding.Proofs.Replay
import Grounding.Proofs.Session.Operation

/-!
# Interleavings of handles

Several handles work on one shared formula. Each goes through a program of its own: it registers
atoms and conjoins results of its earlier steps. The numbers of the nodes depend on the order in
which the handles come to the formula, and so do the lists of children. The conditions do not: any
two runs in which every handle is as far leave formulas that differ by a renumbering, and it takes
the results of the one run to those of the other.

`Issued` relates the results to the formula: each is found again by doing its step again, and beside
the nodes that were there at the start there are no others.
-/

namespace Grounding

open Formula (Corresponds SameNode)

/-- What a handle does. It conjoins results of its own steps, given by their positions. -/
inductive SharedStep where
  | atom (identifier : Term) (probability : Option Term) (source : Source)
  | conjoin (earlier : List Nat)

/-- Registers an atom and gives its node as a guard. -/
def Formula.atomGuard (t : Term) (p : Option Term) (s : Source) (f : Formula) : Guard × Formula :=
  (.node (f.addAtom t p s).1, (f.addAtom t p s).2)

/-- What the step does to the formula, after steps with these results. -/
inductive SharedStep.Does (given : List Guard) : SharedStep → (Formula → Guard × Formula) → Prop
  | atom (t : Term) (p : Option Term) (s : Source) : Does given (.atom t p s) (Formula.atomGuard t p s)
  | conjoin {earlier : List Nat} {guards : List Guard}
      (h : List.Forall₂ (fun i x => given[i]? = some x) earlier guards) :
      Does given (.conjoin earlier) (Formula.conjoinAll guards)

/-- The results after one more of a handle. -/
def addResult (given : Nat → List Guard) (handle : Nat) (x : Guard) : Nat → List Guard :=
  Function.update given handle (given handle ++ [x])

/-- A run of handles that started with one handle for a formula, with the results of each. -/
inductive SharedFormula.Runs (programs : Nat → List SharedStep) (f₀ : Formula) :
    (Nat → List Guard) → SharedFormula → Prop
  | start : Runs programs f₀ (fun _ => []) (.new f₀)
  | step {given : Nat → List Guard} {s s' : SharedFormula} (handle : Nat) {st : SharedStep}
      {op : Formula → Guard × Formula} {x : Guard} (hs : Runs programs f₀ given s)
      (hst : (programs handle)[(given handle).length]? = some st)
      (hop : st.Does (given handle) op) (haccess : s.access? handle op = some (x, s')) :
      Runs programs f₀ (addResult given handle x) s'
  | clone {given : Nat → List Guard} {s s' : SharedFormula} (handle : Nat) {new : Nat}
      (hs : Runs programs f₀ given s) (hclone : s.clone? handle = some (new, s')) :
      Runs programs f₀ given s'
  | drop {given : Nat → List Guard} {s s' : SharedFormula} (handle : Nat)
      (hs : Runs programs f₀ given s) (hdrop : s.drop? handle = some s') :
      Runs programs f₀ given s'
  | release {given : Nat → List Guard} {s s' : SharedFormula} (handle : Nat) {r : Release}
      (hs : Runs programs f₀ given s) (hrelease : s.release? handle = some (r, s')) :
      Runs programs f₀ given s'

variable {f f₀ g g' : Formula} {given given' : Nat → List Guard} {done : List Guard}
  {programs : Nat → List SharedStep} {st : SharedStep} {op : Formula → Guard × Formula} {x y : Guard}

namespace SharedStep.Does

theorem grows (hop : st.Does done op) (f : Formula) : f.Extends (op f).2 := by
  cases hop with
  | atom t p s => exact f.extends_addAtom t p s
  | conjoin => exact f.extends_conjoinAll _

theorem forall_guards {P : Guard → Prop} {earlier : List Nat} {guards : List Guard}
    (h : List.Forall₂ (fun i x => done[i]? = some x) earlier guards) (hdone : ∀ x ∈ done, P x) :
    ∀ x ∈ guards, P x :=
  GroundingM.forall_of_forall₂ h fun _ _ hx => hdone _ (List.mem_of_getElem? hx)

theorem wellFormed (hop : st.Does done op) (hf : f.WellFormed) (hdone : ∀ x ∈ done, f.Knows x) :
    (op f).2.WellFormed ∧ (op f).2.Knows (op f).1 := by
  cases hop with
  | atom t p s =>
    have hwf := Formula.wellFormed_addAtom hf t p s
    exact ⟨hwf, knows_of_findAtom? hwf (f.findAtom?_addAtom t p s)⟩
  | conjoin h => exact Formula.wellFormed_conjoinAll hf (forall_guards h hdone)

/-- Once done, the step is done again without a change. -/
theorem again (hop : st.Does done op) (hg : (op f).2.Extends g) : op g = ((op f).1, g) := by
  cases hop with
  | atom t p s =>
    have hagain : g.addAtom t p s = ((f.addAtom t p s).1, g) := Formula.addAtom_again hg
    rw [Formula.atomGuard, hagain, Formula.atomGuard]
  | conjoin => exact Formula.conjoinAll_again hg

/-- The only node that a step can add is its result. -/
theorem knows (hop : st.Does done op) {id : NodeId} (hid : (op f).2.Knows (.node id)) :
    f.Knows (.node id) ∨ (op f).1 = .node id := by
  cases hop with
  | atom t p s =>
    exact (Formula.knows_of_addAtom hid).imp_right fun hnew => congrArg Guard.node hnew.symm
  | conjoin => exact Formula.knows_conjoinAll hid

/-- The only atom that a step can add is its own. -/
theorem node? (hop : st.Does done op) {id : NodeId} {t : Term} {p : Option Term} {s : Source}
    (hn : (op f).2.node? id = some (.atom t p s)) :
    f.node? id = some (.atom t p s) ∨ st = .atom t p s := by
  cases hop with
  | atom t' p' s' =>
    rcases Formula.node?_of_addAtom hn with hold | ⟨rfl, rfl, rfl⟩
    · exact .inl hold
    · exact .inr rfl
  | conjoin => exact .inl (Formula.node?_of_conjoinAll hn)

end SharedStep.Does

/-- What the results of the handles and the formula owe to each other. -/
structure Issued (programs : Nat → List SharedStep) (f₀ : Formula) (given : Nat → List Guard)
    (g : Formula) : Prop where
  wellFormed : g.WellFormed
  grows : f₀.Extends g
  known : ∀ h, ∀ x ∈ given h, g.Knows x
  /-- Each result is that of its step, which changes nothing any more. -/
  again : ∀ h i x, (given h)[i]? = some x → ∃ (st : SharedStep) (op : Formula → Guard × Formula),
    (programs h)[i]? = some st ∧ st.Does ((given h).take i) op ∧ op g = (x, g)
  /-- Nodes that were not there at the start are results. -/
  nodes : ∀ id, g.Knows (.node id) → f₀.Knows (.node id) ∨ ∃ h, .node id ∈ given h
  /-- Atoms that were not there at the start are as a program has them. -/
  atoms : ∀ id t p s, g.node? id = some (.atom t p s) →
    f₀.node? id = some (.atom t p s) ∨ ∃ h, .atom t p s ∈ programs h

theorem mem_addResult {handle h : Nat} (hy : y ∈ given h) : y ∈ addResult given handle x h := by
  unfold addResult
  by_cases hh : h = handle
  · subst hh
    rw [Function.update_self]
    exact List.mem_append_left _ hy
  · rwa [Function.update_of_ne hh]

/-- A result of a handle is an earlier one, or the one that was added. -/
theorem getElem?_addResult {handle h i : Nat} (hy : (addResult given handle x h)[i]? = some y) :
    ((given h)[i]? = some y ∧ (addResult given handle x h).take i = (given h).take i) ∨
    (h = handle ∧ i = (given handle).length ∧ y = x ∧
      (addResult given handle x h).take i = given handle) := by
  unfold addResult at hy ⊢
  by_cases hh : h = handle
  · subst hh
    rw [Function.update_self] at hy ⊢
    by_cases hi : i < (given h).length
    · rw [List.getElem?_append_left hi] at hy
      exact .inl ⟨hy, List.take_append_of_le_length (Nat.le_of_lt hi)⟩
    · have hlength := (List.getElem?_eq_some_iff.mp hy).1
      rw [List.length_append, List.length_singleton] at hlength
      obtain rfl : i = (given h).length := by omega
      rw [List.getElem?_concat_length] at hy
      exact .inr ⟨rfl, rfl, (Option.some.inj hy).symm, List.take_left⟩
  · rw [Function.update_of_ne hh] at hy ⊢
    exact .inl ⟨hy, rfl⟩

namespace Issued

theorem start (hf : f₀.WellFormed) : Issued programs f₀ (fun _ => []) f₀ where
  wellFormed := hf
  grows := .refl f₀
  known h x hx := by cases hx
  again h i x hx := by cases hx
  nodes id hid := .inl hid
  atoms id t p s hn := .inl hn

theorem step (hg : Issued programs f₀ given g) {handle : Nat}
    (hst : (programs handle)[(given handle).length]? = some st) (hop : st.Does (given handle) op) :
    Issued programs f₀ (addResult given handle (op g).1) (op g).2 := by
  obtain ⟨hwf, hknown⟩ := hop.wellFormed hg.wellFormed (hg.known handle)
  have hgrown := hop.grows g
  refine ⟨hwf, hg.grows.trans hgrown, fun h y hy => ?_, fun h i y hy => ?_, fun id hid => ?_,
    fun id t p s hn => ?_⟩
  · obtain ⟨i, hi⟩ := List.getElem?_of_mem hy
    rcases getElem?_addResult hi with ⟨hold, -⟩ | ⟨-, -, rfl, -⟩
    · exact hgrown.knows (hg.known h y (List.mem_of_getElem? hold))
    · exact hknown
  · rcases getElem?_addResult hy with ⟨hold, htake⟩ | ⟨rfl, rfl, rfl, htake⟩ <;> rw [htake]
    · obtain ⟨st', op', hst', hop', hdone⟩ := hg.again h i y hold
      have hgrown' : (op' g).2.Extends (op g).2 := by
        rw [hdone]
        exact hgrown
      refine ⟨st', op', hst', hop', ?_⟩
      rw [hop'.again hgrown', hdone]
    · exact ⟨st, op, hst, hop, hop.again (.refl _)⟩
  · rcases hop.knows hid with hold | hnew
    · rcases hg.nodes id hold with hstart | ⟨h, hmem⟩
      · exact .inl hstart
      · exact .inr ⟨h, mem_addResult hmem⟩
    · refine .inr ⟨handle, ?_⟩
      rw [addResult, Function.update_self, hnew]
      exact List.mem_append_right _ (List.mem_singleton_self _)
  · rcases hop.node? hn with hold | rfl
    · exact hg.atoms id t p s hold
    · exact .inr ⟨handle, List.mem_of_getElem? hst⟩

end Issued

namespace SharedFormula

variable {s s' : SharedFormula} {handle : Nat}

theorem access?_eq_some_iff : s.access? handle op = some (x, s') ↔
    handle ∈ s.alive ∧ (op s.formula).1 = x ∧ s' = { s with formula := (op s.formula).2 } := by
  unfold access?
  split <;> simp_all [eq_comm]

theorem clone?_eq_some_iff {new : Nat} : s.clone? handle = some (new, s') ↔ handle ∈ s.alive ∧
    new = s.made ∧ s' = { s with alive := s.made :: s.alive, made := s.made + 1 } := by
  unfold clone?
  split <;> simp_all [eq_comm]

theorem drop?_eq_some_iff : s.drop? handle = some s' ↔
    handle ∈ s.alive ∧ s' = { s with alive := s.alive.erase handle } := by
  unfold drop?
  split <;> simp_all [eq_comm]

/-- Taking the formula out gives the formula, and no handle is left, or it changes nothing. -/
theorem release?_cases {r : Release} (h : s.release? handle = some (r, s')) :
    (r = .formula s.formula ∧ s' = { s with alive := [] }) ∨ (r = .busy ∧ s' = s) := by
  unfold release? at h
  split at h
  · split at h
    · cases h
      exact .inl ⟨rfl, rfl⟩
    · cases h
      exact .inr ⟨rfl, rfl⟩
  · cases h

theorem length_alive_eq_one_iff (hnodup : s.alive.Nodup) (hmem : handle ∈ s.alive) :
    s.alive.length = 1 ↔ ∀ other ∈ s.alive, other = handle := by
  constructor
  · intro hone other hother
    obtain ⟨a, ha⟩ := List.length_eq_one_iff.mp hone
    rw [ha, List.mem_singleton] at hmem hother
    rw [hother, hmem]
  · intro hall
    have hrepeated := List.eq_replicate_of_mem hall
    rw [hrepeated, List.nodup_replicate] at hnodup
    have hpos := List.length_pos_of_mem hmem
    omega

/-- The formula can be taken out through a handle exactly if no other one is alive. -/
theorem release?_of_mem (hnodup : s.alive.Nodup) (hmem : handle ∈ s.alive) :
    s.release? handle = if ∀ other ∈ s.alive, other = handle then
      some (.formula s.formula, { s with alive := [] }) else some (.busy, s) := by
  rw [release?, if_pos hmem]
  simp only [length_alive_eq_one_iff hnodup hmem]

namespace Runs

theorem issued (hf : f₀.WellFormed) (hs : Runs programs f₀ given s) :
    Issued programs f₀ given s.formula := by
  induction hs with
  | start => exact .start hf
  | step handle _ hst hop haccess ih =>
    obtain ⟨-, rfl, rfl⟩ := access?_eq_some_iff.mp haccess
    exact ih.step hst hop
  | clone handle _ hclone ih =>
    obtain ⟨-, -, rfl⟩ := clone?_eq_some_iff.mp hclone
    exact ih
  | drop handle _ hdrop ih =>
    obtain ⟨-, rfl⟩ := drop?_eq_some_iff.mp hdrop
    exact ih
  | release handle _ hrelease ih =>
    obtain ⟨-, rfl⟩ | ⟨-, rfl⟩ := release?_cases hrelease
    · exact ih
    · exact ih

/-- No handle is alive twice, since every new one has a number of its own. -/
theorem alive (hs : Runs programs f₀ given s) :
    s.alive.Nodup ∧ ∀ handle ∈ s.alive, handle < s.made := by
  induction hs with
  | start => exact ⟨List.nodup_singleton 0, by simp [new]⟩
  | step handle _ hst hop haccess ih =>
    obtain ⟨-, rfl, rfl⟩ := access?_eq_some_iff.mp haccess
    exact ih
  | clone handle _ hclone ih =>
    obtain ⟨-, -, rfl⟩ := clone?_eq_some_iff.mp hclone
    refine ⟨List.nodup_cons.mpr ⟨fun hmem => Nat.lt_irrefl _ (ih.2 _ hmem), ih.1⟩, ?_⟩
    intro other hother
    rcases List.mem_cons.mp hother with rfl | hother
    · exact Nat.lt_succ_self _
    · exact Nat.lt_succ_of_lt (ih.2 other hother)
  | drop handle _ hdrop ih =>
    obtain ⟨-, rfl⟩ := drop?_eq_some_iff.mp hdrop
    exact ⟨ih.1.erase handle, fun other hother => ih.2 other (List.mem_of_mem_erase hother)⟩
  | release handle _ hrelease ih =>
    obtain ⟨-, rfl⟩ | ⟨-, rfl⟩ := release?_cases hrelease
    · exact ⟨List.nodup_nil, fun _ h => by cases h⟩
    · exact ih

end Runs

end SharedFormula

/-- An atom has one probability and one source, whichever step registers it. -/
def ProgramsAgree (programs : Nat → List SharedStep) : Prop :=
  ∀ h h' t p q s r, .atom t p s ∈ programs h → .atom t q r ∈ programs h' → p = q ∧ s = r

theorem forall₂_of_common {α β γ : Type} {R : α → β → Prop} {S : α → γ → Prop} {T : β → γ → Prop}
    {as : List α} {bs : List β} {cs : List γ} (hbs : List.Forall₂ R as bs)
    (hcs : List.Forall₂ S as cs) (h : ∀ a b c, R a b → S a c → T b c) : List.Forall₂ T bs cs := by
  induction hbs generalizing cs with
  | nil =>
    cases hcs
    exact .nil
  | cons hab _ ih =>
    cases hcs with
    | cons hac hcs => exact .cons (h _ _ _ hab hac) (ih hcs)

theorem lt_of_getElem?_take {i a : Nat} (hx : (done.take i)[a]? = some x) :
    a < i ∧ done[a]? = some x := by
  rw [List.getElem?_take] at hx
  split at hx
  · next hlt => exact ⟨hlt, hx⟩
  · cases hx

namespace Issued

variable {t : Term} {p : Option Term} {source : Source} {h i : Nat} {id j : NodeId}

/-- The node of an atom that was not there at the start is as the programs have it. -/
theorem node?_of_new (hg : Issued programs f₀ given g) (hf : f₀.WellFormed)
    (hagree : ProgramsAgree programs) (hnew : f₀.findAtom? t = none)
    (hmem : .atom t p source ∈ programs h) (hid : g.findAtom? t = some id) :
    g.node? id = some (.atom t p source) := by
  obtain ⟨q, r, hn⟩ := (hg.wellFormed.findAtom_iff t id).mp hid
  rcases hg.atoms id t q r hn with hold | ⟨h', hmem'⟩
  · rw [(hf.findAtom_iff t id).mpr ⟨q, r, hold⟩] at hnew
    cases hnew
  · obtain ⟨rfl, rfl⟩ := hagree h h' t p q source r hmem hmem'
    exact hn

theorem sameNode_atom (hg : Issued programs f₀ given g) (hg' : Issued programs f₀ given' g')
    (hf : f₀.WellFormed) (hagree : ProgramsAgree programs) (hmem : .atom t p source ∈ programs h)
    (hi : g.findAtom? t = some id) (hj : g'.findAtom? t = some j) : SameNode g g' id j := by
  cases hstart : f₀.findAtom? t with
  | some id₀ =>
    have hi₀ := hg.grows.atoms t id₀ hstart
    have hj₀ := hg'.grows.atoms t id₀ hstart
    rw [hi] at hi₀
    rw [hj] at hj₀
    cases hi₀
    cases hj₀
    exact .of_known hf hg.grows hg'.grows (knows_of_findAtom? hf hstart)
  | none =>
    exact .of_content (.atom t p source (hg.node?_of_new hf hagree hstart hmem hi)
      (hg'.node?_of_new hf hagree hstart hmem hj))

theorem findAtom?_of_step (hg : Issued programs f₀ given g)
    (hst : (programs h)[i]? = some (.atom t p source)) (hx : (given h)[i]? = some x) :
    ∃ id, x = .node id ∧ g.findAtom? t = some id := by
  obtain ⟨st, op, hst', hop, hdone⟩ := hg.again h i x hx
  rw [hst] at hst'
  cases hst'
  cases hop
  obtain ⟨hnode, hkept⟩ := Prod.mk.inj hdone
  have hfound := g.findAtom?_addAtom t p source
  rw [hkept] at hfound
  exact ⟨_, hnode.symm, hfound⟩

theorem conjoinAll_of_step (hg : Issued programs f₀ given g) {earlier : List Nat}
    (hst : (programs h)[i]? = some (.conjoin earlier)) (hx : (given h)[i]? = some x) :
    ∃ guards, List.Forall₂ (fun a y => a < i ∧ (given h)[a]? = some y) earlier guards ∧
      Formula.conjoinAll guards g = (x, g) := by
  obtain ⟨st, op, hst', hop, hdone⟩ := hg.again h i x hx
  rw [hst] at hst'
  cases hst'
  cases hop with
  | @conjoin _ guards hguards =>
    exact ⟨guards, hguards.imp fun _ _ => lt_of_getElem?_take, hdone⟩

/-- The results of one step in two runs name the same condition. -/
theorem corresponds (hg : Issued programs f₀ given g) (hg' : Issued programs f₀ given' g')
    (hf : f₀.WellFormed) (hagree : ProgramsAgree programs) (hx : (given h)[i]? = some x)
    (hy : (given' h)[i]? = some y) : Corresponds g g' x y := by
  -- the operands of a conjunction are results of earlier steps
  induction i using Nat.strong_induction_on generalizing x y with
  | h i ih =>
    obtain ⟨st, -, hst, -, -⟩ := hg.again h i x hx
    cases st with
    | atom t p source =>
      obtain ⟨id, rfl, hi⟩ := hg.findAtom?_of_step hst hx
      obtain ⟨j, rfl, hj⟩ := hg'.findAtom?_of_step hst hy
      exact .node (hg.sameNode_atom hg' hf hagree (List.mem_of_getElem? hst) hi hj)
    | conjoin earlier =>
      obtain ⟨xs, hxs, hdone⟩ := hg.conjoinAll_of_step hst hx
      obtain ⟨ys, hys, hdone'⟩ := hg'.conjoinAll_of_step hst hy
      have hoperands : List.Forall₂ (Corresponds g g') xs ys :=
        forall₂_of_common hxs hys fun a u v hu hv => ih a hu.1 hu.2 hv.2
      have hsame := Formula.corresponds_conjoinAll hg.wellFormed hg'.wellFormed hoperands
      rwa [hdone, hdone'] at hsame

/-- Every node of one run has a counterpart in another one in which the handles are as far. -/
theorem exists_sameNode (hg : Issued programs f₀ given g) (hg' : Issued programs f₀ given' g')
    (hf : f₀.WellFormed) (hagree : ProgramsAgree programs)
    (hlength : ∀ h, (given h).length = (given' h).length) (hid : g.Knows (.node id)) :
    ∃ j, SameNode g g' id j := by
  rcases hg.nodes id hid with hstart | ⟨h, hmem⟩
  · exact ⟨id, .of_known hf hg.grows hg'.grows hstart⟩
  · obtain ⟨i, hi⟩ := List.getElem?_of_mem hmem
    have hlt : i < (given' h).length := hlength h ▸ (List.getElem?_eq_some_iff.mp hi).1
    have hcorresponds := hg.corresponds hg' hf hagree hi (List.getElem?_eq_getElem hlt)
    generalize (given' h)[i] = y at hcorresponds
    cases hcorresponds with
    | node hij => exact ⟨_, hij⟩

end Issued

/-- A step of `h` and a step of `h'`, given by their positions, ask for the same condition: for one
atom, or for conjunctions of the same conditions. -/
inductive SameCondition (programs : Nat → List SharedStep) (h h' : Nat) : Nat → Nat → Prop
  | atom {i j : Nat} {t : Term} {p q : Option Term} {s r : Source}
      (hi : (programs h)[i]? = some (.atom t p s)) (hj : (programs h')[j]? = some (.atom t q r)) :
      SameCondition programs h h' i j
  | conjoin {i j : Nat} {earlier earlier' : List Nat}
      (hi : (programs h)[i]? = some (.conjoin earlier))
      (hj : (programs h')[j]? = some (.conjoin earlier')) (there back : Nat → Nat)
      (hthere : ∀ a ∈ earlier, there a ∈ earlier') (hback : ∀ b ∈ earlier', back b ∈ earlier)
      (hsame : ∀ a ∈ earlier, SameCondition programs h h' a (there a))
      (hsame' : ∀ b ∈ earlier', SameCondition programs h h' (back b) b) :
      SameCondition programs h h' i j

/-- Steps that ask for the same condition have the same result. -/
theorem Issued.eq_of_sameCondition (hg : Issued programs f₀ given g) {h i h' j : Nat}
    (hsame : SameCondition programs h h' i j) (hx : (given h)[i]? = some x)
    (hy : (given h')[j]? = some y) : x = y := by
  induction hsame generalizing x y with
  | atom hi hj =>
    obtain ⟨_, rfl, hfound⟩ := hg.findAtom?_of_step hi hx
    obtain ⟨_, rfl, hfound'⟩ := hg.findAtom?_of_step hj hy
    rw [hfound] at hfound'
    exact congrArg Guard.node (Option.some.inj hfound')
  | conjoin hi hj there back hthere hback _ _ ih ih' =>
    obtain ⟨xs, hxs, hdone⟩ := hg.conjoinAll_of_step hi hx
    obtain ⟨ys, hys, hdone'⟩ := hg.conjoinAll_of_step hj hy
    have hmem (z : Guard) : z ∈ xs ↔ z ∈ ys := by
      constructor
      · intro hz
        obtain ⟨a, ha, -, hz'⟩ := Formula.exists_of_mem_forall₂ hxs.flip hz
        obtain ⟨w, hw, -, hw'⟩ := Formula.exists_of_mem_forall₂ hys (hthere a ha)
        exact ih a ha hz' hw' ▸ hw
      · intro hz
        obtain ⟨b, hb, -, hz'⟩ := Formula.exists_of_mem_forall₂ hys.flip hz
        obtain ⟨w, hw, -, hw'⟩ := Formula.exists_of_mem_forall₂ hxs (hback b hb)
        exact ih' b hb hw' hz' ▸ hw
    rw [Formula.conjoinAll_congr hmem, hdone'] at hdone
    exact (Prod.mk.inj hdone).1.symm

/-- Two runs in which every handle is as far leave formulas that differ by a renumbering, which
takes the results of each handle in the one run to those in the other. Steps that ask for the same
condition have the same result, whichever handles they are of. The formula can be taken out through
a handle exactly if no other one is alive, and the result of every step is found in it. -/
theorem interleavings_agree {s s' : SharedFormula} (hf : f₀.Reachable)
    (hagree : ProgramsAgree programs) (hs : SharedFormula.Runs programs f₀ given s)
    (hs' : SharedFormula.Runs programs f₀ given' s')
    (hlength : ∀ h, (given h).length = (given' h).length) :
    (∃ σ, Formula.Renumbering s.formula s'.formula σ ∧
      (∀ id, f₀.Knows (.node id) → σ id = id) ∧
      ∀ h, given' h = (given h).map (Guard.renumber σ)) ∧
    (∀ h h' i j x y, SameCondition programs h h' i j → (given h)[i]? = some x →
      (given h')[j]? = some y → x = y) ∧
    (∀ handle ∈ s.alive, s.release? handle = if ∀ other ∈ s.alive, other = handle then
      some (.formula s.formula, { s with alive := [] }) else some (.busy, s)) ∧
    ∀ h i x, (given h)[i]? = some x → s.formula.Knows x ∧ ∃ st op, (programs h)[i]? = some st ∧
      SharedStep.Does ((given h).take i) st op ∧ op s.formula = (x, s.formula) := by
  have hwf := hf.wellFormed
  have hg := hs.issued hwf
  have hg' := hs'.issued hwf
  refine ⟨?_, fun h h' i j x y => hg.eq_of_sameCondition,
    fun handle hmem => SharedFormula.release?_of_mem hs.alive.1 hmem, fun h i x hx =>
      ⟨hg.known h x (List.mem_of_getElem? hx), hg.again h i x hx⟩⟩
  obtain ⟨σ, hσ, hsame⟩ := Formula.exists_renumbering hg.wellFormed hg'.wellFormed
    (fun i hi => hg.exists_sameNode hg' hwf hagree hlength hi) fun j hj => by
      obtain ⟨i, hij⟩ := hg'.exists_sameNode hg hwf hagree (fun h => (hlength h).symm) hj
      exact ⟨i, hij.symm⟩
  refine ⟨σ, hσ, fun id hid => hsame id id (.of_known hwf hg.grows hg'.grows hid), fun h => ?_⟩
  refine List.ext_getElem (by rw [List.length_map, hlength]) fun i hi hi' => ?_
  rw [List.getElem_map]
  have hcorresponds := hg.corresponds hg' hwf hagree
    (List.getElem?_eq_getElem (by rwa [hlength])) (List.getElem?_eq_getElem hi)
  exact (hcorresponds.renumber_eq hsame).symm

/-- The first handle registers two atoms and conjoins them, the second one registers one of them. -/
def pairPrograms : Nat → List SharedStep
  | 0 => [.atom (.atom "a") none .fact, .atom (.atom "b") none .fact, .conjoin [0, 1]]
  | 1 => [.atom (.atom "b") none .fact]
  | _ => []

theorem pairPrograms_agree : ProgramsAgree pairPrograms := by
  have hplain (h : Nat) {t : Term} {p : Option Term} {s : Source}
      (hmem : .atom t p s ∈ pairPrograms h) : p = none ∧ s = .fact := by
    match h with
    | 0 | 1 => grind [pairPrograms]
    | _ + 2 => cases hmem
  intro h h' t p q s r hmem hmem'
  obtain ⟨rfl, rfl⟩ := hplain h hmem
  obtain ⟨rfl, rfl⟩ := hplain h' hmem'
  exact ⟨rfl, rfl⟩

/-- The second handle comes after the first one, or before it and is dropped at the end. -/
theorem interleavings_agree_pair : ∃ given given' s s' σ,
    SharedFormula.Runs pairPrograms .empty given s ∧
    SharedFormula.Runs pairPrograms .empty given' s' ∧
    given 0 = [.node ⟨0⟩, .node ⟨1⟩, .node ⟨2⟩] ∧ given' 0 = [.node ⟨1⟩, .node ⟨0⟩, .node ⟨2⟩] ∧
    Formula.Renumbering s.formula s'.formula σ ∧
    given' 0 = (given 0).map (Guard.renumber σ) ∧ given' 1 = (given 1).map (Guard.renumber σ) ∧
    s.release? 0 = some (.busy, s) ∧
    s'.release? 0 = some (.formula s'.formula, { s' with alive := [] }) := by
  have hcloned : SharedFormula.Runs pairPrograms .empty (fun _ => []) ⟨.empty, [1, 0], 2⟩ :=
    .clone 0 .start rfl
  have hfirst := SharedFormula.Runs.step 0 hcloned rfl (.atom (.atom "a") none .fact) rfl
  have hfirst := hfirst.step 0 rfl (.atom (.atom "b") none .fact) rfl
  have hfirst := hfirst.step 0 rfl (.conjoin (.cons rfl (.cons rfl .nil))) rfl
  have hfirst := hfirst.step 1 rfl (.atom (.atom "b") none .fact) rfl
  have hlast := SharedFormula.Runs.step 1 hcloned rfl (.atom (.atom "b") none .fact) rfl
  have hlast := hlast.step 0 rfl (.atom (.atom "a") none .fact) rfl
  have hlast := hlast.step 0 rfl (.atom (.atom "b") none .fact) rfl
  have hlast := hlast.step 0 rfl (.conjoin (.cons rfl (.cons rfl .nil))) rfl
  have hlast := hlast.drop 1 rfl
  obtain ⟨⟨σ, hσ, -, hresults⟩, -, hrelease, -⟩ :=
    interleavings_agree .refl pairPrograms_agree hfirst hlast fun h => by
      match h with
      | 0 | 1 | _ + 2 => rfl
  refine ⟨_, _, _, _, σ, hfirst, hlast, rfl, rfl, hσ, hresults 0, hresults 1, ?_, ?_⟩
  · rw [hrelease 0 (by decide)]
    rfl
  · rfl

end Grounding
