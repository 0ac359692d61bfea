import Grounding.Formula.Realization

/-!
# The registry of nodes

A formula finds its nodes by content through two indexes. `WellFormed` says what the indexes owe to
the nodes, that a conjunction comes after its children, and that every guard kept with the formula
is a constant or names a node. Registering an atom, a conjunction or a site keeps all of it: each
registration either finds its node or adds one, and in no other way do nodes change.
-/

namespace Grounding.Formula

/-- The guard is a constant or names a node of the formula. -/
def Knows (f : Formula) : Guard → Prop
  | .always | .never => True
  | .node id => id.index < f.size

instance (f : Formula) : (g : Guard) → Decidable (f.Knows g)
  | .always | .never => isTrue trivial
  | .node id => inferInstanceAs (Decidable (id.index < f.size))

/-- What the indexes and the guards kept with a formula owe to its nodes. -/
structure WellFormed (f : Formula) : Prop where
  /-- The first index finds every atom by its identifier, and nothing else. -/
  findAtom_iff : ∀ t id, f.findAtom? t = some id ↔ ∃ p s, f.node? id = some (.atom t p s)
  /-- The second index finds every conjunction by its children, and nothing else. -/
  conjunction_iff : ∀ cs id, f.conjunctions[cs]? = some id ↔ f.node? id = some (.conjunction cs)
  /-- Children come in ascending order and before their conjunction. -/
  children : ∀ id cs, f.node? id = some (.conjunction cs) →
    2 ≤ cs.length ∧ cs.Pairwise (·.index < ·.index) ∧ ∀ c ∈ cs, c.index < id.index
  sites : ∀ v, ∀ id ∈ f.sites.getD v ∅, f.Knows (.node id)
  bodies : ∀ (id : NodeId) g, f.bodies[id]? = some g → f.Knows g
  names : ∀ l entry, entry ∈ f.names l → f.Knows entry.2

theorem node?_eq_none_of_size_le {f : Formula} {id : NodeId} (h : f.size ≤ id.index) :
    f.node? id = none := Array.getElem?_eq_none h

theorem index_lt_of_node? {f : Formula} {id : NodeId} {n : Node} (h : f.node? id = some n) :
    id.index < f.size := (Array.getElem?_eq_some_iff.mp h).1

theorem isSome_node?_iff {f : Formula} {id : NodeId} : (f.node? id).isSome ↔ id.index < f.size :=
  by simp [node?, size]

theorem nextId_eq_iff {f : Formula} {id : NodeId} : id = f.nextId ↔ id.index = f.size := by
  cases id
  simp [nextId]

theorem node?_of_push {f g : Formula} {n : Node} (h : g.nodes = f.nodes.push n) (id : NodeId) :
    g.node? id = if id = f.nextId then some n else f.node? id := by
  simp only [node?, h, Array.getElem?_push, nextId_eq_iff, size]

theorem size_of_push {f g : Formula} {n : Node} (h : g.nodes = f.nodes.push n) :
    g.size = f.size + 1 := by
  rw [size, h, Array.size_push, size]

theorem knows_of_push {f g : Formula} {n : Node} (h : g.nodes = f.nodes.push n) {id : NodeId}
    (hid : g.Knows (.node id)) : f.Knows (.node id) ∨ id = f.nextId := by
  change id.index < g.size at hid
  rw [size_of_push h] at hid
  rw [nextId_eq_iff]
  exact Nat.lt_or_eq_of_le (Nat.le_of_lt_succ hid)

/-- Nodes are only added, so a known guard stays known. -/
theorem Knows.of_size_le {f g : Formula} {x : Guard} (h : f.Knows x) (hle : f.size ≤ g.size) :
    g.Knows x := by
  cases x with
  | always | never => trivial
  | node id => exact Nat.lt_of_lt_of_le h hle

/-- The members of the set under a key are those of its list, if there is one. -/
theorem mem_getD_iff {κ α : Type} [Ord κ] [Std.TransOrd κ] [Ord α] [Std.TransOrd α]
    [Std.LawfulEqOrd α] {m : Std.ExtTreeMap κ (Std.ExtTreeSet α)} {k : κ} {a : α} :
    a ∈ m.getD k ∅ ↔ ∃ as, m[k]?.map Std.ExtTreeSet.toList = some as ∧ a ∈ as := by
  rw [Std.ExtTreeMap.getD_eq_getD_getElem?]
  cases m[k]? with
  | none => simp
  | some set => simp [Std.ExtTreeSet.mem_toList]

theorem mem_sites_of_sites? {f : Formula} {v : Term} {ids : List NodeId}
    (h : f.sites? v = some ids) {id : NodeId} (hid : id ∈ ids) : id ∈ f.sites.getD v ∅ :=
  mem_getD_iff.mpr ⟨ids, h, hid⟩

theorem knows_body {f : Formula} (h : f.WellFormed) (site : NodeId) : f.Knows (f.body site) := by
  rw [body, Std.ExtTreeMap.getD_eq_getD_getElem?]
  cases hb : f.bodies[site]? with
  | none => trivial
  | some g => exact h.bodies site g hb

theorem empty_wellFormed : empty.WellFormed := by
  constructor
  · simp [findAtom?, node?, empty]
  · simp [node?, empty]
  · simp [node?, empty]
  · simp [empty]
  · simp [empty]
  · intro l
    cases l <;> simp [names, empty]

theorem mem_childrenOf {guards : List Guard} {id : NodeId} :
    id ∈ childrenOf guards ↔ .node id ∈ guards := by
  have hnode (g : Guard) : g.node? = some id ↔ g = .node id := by
    cases g <;> simp [Guard.node?]
  simp [childrenOf, Std.ExtTreeSet.mem_toList, Std.ExtTreeSet.mem_ofList, hnode]

theorem pairwise_childrenOf (guards : List Guard) :
    (childrenOf guards).Pairwise (·.index < ·.index) := by
  refine (Std.ExtTreeSet.ordered_toList).imp ?_
  intro a b h
  rwa [NodeId.compare_eq, Std.compare_eq_lt] at h

variable {f g : Formula}

/-- The formula with one atom more. -/
def withAtom (f : Formula) (t : Term) (p : Option Term) (s : Source) : Formula :=
  { f with nodes := f.nodes.push (.atom t p s), atoms := f.atoms.insert t f.nextId }

/-- The formula with one conjunction more. -/
def withConjunction (f : Formula) (cs : List NodeId) : Formula :=
  { f with
    nodes := f.nodes.push (.conjunction cs)
    conjunctions := f.conjunctions.insert cs f.nextId }

theorem addAtom_of_found {t : Term} {id : NodeId} (h : f.findAtom? t = some id) (p : Option Term)
    (s : Source) : f.addAtom t p s = (id, f) := by
  simp only [addAtom, h]

theorem addAtom_of_new {t : Term} (h : f.findAtom? t = none) (p : Option Term) (s : Source) :
    f.addAtom t p s = (f.nextId, f.withAtom t p s) := by
  simp only [addAtom, h, withAtom]

/-- The ways in which a conjunction of guards is found or registered. -/
inductive Conjoins (guards : List Guard) (f : Formula) : Guard → Formula → Prop
  | never (h : .never ∈ guards) : Conjoins guards f .never f
  | always (h : .never ∉ guards) (hc : childrenOf guards = []) : Conjoins guards f .always f
  | single (h : .never ∉ guards) (c : NodeId) (hc : childrenOf guards = [c]) :
      Conjoins guards f (.node c) f
  | found (h : .never ∉ guards) (hc : 2 ≤ (childrenOf guards).length) (id : NodeId)
      (hid : f.conjunctions[childrenOf guards]? = some id) : Conjoins guards f (.node id) f
  | new (h : .never ∉ guards) (hc : 2 ≤ (childrenOf guards).length)
      (hid : f.conjunctions[childrenOf guards]? = none) :
      Conjoins guards f (.node f.nextId) (f.withConjunction (childrenOf guards))

theorem conjoinAll_conjoins (guards : List Guard) (f : Formula) :
    Conjoins guards f (conjoinAll guards f).1 (conjoinAll guards f).2 := by
  have hany : guards.any Guard.isNever = true ↔ .never ∈ guards := by
    rw [List.any_eq_true]
    constructor
    · rintro ⟨g, hg, hn⟩
      cases g <;> simp_all [Guard.isNever]
    · exact fun h => ⟨.never, h, rfl⟩
  unfold conjoinAll
  split
  · next h => exact .never (hany.mp h)
  · next h =>
    have hn : .never ∉ guards := fun hm => h (hany.mpr hm)
    unfold conjunctionOf
    split
    · next hc => exact .always hn hc
    · next c hc => exact .single hn c hc
    · next cs hnil hone =>
      have hlen : 2 ≤ (childrenOf guards).length := by
        match hcs : childrenOf guards with
        | [] => exact absurd hcs hnil
        | [c] => exact absurd hcs (hone c)
        | _ :: _ :: _ => simp
      split
      · next id hid => exact .found hn hlen id hid
      · next hid => exact .new hn hlen hid

/-- Registering an atom changes nothing or adds the atom. -/
theorem addAtom_cases (f : Formula) (t : Term) (p : Option Term) (s : Source) :
    (f.addAtom t p s).2 = f ∨
      f.findAtom? t = none ∧ (f.addAtom t p s).2 = f.withAtom t p s := by
  cases hf : f.findAtom? t with
  | some id => exact .inl (by rw [addAtom_of_found hf])
  | none => exact .inr ⟨rfl, by rw [addAtom_of_new hf]⟩

/-- Conjoining guards changes nothing or adds the conjunction. -/
theorem conjoinAll_cases (f : Formula) (guards : List Guard) :
    (conjoinAll guards f).2 = f ∨ f.conjunctions[childrenOf guards]? = none ∧
      (conjoinAll guards f).2 = f.withConjunction (childrenOf guards) := by
  have hcases := conjoinAll_conjoins guards f
  generalize conjoinAll guards f = r at hcases ⊢
  obtain ⟨x, g⟩ := r
  cases hcases with
  | never | always | single | found => exact .inl rfl
  | new _ _ hid => exact .inr ⟨hid, rfl⟩

/-- What a formula keeps beside its nodes. -/
def withoutNodes (f : Formula) : Formula :=
  { f with nodes := #[], atoms := ∅, conjunctions := ∅ }

theorem withoutNodes_addAtom (f : Formula) (t : Term) (p : Option Term) (source : Source) :
    (f.addAtom t p source).2.withoutNodes = f.withoutNodes := by
  rcases f.addAtom_cases t p source with h | ⟨-, h⟩ <;> rw [h]
  rfl

theorem withoutNodes_conjoinAll (guards : List Guard) (f : Formula) :
    (conjoinAll guards f).2.withoutNodes = f.withoutNodes := by
  rcases f.conjoinAll_cases guards with h | ⟨-, h⟩ <;> rw [h]
  rfl

/-- The first index finds every atom by its identifier, and nothing else. -/
def Indexed (f : Formula) : Prop :=
  ∀ t id, f.findAtom? t = some id ↔ ∃ p s, f.node? id = some (.atom t p s)

/-- A grown formula that keeps sites, bodies and names still knows the guards kept with it. -/
theorem WellFormed.of_grown (h : f.WellFormed) (hsize : f.size ≤ g.size)
    (hsites : g.sites = f.sites) (hbodies : g.bodies = f.bodies) (hnames : g.names = f.names)
    (hatom : ∀ t id, g.findAtom? t = some id ↔ ∃ p s, g.node? id = some (.atom t p s))
    (hconjunction : ∀ cs id, g.conjunctions[cs]? = some id ↔ g.node? id = some (.conjunction cs))
    (hchildren : ∀ id cs, g.node? id = some (.conjunction cs) →
      2 ≤ cs.length ∧ cs.Pairwise (·.index < ·.index) ∧ ∀ c ∈ cs, c.index < id.index) :
    g.WellFormed where
  findAtom_iff := hatom
  conjunction_iff := hconjunction
  children := hchildren
  sites v id hid := by
    rw [hsites] at hid
    exact (h.sites v id hid).of_size_le hsize
  bodies id x hx := by
    rw [hbodies] at hx
    exact (h.bodies id x hx).of_size_le hsize
  names l entry hentry := by
    rw [hnames] at hentry
    exact (h.names l entry hentry).of_size_le hsize

theorem names_withAtom (f : Formula) (t : Term) (p : Option Term) (s : Source) :
    (f.withAtom t p s).names = f.names := by
  funext l
  cases l <;> rfl

theorem names_withConjunction (f : Formula) (cs : List NodeId) :
    (f.withConjunction cs).names = f.names := by
  funext l
  cases l <;> rfl

theorem node?_withAtom (f : Formula) (t : Term) (p : Option Term) (s : Source) (id : NodeId) :
    (f.withAtom t p s).node? id = if id = f.nextId then some (.atom t p s) else f.node? id :=
  node?_of_push rfl id

theorem node?_withConjunction (f : Formula) (cs : List NodeId) (id : NodeId) :
    (f.withConjunction cs).node? id = if id = f.nextId then some (.conjunction cs) else f.node? id :=
  node?_of_push rfl id

/-- Registering an atom adds no other. -/
theorem node?_of_addAtom {t t' : Term} {p p' : Option Term} {s s' : Source} {id : NodeId}
    (hn : (f.addAtom t p s).2.node? id = some (.atom t' p' s')) :
    f.node? id = some (.atom t' p' s') ∨ t' = t ∧ p' = p ∧ s' = s := by
  rcases f.addAtom_cases t p s with h | ⟨-, h⟩ <;> rw [h] at hn
  · exact .inl hn
  · rw [node?_withAtom] at hn
    split at hn
    · cases hn
      exact .inr ⟨rfl, rfl, rfl⟩
    · exact .inl hn

/-- The only node that registering an atom can add is the one that it gives. -/
theorem knows_of_addAtom {t : Term} {p : Option Term} {s : Source} {id : NodeId}
    (hid : (f.addAtom t p s).2.Knows (.node id)) :
    f.Knows (.node id) ∨ id = (f.addAtom t p s).1 := by
  cases hfound : f.findAtom? t with
  | some found =>
    rw [addAtom_of_found hfound] at hid
    exact .inl hid
  | none =>
    rw [addAtom_of_new hfound] at hid ⊢
    exact knows_of_push (f := f) rfl hid

/-- Conjoining guards adds no atom. -/
theorem node?_of_conjoinAll {guards : List Guard} {t : Term} {p : Option Term} {s : Source}
    {id : NodeId} (hn : (conjoinAll guards f).2.node? id = some (.atom t p s)) :
    f.node? id = some (.atom t p s) := by
  rcases f.conjoinAll_cases guards with h | ⟨-, h⟩ <;> rw [h] at hn
  · exact hn
  · rw [node?_withConjunction] at hn
    split at hn
    · cases hn
    · exact hn

theorem findAtom?_withAtom (f : Formula) (t t' : Term) (p : Option Term) (s : Source) :
    (f.withAtom t p s).findAtom? t' = if t = t' then some f.nextId else f.findAtom? t' := by
  simp only [findAtom?, withAtom, Std.ExtTreeMap.getElem?_insert, Std.LawfulEqCmp.compare_eq_iff_eq]

theorem conjunctions_withConjunction (f : Formula) (cs cs' : List NodeId) :
    (f.withConjunction cs).conjunctions[cs']? =
      if cs = cs' then some f.nextId else f.conjunctions[cs']? := by
  simp only [withConjunction, Std.ExtTreeMap.getElem?_insert, Std.LawfulEqCmp.compare_eq_iff_eq]

theorem node?_nextId (f : Formula) : f.node? f.nextId = none :=
  node?_eq_none_of_size_le (Nat.le_refl _)

theorem Indexed.withAtom (h : f.Indexed) {t : Term} (hnew : f.findAtom? t = none)
    (p : Option Term) (s : Source) : (f.withAtom t p s).Indexed := by
  intro t' id
  rw [findAtom?_withAtom, node?_withAtom]
  by_cases ht : t = t'
  · subst ht
    by_cases hid : id = f.nextId
    · simp [hid]
    · have := h t id
      rw [hnew] at this
      simp only [if_neg hid, ← this]
      simpa using fun he => hid he.symm
  · rw [if_neg ht, h]
    by_cases hid : id = f.nextId
    · subst hid
      simp [node?_nextId, ht]
    · rw [if_neg hid]

theorem Indexed.withConjunction (h : f.Indexed) (cs : List NodeId) :
    (f.withConjunction cs).Indexed := by
  intro t id
  rw [node?_withConjunction, show (f.withConjunction cs).findAtom? t = f.findAtom? t from rfl, h]
  by_cases hid : id = f.nextId
  · subst hid
    simp [node?_nextId]
  · rw [if_neg hid]

theorem WellFormed.withAtom (h : f.WellFormed) {t : Term} (hnew : f.findAtom? t = none)
    (p : Option Term) (s : Source) : (f.withAtom t p s).WellFormed := by
  have hsize : f.size ≤ (f.withAtom t p s).size := by
    rw [size_of_push (g := f.withAtom t p s) rfl]
    exact Nat.le_succ _
  refine h.of_grown hsize rfl rfl (names_withAtom f t p s)
    (Indexed.withAtom h.findAtom_iff hnew p s) ?_ ?_
  · intro cs id
    rw [node?_withAtom, show (f.withAtom t p s).conjunctions = f.conjunctions from rfl,
      h.conjunction_iff]
    by_cases hid : id = f.nextId
    · subst hid
      simp [node?_nextId]
    · rw [if_neg hid]
  · intro id cs hcs
    rw [node?_withAtom] at hcs
    split at hcs
    · cases hcs
    · exact h.children id cs hcs

theorem WellFormed.withConjunction (h : f.WellFormed) {cs : List NodeId}
    (hnew : f.conjunctions[cs]? = none) (hlen : 2 ≤ cs.length)
    (hasc : cs.Pairwise (·.index < ·.index)) (hold : ∀ c ∈ cs, f.Knows (.node c)) :
    (f.withConjunction cs).WellFormed := by
  have hsize : f.size ≤ (f.withConjunction cs).size := by
    rw [size_of_push (g := f.withConjunction cs) rfl]
    exact Nat.le_succ _
  refine h.of_grown hsize rfl rfl (names_withConjunction f cs)
    (Indexed.withConjunction h.findAtom_iff cs) ?_ ?_
  · intro cs' id
    rw [conjunctions_withConjunction, node?_withConjunction]
    by_cases hcs : cs = cs'
    · subst hcs
      by_cases hid : id = f.nextId
      · simp [hid]
      · have := h.conjunction_iff cs id
        rw [hnew] at this
        simp only [if_neg hid, ← this]
        simpa using fun he => hid he.symm
    · rw [if_neg hcs, h.conjunction_iff]
      by_cases hid : id = f.nextId
      · subst hid
        simp [node?_nextId, hcs]
      · rw [if_neg hid]
  · intro id cs' hcs
    rw [node?_withConjunction] at hcs
    split at hcs
    · next hid =>
      cases hcs
      subst hid
      exact ⟨hlen, hasc, hold⟩
    · exact h.children id cs' hcs

theorem wellFormed_addAtom (h : f.WellFormed) (t : Term) (p : Option Term) (s : Source) :
    (f.addAtom t p s).2.WellFormed := by
  cases hf : f.findAtom? t with
  | some id =>
    rw [addAtom_of_found hf]
    exact h
  | none =>
    rw [addAtom_of_new hf]
    exact h.withAtom hf p s

/-- Conjoining known guards keeps the formula well-formed, and the conjunction is known. -/
theorem wellFormed_conjoinAll (h : f.WellFormed) {guards : List Guard}
    (hk : ∀ x ∈ guards, f.Knows x) :
    (conjoinAll guards f).2.WellFormed ∧ (conjoinAll guards f).2.Knows (conjoinAll guards f).1 := by
  have hchild {c : NodeId} (hc : c ∈ childrenOf guards) : f.Knows (.node c) :=
    hk _ (mem_childrenOf.mp hc)
  have hcases := conjoinAll_conjoins guards f
  generalize conjoinAll guards f = r at hcases ⊢
  obtain ⟨x, g⟩ := r
  cases hcases with
  | never => exact ⟨h, trivial⟩
  | always => exact ⟨h, trivial⟩
  | single _ c hc => exact ⟨h, hchild (by rw [hc]; exact List.mem_singleton_self c)⟩
  | found _ _ id hid => exact ⟨h, index_lt_of_node? ((h.conjunction_iff _ id).mp hid)⟩
  | new _ hlen hid =>
    refine ⟨h.withConjunction hid hlen (pairwise_childrenOf guards) fun c hc => hchild hc, ?_⟩
    show f.size < (f.withConjunction _).size
    rw [size_of_push (g := f.withConjunction _) rfl]
    exact Nat.lt_succ_self _

end Grounding.Formula
