import Std.Data.ExtTreeMap
import Grounding.Formula.Guard
import Grounding.Term.Order

/-!
# The guarded formula

A formula is the acyclic graph of conditions that is built while a query is grounded. Its nodes are
atoms and conjunctions, registered by content: an atom by its identifier, a conjunction by the
ascending list of its children. Registering the same content again gives the node that is there, so
equal conditions share one node. Nodes are only ever added.

Beside the nodes a formula keeps what is known of the continuous random variables; the operations on
that part are in `Formula.Realization`.
-/

namespace Grounding

/-- Where an atom comes from. -/
inductive Source where
  /-- A probabilistic fact. -/
  | fact
  /-- A realization site of a random variable. -/
  | realization
  /-- A symbolic comparison or an observation. -/
  | condition
  /-- A comparison of numbers that was kept. -/
  | builtin
deriving DecidableEq

/-- A condition of the formula. -/
inductive Node where
  /-- Its probability or distribution is absent for a deterministic atom. -/
  | atom (identifier : Term) (probability : Option Term) (source : Source)
  | conjunction (children : List NodeId)
deriving DecidableEq

/-- The probability or distribution of an atom. -/
def Node.probability? : Node → Option Term
  | .atom _ probability _ => probability
  | .conjunction _ => none

/-- The role in which a term is attached to a guard. -/
inductive Label where
  | query
  | evidence
deriving DecidableEq

/-- What is known of one realization: the distribution, its name and the number of coordinates. -/
structure Descriptor where
  functor : String
  args : List Term
  name : String
  dimensions : Nat
deriving DecidableEq

namespace Descriptor

/-- The descriptor as a term. -/
def term (d : Descriptor) : Term := .realized d.functor d.args d.name d.dimensions

/-- The coordinates of the realized value. -/
def coordinates (d : Descriptor) : List Term := Term.coordinates d.name d.dimensions

end Descriptor

/-- The conditions registered so far, and what is known of the random variables. -/
structure Formula where
  nodes : Array Node := #[]
  /-- The node of each atom, by its identifier. -/
  atoms : Std.ExtTreeMap Term NodeId := ∅
  /-- The node of each conjunction, by its children. -/
  conjunctions : Std.ExtTreeMap (List NodeId) NodeId := ∅
  queries : List (Term × Guard) := []
  evidence : List (Term × Guard) := []
  /-- The realization sites of each random variable. -/
  sites : Std.ExtTreeMap Term (Std.ExtTreeSet NodeId) := ∅
  /-- The bodies of the sites, where they do not always hold. -/
  bodies : Std.ExtTreeMap NodeId Guard := ∅
  /-- The descriptors fixed so far, by the name of the realization. -/
  descriptors : Std.ExtTreeMap String Descriptor := ∅
  /-- The densities asked of each random variable. -/
  densities : Std.ExtTreeMap Term (Std.ExtTreeSet Term) := ∅
  freeVariables : Std.ExtTreeSet Term := ∅
deriving DecidableEq

namespace Formula

def empty : Formula := {}

/-- The number of nodes. -/
def size (f : Formula) : Nat := f.nodes.size

def node? (f : Formula) (id : NodeId) : Option Node := f.nodes[id.index]?

/-- The probability or distribution of a node. -/
def probability? (f : Formula) (id : NodeId) : Option Term := (f.node? id).bind Node.probability?

/-- The nodes in the order of their registration. -/
def ids (f : Formula) : List NodeId := (List.range f.size).map NodeId.mk

/-- The node that the next registration gets. -/
def nextId (f : Formula) : NodeId := ⟨f.size⟩

def findAtom? (f : Formula) (identifier : Term) : Option NodeId := f.atoms[identifier]?

/-- The node of the atom with this identifier, registered if it is new. An atom that is there
keeps its probability and source. -/
def addAtom (identifier : Term) (probability : Option Term) (source : Source) (f : Formula) :
    NodeId × Formula :=
  match f.findAtom? identifier with
  | some id => (id, f)
  | none =>
    (f.nextId, { f with
      nodes := f.nodes.push (.atom identifier probability source)
      atoms := f.atoms.insert identifier f.nextId })

/-- The nodes among guards that do not always hold, ascending and without repetition. -/
def childrenOf (guards : List Guard) : List NodeId :=
  (Std.ExtTreeSet.ofList (guards.filterMap Guard.node?)).toList

/-- The guard that holds whenever all the nodes hold; two nodes or more get a conjunction. -/
def conjunctionOf : List NodeId → Formula → Guard × Formula
  | [], f => (.always, f)
  | [child], f => (.node child, f)
  | children, f =>
    match f.conjunctions[children]? with
    | some id => (.node id, f)
    | none =>
      (.node f.nextId, { f with
        nodes := f.nodes.push (.conjunction children)
        conjunctions := f.conjunctions.insert children f.nextId })

/-- The guard that holds whenever all the guards hold. -/
def conjoinAll (guards : List Guard) (f : Formula) : Guard × Formula :=
  if guards.any Guard.isNever then (.never, f) else conjunctionOf (childrenOf guards) f

/-- The guard that holds whenever both guards hold. -/
def conjoin (g h : Guard) : Formula → Guard × Formula := conjoinAll [g, h]

/-- The terms attached under a label, in the order of their registration. -/
def names (f : Formula) : Label → List (Term × Guard)
  | .query => f.queries
  | .evidence => f.evidence

/-- Adds an entry at the end, unless it is there. -/
def addEntry (entry : Term × Guard) (entries : List (Term × Guard)) : List (Term × Guard) :=
  if entry ∈ entries then entries else entries ++ [entry]

/-- Attaches a term to a guard; doing so again changes nothing. -/
def addName (term : Term) (guard : Guard) (f : Formula) : Label → Formula
  | .query => { f with queries := addEntry (term, guard) f.queries }
  | .evidence => { f with evidence := addEntry (term, guard) f.evidence }

end Formula

end Grounding
