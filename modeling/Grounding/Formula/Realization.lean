import Grounding.Error
import Grounding.Formula.Basic

/-!
# Realizations of random variables

A continuous random variable is realized at sites: atoms that say by which distribution and under
which body the variable gets a value. The realization at a site has a name, the text of the variable
and the number of the site. Its descriptor is fixed the first time it is asked for, and so is the
number of its coordinates.
-/

namespace Grounding

/-- The functor of the identifier of a site. -/
def siteFunctor : String := "~"

/-- The point mass: `delta(n)` realizes to the number `n`. -/
def pointMassFunctor : String := "delta"

/-- The guard as part of the identifier of a site. -/
def Guard.term : Guard → Term
  | .always => .atom "true"
  | .never => .atom "false"
  | .node id => .constant (.int (Int64.ofNat id.number))

/-- The identifier of a site; an absent distribution is written `none`. -/
def siteIdentifier (v : Term) (distribution : Option Term) (body : Guard) : Term :=
  .compound siteFunctor [v, distribution.getD (.atom "none"), body.term]

/-- The name of the realization of a variable at a site. -/
def realizationName (v : Term) (site : NodeId) : String :=
  v.text ++ "#" ++ toString site.number

/-- The number to which a distribution realizes with certainty: a bare number or a point mass. -/
def pointMass? : Term → Option Number
  | .constant n => some n
  | .compound functor [arg] => if functor = pointMassFunctor then arg.number? else none
  | _ => none

/-- The functor and the arguments of a distribution. -/
def distributionParts (distribution : Term) : Except Error (String × List Term) :=
  match distribution with
  | .constant n => .ok (pointMassFunctor, [.constant n])
  | other =>
    match other.functor? with
    | some functor => .ok (functor, other.args)
    | none => .error (.incorrectArgument (.notADistribution other))

namespace Formula

/-- Records that the variable is realized by the distribution whenever the body holds; without a
distribution its value is undefined there. -/
def addSite (v : Term) (distribution : Option Term) (body : Guard) (f : Formula) :
    NodeId × Formula :=
  let (site, f) := f.addAtom (siteIdentifier v distribution body) distribution .realization
  (site, { f with
    bodies := if body.isAlways then f.bodies else f.bodies.insert site body
    sites := f.sites.insert v ((f.sites.getD v ∅).insert site) })

/-- The sites of a random variable in the order of their registration. -/
def sites? (f : Formula) (v : Term) : Option (List NodeId) :=
  (f.sites[v]?).map (·.toList)

def isRandomVariable (f : Formula) (v : Term) : Bool := (f.sites? v).isSome

/-- The condition under which a site is reached. -/
def body (f : Formula) (site : NodeId) : Guard := f.bodies.getD site .always

/-- The descriptor that a realization has or would get with this number of coordinates. -/
def newDescriptor (f : Formula) (v : Term) (site : NodeId) (dimensions : Nat) :
    Except Error Descriptor :=
  match f.probability? site with
  | none => .error (.undefinedRealization v)
  | some distribution => do
    let (functor, args) ← distributionParts distribution
    return ⟨functor, args, realizationName v site, dimensions⟩

/-- Fixes a new descriptor. -/
def fixDescriptor (f : Formula) (v : Term) (site : NodeId) (dimensions : Nat) :
    Except Error (Descriptor × Formula) := do
  let descriptor ← f.newDescriptor v site dimensions
  return (descriptor, { f with
    descriptors := f.descriptors.insert descriptor.name descriptor })

def descriptor? (f : Formula) (name : String) : Option Descriptor := f.descriptors[name]?

/-- The descriptor of a realization with this number of coordinates, at least one. It is an error
to ask for another number than the one fixed before. -/
def descriptorWith (f : Formula) (v : Term) (site : NodeId) (dimensions : Nat) :
    Except Error (Descriptor × Formula) :=
  let dimensions := max dimensions 1
  let name := realizationName v site
  match f.descriptor? name with
  | some descriptor =>
    if descriptor.dimensions = dimensions then .ok (descriptor, f)
    else .error (.incorrectArgument (.pinnedDimensions name descriptor.dimensions dimensions))
  | none => f.fixDescriptor v site dimensions

/-- The descriptor of a realization, whatever its number of coordinates; a new one is a point. -/
def descriptorOf (f : Formula) (v : Term) (site : NodeId) :
    Except Error (Descriptor × Formula) :=
  match f.descriptor? (realizationName v site) with
  | some descriptor => .ok (descriptor, f)
  | none => f.fixDescriptor v site 1

/-- Records that a density is asked of a variable. -/
def addDensity (v density : Term) (f : Formula) : Formula :=
  { f with densities := f.densities.insert v ((f.densities.getD v ∅).insert density) }

/-- The densities asked of a variable, in the order of terms. -/
def densities? (f : Formula) (v : Term) : Option (List Term) :=
  (f.densities[v]?).map (·.toList)

def isFree (f : Formula) (v : Term) : Bool := v ∈ f.freeVariables

/-- Declares a variable free. -/
def addFree (v : Term) (f : Formula) : Formula :=
  { f with freeVariables := f.freeVariables.insert v }

end Formula

end Grounding
