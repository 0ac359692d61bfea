import Grounding.Session
import Grounding.Settings.Document
import Grounding.Exchange.Conversion
import Grounding.Formula.Shared
import Grounding.Proofs.Computation
import Grounding.Proofs.Formula.Growth
import Grounding.Proofs.Formula.Edit
import Grounding.Proofs.Evaluation.World
import Grounding.Proofs.Evaluation.Effect
import Grounding.Proofs.Evaluation.Meaning
import Grounding.Proofs.Builtin.Comparison
import Grounding.Proofs.Builtin.Effect
import Grounding.Proofs.Session.Operation
import Grounding.Proofs.Session.Comparison
import Grounding.Proofs.Parallel
import Grounding.Proofs.Replay
import Grounding.Proofs.Session.Replay
import Grounding.Proofs.Session.Effect
import Grounding.Proofs.Formula.Site
import Grounding.Proofs.Session.Site
import Grounding.Proofs.Session.Dimension
import Grounding.Proofs.Session.Assignment
import Grounding.Proofs.Evaluation.Parallel
import Grounding.Proofs.Session.Observation
import Grounding.Proofs.Session.Rejection
import Grounding.Proofs.Formula.Truth
import Grounding.Proofs.Session.Keep
import Grounding.Proofs.Formula.Correspondence
import Grounding.Proofs.Session.Commute
import Grounding.Proofs.Session.Containment
import Grounding.Proofs.Session.Density
import Grounding.Proofs.Session.Nesting
import Grounding.Proofs.Session.Interleaving
import Grounding.Proofs.Builtin.Registration
import Grounding.Proofs.Session.Frame
import Grounding.Proofs.Evaluation.Termination
import Grounding.Proofs.Evaluation.Fuel
import Grounding.Proofs.Evaluation.Stack
import Grounding.Proofs.Session.Termination
import Grounding.Proofs.Arithmetic.Integer
import Grounding.Proofs.Arithmetic.Division
import Grounding.Proofs.Arithmetic.Power
import Grounding.Proofs.Session.Order
import Grounding.Proofs.Session.Conjunction
import Grounding.Proofs.Exchange.Conversion
import Grounding.Proofs.Term.Text
import Grounding.Proofs.Number.Value
import Grounding.Proofs.Session.NumericComparison
import Grounding.Proofs.Session.Mode
import Grounding.Proofs.Session.Vector
import Grounding.Proofs.Evaluation.Product
import Grounding.Proofs.Builtin.Sink
import Grounding.Proofs.Session.Checked
import Grounding.Proofs.Session.Finish
import Grounding.Proofs.Session.Delivery
import Grounding.Proofs.Invariant
import Grounding.Proofs.Term.Dependency
import Grounding.Proofs.Evaluation.Dependency
import Grounding.Proofs.Evaluation.Reading
import Grounding.Proofs.Session.Dependency
import Grounding.Proofs.Evaluation.Safety
import Grounding.Proofs.Arithmetic.Fault
import Grounding.Proofs.Session.Safety
import Grounding.Proofs.Settings.Document
