import QuantumOps.Numeric.Float
import QuantumOps.Gate.SingleMatrix
import QuantumOps.Gate.TwoMatrix
import QuantumOps.Gate.Parts
import QuantumOps.Operation.Involvement
import QuantumOps.Operation.Remap
import QuantumOps.Operation.Substitute
import QuantumOps.Operation.Requirement
import QuantumOps.Operation.Property
import QuantumOps.Operation.Equality
import QuantumOps.Operation.Validity
import QuantumOps.Operation.View
import QuantumOps.Operation.Product
import QuantumOps.Kak
import QuantumOps.Proofs.Kak.Reconstruction
import QuantumOps.Proofs.Scalar.Built
import QuantumOps.Proofs.Exact.Whole
import QuantumOps.Proofs.Agreement
import QuantumOps.Proofs.Gate.Parameters
import QuantumOps.Proofs.Gate.Substitution
import QuantumOps.Proofs.Kak.Substitution
import QuantumOps.Proofs.Operation.Substitution
import QuantumOps.Proofs.Channel.Lindblad
import QuantumOps.Proofs.Dict
import QuantumOps.Proofs.Qubit.Involved
import QuantumOps.Proofs.Operation.Nesting
import QuantumOps.Proofs.Operation.Remapping
import QuantumOps.Proofs.Operation.Refusal
import QuantumOps.Proofs.Operation.Involvement
import QuantumOps.Proofs.Operation.Independence
import QuantumOps.Proofs.Gate.Product
import QuantumOps.Proofs.Channel.Relaxation
import QuantumOps.Proofs.Operation.Construction
import QuantumOps.Proofs.Gate.Unitarity
import QuantumOps.Proofs.Operation.Control
import QuantumOps.Proofs.Operation.Dictionaries
import QuantumOps.Proofs.Gate.Form
import QuantumOps.Proofs.Gate.Power
import QuantumOps.Proofs.Channel.Kraus
import QuantumOps.Proofs.Gate.Exponential
import QuantumOps.Proofs.Gate.Families
import QuantumOps.Proofs.Expression.Lexemes
import QuantumOps.Proofs.Expression.Munch
import QuantumOps.Proofs.Expression.Progress
import QuantumOps.Proofs.Expression.Tiling
import QuantumOps.Proofs.Expression.Simulation
import QuantumOps.Proofs.Expression.Failing
import QuantumOps.Proofs.Expression.Location
import QuantumOps.Proofs.Expression.Respacing
import QuantumOps.Proofs.Operation.Requirement
import QuantumOps.Proofs.Operation.Occurrence
import QuantumOps.Proofs.Expression.Mention
import QuantumOps.Proofs.Operation.Mention
import QuantumOps.Proofs.Decimal.Rounding
import QuantumOps.Proofs.Decimal.Reading
import QuantumOps.Proofs.Decimal.Writing
import QuantumOps.Proofs.Numeric.Bits
import QuantumOps.Proofs.Numeric.Format
import QuantumOps.Proofs.Operation.Union
import QuantumOps.Proofs.Numeric.Equality
import QuantumOps.Proofs.Operation.Numbers
import QuantumOps.Proofs.Expression.Bytes
import QuantumOps.Proofs.Expression.Calls
import QuantumOps.Proofs.Expression.Running
import QuantumOps.Proofs.Operation.Congruence
import QuantumOps.Proofs.Operation.Identification
import QuantumOps.Proofs.Numeric.Laws
