import Quadratize.Affine
import Quadratize.Circuit.Text
import Quadratize.Cli.Disk
import Quadratize.Compile
import Quadratize.Constraint.Text
import Quadratize.Constraint.Verify
import Quadratize.Form.Render
import Quadratize.Form.Simplify
import Quadratize.Formula.Read
import Quadratize.Main
import Quadratize.Report
import Quadratize.Scalar.Literal
import Quadratize.Witness
import Quadratize.Proofs.Circuit.Calls
import Quadratize.Proofs.Circuit.ConstantInput
import Quadratize.Proofs.Circuit.Depth
import Quadratize.Proofs.Circuit.Evaluability
import Quadratize.Proofs.Circuit.LiveGates
import Quadratize.Proofs.Circuit.Relayout
import Quadratize.Proofs.Circuit.Truncation
import Quadratize.Proofs.Cli.Convert
import Quadratize.Proofs.Compile.Completeness
import Quadratize.Proofs.Compile.Cycles
import Quadratize.Proofs.Compile.Meaning
import Quadratize.Proofs.Compile.Names
import Quadratize.Proofs.Compile.Soundness
import Quadratize.Proofs.Compile.Text
import Quadratize.Proofs.Compile.Validity
import Quadratize.Proofs.Constraint.Text
import Quadratize.Proofs.Constraint.Verdict
import Quadratize.Proofs.Form.Canonical
import Quadratize.Proofs.Form.Laws
import Quadratize.Proofs.Form.RoundTrip
import Quadratize.Proofs.Formula.Meaning
import Quadratize.Proofs.Scalar.RoundTrip
import Quadratize.Proofs.Scalar.Stored
import Quadratize.Proofs.Solutions.Padding
import Quadratize.Proofs.Solutions.Synthesis
import Quadratize.Proofs.Solutions.ZeroGates
import Quadratize.Proofs.Sparse.Canonical
import Quadratize.Proofs.Witness
