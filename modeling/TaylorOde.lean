import TaylorOde.Error
import TaylorOde.Scalar
import TaylorOde.Decimal.Shortest
import TaylorOde.Decimal.Layout
import TaylorOde.Hash.Sip
import TaylorOde.Expr.Op
import TaylorOde.Expr.Basic
import TaylorOde.Expr.Canonical
import TaylorOde.Expr.Display
import TaylorOde.Expr.Variable
import TaylorOde.Expr.Recipe
import TaylorOde.Expr.Identity
import TaylorOde.Expr.Rewrite
import TaylorOde.Expr.Derivative
import TaylorOde.Expr.Eval
import TaylorOde.Ode.System
import TaylorOde.Decomposition.Basic
import TaylorOde.Decomposition.Passes
import TaylorOde.Decomposition.Build
import TaylorOde.Recurrence
import TaylorOde.Ir.Basic
import TaylorOde.Ir.Text
import TaylorOde.Ir.Validate
import TaylorOde.Ir.Machine
import TaylorOde.Ir.Emit
import TaylorOde.Decimal.Reading
import TaylorOde.Binary.Exact
import TaylorOde.Archive.Binary
import TaylorOde.Archive.Hex
import TaylorOde.Archive.JsonText
import TaylorOde.Expr.Archive
import TaylorOde.Json.Reader
import TaylorOde.Json.Value
import TaylorOde.Expr.JsonArchive
import TaylorOde.Polynomial.Basic
import TaylorOde.Polynomial.Roots
import TaylorOde.Series.Poisson
import TaylorOde.Ode.Variational
import TaylorOde.Integrator.Config
import TaylorOde.Integrator.Event
import TaylorOde.Integrator.Callback
import TaylorOde.Integrator.Continuous
import TaylorOde.Integrator.Basic
import TaylorOde.Integrator.Code
import TaylorOde.Integrator.Step
import TaylorOde.Integrator.Propagate
import TaylorOde.Integrator.Archive
import TaylorOde.Proofs.Expr.Equality
import TaylorOde.Proofs.Decomposition.Table
import TaylorOde.Proofs.Decomposition.Renumbering
import TaylorOde.Proofs.Decomposition.Cse
import TaylorOde.Proofs.Decomposition.Dce
import TaylorOde.Proofs.Decomposition.Reorder
import TaylorOde.Proofs.Expr.Nodes
import TaylorOde.Proofs.Decomposition.Builder
import TaylorOde.Proofs.Expr.Preparation
import TaylorOde.Proofs.Decomposition.Pipeline
import TaylorOde.Proofs.Expr.Rebuild
import TaylorOde.Proofs.Expr.ArchiveRoundTrip
import TaylorOde.Proofs.Scalar.Exact
import TaylorOde.Proofs.Integrator.CallbackProtocol
import TaylorOde.Proofs.Decomposition.Sizes
import TaylorOde.Proofs.Integrator.Order
import TaylorOde.Proofs.Integrator.Shape
import TaylorOde.Proofs.Decomposition.Outputs
import TaylorOde.Proofs.Decomposition.Minimal
import TaylorOde.Proofs.Expr.Binary64
import TaylorOde.Proofs.Expr.Order
import TaylorOde.Proofs.Expr.Commute
import TaylorOde.Proofs.Recurrence.Constants
import TaylorOde.Proofs.Recurrence.Field
import TaylorOde.Proofs.Recurrence.Series
import TaylorOde.Proofs.Recurrence.Solution
import TaylorOde.Proofs.Expr.SumForm
import TaylorOde.Proofs.Integrator.GiveUp
import TaylorOde.Proofs.Binary.Narrowing
import TaylorOde.Proofs.Expr.NormalForm
import TaylorOde.Proofs.Expr.SplitSums
import TaylorOde.Proofs.Ode.VariationalLayout
import TaylorOde.Proofs.Expr.Substitution
import TaylorOde.Proofs.Series.TermOrder
import TaylorOde.Proofs.Decomposition.LevelOrder
import TaylorOde.Proofs.Decomposition.TimeEntry
import TaylorOde.Proofs.Ode.InitialValues
import TaylorOde.Proofs.Expr.AbsentDerivative
import TaylorOde.Proofs.Expr.Renaming
import TaylorOde.Proofs.Scalar.Order
import TaylorOde.Proofs.Integrator.DenseOutput
import TaylorOde.Proofs.Archive.Utf8
import TaylorOde.Proofs.Archive.Decoding
import TaylorOde.Proofs.Integrator.CallbackArchive
import TaylorOde.Proofs.Polynomial.Transforms
import TaylorOde.Proofs.Recurrence.Loads
import TaylorOde.Proofs.Polynomial.Isolation
import TaylorOde.Proofs.Recurrence.PairwiseSum
import TaylorOde.Proofs.Expr.AdjointSweep
import TaylorOde.Proofs.Recurrence.Comap
import TaylorOde.Proofs.Ir.Execution
import TaylorOde.Proofs.Ir.Simulation
import TaylorOde.Proofs.Ir.Updates
import TaylorOde.Proofs.Ir.Blocks
import TaylorOde.Proofs.Ir.Reference
import TaylorOde.Proofs.Ir.KernelRows
import TaylorOde.Proofs.Ir.Kernels
import TaylorOde.Proofs.Ir.Emission
import TaylorOde.Proofs.Ir.Correctness
