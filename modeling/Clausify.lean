import Clausify.Benchmark
import Clausify.Clause.Failing
import Clausify.Main
import Clausify.Proofs.Instance.Account
import Clausify.Proofs.Reduction.Failure
import Clausify.Proofs.Reduction.Limit
import Clausify.Proofs.Reduction.Optimum
import Clausify.Proofs.Reduction.Weighted
import Clausify.Reduction.Replay
import Clausify.Solver.Script
import Clausify.Proofs.Cardinality.Counting
import Clausify.Proofs.Instance.Agreement
import Clausify.Proofs.Reduction.Interruption
import Clausify.Proofs.Encoding.Separation
import Clausify.Proofs.Reduction.Allocation
import Clausify.Proofs.Clause.Declared
import Clausify.Proofs.Encoding.Own
import Clausify.Proofs.Encoding.Code
import Clausify.Proofs.Reduction.Built
import Clausify.Proofs.Reduction.Parts
import Clausify.Proofs.Clause.Layout
import Clausify.Proofs.Domain.Queries
import Clausify.Proofs.Problem.Reified
import Clausify.Proofs.Relation.Arithmetic
import Clausify.Proofs.Settings.Usable
import Clausify.Proofs.Relation.Comparison
import Clausify.Proofs.Problem.Operand
import Clausify.Proofs.Solver.Model
import Clausify.Proofs.Reduction.Session
