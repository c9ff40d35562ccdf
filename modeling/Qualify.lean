import Qualify.Clause.OfConstraint
import Qualify.Cnf.Basic
import Qualify.Constraint.Digest
import Qualify.Constraint.Route
import Qualify.Constraint.Store
import Qualify.Inference.Solver
import Qualify.Lattice.Build
import Qualify.Proofs.Clause.Allocation
import Qualify.Proofs.Clause.Leaves
import Qualify.Proofs.Clause.Meaning
import Qualify.Proofs.Clause.Numbering
import Qualify.Proofs.Clause.Renumbering
import Qualify.Proofs.Clause.Sameness
import Qualify.Proofs.Clause.Satisfaction
import Qualify.Proofs.Cnf.Addressing
import Qualify.Proofs.Cnf.Decoding
import Qualify.Proofs.Cnf.Dimacs
import Qualify.Proofs.Cnf.Encoding
import Qualify.Proofs.Cnf.Explaining
import Qualify.Proofs.Cnf.Narrowing
import Qualify.Proofs.Cnf.Solving
import Qualify.Proofs.Constraint.Built
import Qualify.Proofs.Constraint.Context
import Qualify.Proofs.Constraint.Deduplication
import Qualify.Proofs.Constraint.Dependence
import Qualify.Proofs.Constraint.Meaning
import Qualify.Proofs.Constraint.Normalization
import Qualify.Proofs.Constraint.Refusal
import Qualify.Proofs.Constraint.Sameness
import Qualify.Proofs.Constraint.Store
import Qualify.Proofs.Inference.Explanation
import Qualify.Proofs.Inference.External
import Qualify.Proofs.Inference.Failure
import Qualify.Proofs.Inference.Lifecycle
import Qualify.Proofs.Inference.TimeLimit
import Qualify.Proofs.Inference.Verification
import Qualify.Proofs.Lattice.Building
import Qualify.Proofs.Lattice.Checks
import Qualify.Proofs.Lattice.Closed
import Qualify.Proofs.Lattice.Comparison
import Qualify.Proofs.Lattice.InPlace
import Qualify.Proofs.Lattice.Order
import Qualify.Proofs.Lattice.Reachability
import Qualify.Proofs.Lattice.Tables
import Qualify.Proofs.Sat.Attained
import Qualify.Proofs.Sat.Core
import Qualify.Proofs.Sat.Optimum
import Qualify.Proofs.Sat.Procedure
import Qualify.Proofs.Sat.Relaxation
import Qualify.Proofs.Sat.Search
import Qualify.Proofs.Sat.Termination
import Qualify.Proofs.Script.Commands
import Qualify.Proofs.Script.Conflict
import Qualify.Proofs.Script.Consistency
import Qualify.Proofs.Script.Decoding
import Qualify.Proofs.Script.Integers
import Qualify.Proofs.Script.Layout
import Qualify.Proofs.Script.Models
import Qualify.Proofs.Script.Naming
import Qualify.Proofs.Script.Scanning
import Qualify.Proofs.Script.Scoping
import Qualify.Proofs.Script.Sexp
import Qualify.Proofs.Slot.Adjacency
import Qualify.Proofs.Slot.Annotation
import Qualify.Proofs.Slot.Growth
import Qualify.Proofs.Slot.Interning
import Qualify.Proofs.Slot.Merging
import Qualify.Proofs.Slot.Repetition
import Qualify.Proofs.Slot.Resolution
import Qualify.Proofs.Solution.Verification
import Qualify.Proofs.Term.Folding
import Qualify.Proofs.Term.Meaning
import Qualify.Proofs.Term.Normal
import Qualify.Proofs.Term.Reading
import Qualify.Proofs.Term.Scope
import Qualify.Proofs.Term.Simplify
import Qualify.Proofs.Term.Subterms
import Qualify.Proofs.Text.Lines
import Qualify.Proofs.Text.Numeral
import Qualify.Proofs.Text.Words
import Qualify.Sat.Core
import Qualify.Sat.Optimum
import Qualify.Sat.Search
import Qualify.Script.Basic
import Qualify.Script.Reply
import Qualify.Slot.Registry
import Qualify.Solution.Verify
import Qualify.Text.Blank
import Qualify.Text.Numeral
import Qualify.Text.Utf8
import Qualify.Proofs.Clause.Room
import Qualify.Proofs.Clause.Ideal
import Qualify.Proofs.Clause.Bounds
import Qualify.Proofs.Clause.Shape
