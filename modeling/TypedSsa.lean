import TypedSsa.CallGraph
import TypedSsa.CallGraph.Encoding
import TypedSsa.Config.Basic
import TypedSsa.Config.Document
import TypedSsa.Context
import TypedSsa.Digraph.Breadth
import TypedSsa.Digraph.Components
import TypedSsa.Digraph.Search
import TypedSsa.Fault.Basic
import TypedSsa.Fault.Diagnosis
import TypedSsa.Fault.Encoding
import TypedSsa.Fault.Reason
import TypedSsa.Flow.Block
import TypedSsa.Flow.Check
import TypedSsa.Flow.Dominance
import TypedSsa.Flow.Effects
import TypedSsa.Flow.Encoding
import TypedSsa.Flow.Graph
import TypedSsa.Flow.Liveness
import TypedSsa.Flow.Lowering
import TypedSsa.Ident
import TypedSsa.Json.Basic
import TypedSsa.Json.Decoding
import TypedSsa.Json.Number
import TypedSsa.Json.Patch
import TypedSsa.Json.Printer
import TypedSsa.Json.Reader
import TypedSsa.Keyed
import TypedSsa.Program.Encoding
import TypedSsa.Program.Report
import TypedSsa.Program.Table
import TypedSsa.Program.TypedFunction
import TypedSsa.Program.Unit
import TypedSsa.Program.Validator
import TypedSsa.Proofs.Accounting
import TypedSsa.Proofs.Links
import TypedSsa.Proofs.Search
import TypedSsa.Proofs.Settling
import TypedSsa.Proofs.Walks
import TypedSsa.Report.Diagnostic
import TypedSsa.Signature
import TypedSsa.Ssa.Binding
import TypedSsa.Ssa.Construction
import TypedSsa.Ssa.Encoding
import TypedSsa.Ssa.Form
import TypedSsa.Ssa.Printer
import TypedSsa.Ssa.Promotion
import TypedSsa.Ssa.Verify
import TypedSsa.Text.Binary64.Basic
import TypedSsa.Text.Binary64.Rounding
import TypedSsa.Text.Binary64.Shortest
import TypedSsa.Text.Blank
import TypedSsa.Toml.Basic
import TypedSsa.Toml.Reader
import TypedSsa.Toml.Scalar
import TypedSsa.Tree.Arena
import TypedSsa.Tree.Build
import TypedSsa.Tree.Encoding
import TypedSsa.Tree.Equality
import TypedSsa.Tree.FieldType
import TypedSsa.Tree.Kinds
import TypedSsa.Tree.Schema
import TypedSsa.Tree.Table
import TypedSsa.Tree.Traversal
import TypedSsa.Tree.Value
import TypedSsa.Tree.View
import TypedSsa.Tree.View.Encoding
import TypedSsa.Ty.Basic
import TypedSsa.Ty.Lattice
import TypedSsa.Typing.Condensation
import TypedSsa.Typing.Encoding
import TypedSsa.Typing.Graph
import TypedSsa.Typing.Local
import TypedSsa.Typing.Program
import TypedSsa.Typing.Resolution
import TypedSsa.Typing.Rules
import TypedSsa.Proofs.Dominance
import TypedSsa.Proofs.Growth
import TypedSsa.Proofs.Lowering
import TypedSsa.Proofs.Refinement
import TypedSsa.Proofs.Routes
import TypedSsa.Proofs.Finishing
import TypedSsa.Proofs.Uniform
import TypedSsa.Proofs.Alternating
import TypedSsa.Proofs.Promoting
import TypedSsa.Proofs.Wiring
import TypedSsa.Proofs.Assembly
import TypedSsa.Proofs.WellTyped
import TypedSsa.Proofs.Classifying
import TypedSsa.Proofs.Founding
import TypedSsa.Proofs.Readiness
import TypedSsa.Proofs.Restoring
import TypedSsa.Proofs.Importing
import TypedSsa.Proofs.Passing
import TypedSsa.Proofs.Poisoning
import TypedSsa.Proofs.Requiring
import TypedSsa.Proofs.Building
import TypedSsa.Proofs.Evaluating
import TypedSsa.Proofs.Reaching
import TypedSsa.Proofs.Accepting
import TypedSsa.Proofs.Completing
import TypedSsa.Proofs.Coming
import TypedSsa.Proofs.Preparing
import TypedSsa.Proofs.Tracking
import TypedSsa.Proofs.Leaving
import TypedSsa.Proofs.Minding
import TypedSsa.Proofs.Refusing
import TypedSsa.Proofs.Editing
import TypedSsa.Proofs.Shadowing
import TypedSsa.Proofs.Mirroring
import TypedSsa.Proofs.Scheduling
import TypedSsa.Proofs.Sessions
import TypedSsa.Proofs.Parts
import TypedSsa.Proofs.Confining
import TypedSsa.Proofs.Enclosing
import TypedSsa.Proofs.Joining
import TypedSsa.Proofs.Grouping
import TypedSsa.Proofs.Concerning
import TypedSsa.Proofs.Isolating
import TypedSsa.Proofs.Revising
import TypedSsa.Proofs.Caching
import TypedSsa.Proofs.Descending
import TypedSsa.Proofs.Describing
import TypedSsa.Proofs.Admitting
import TypedSsa.Proofs.Supplying
import TypedSsa.Proofs.Bordering
import TypedSsa.Proofs.Permuting
import TypedSsa.Proofs.Repeating
import TypedSsa.Proofs.Levelling
import TypedSsa.Proofs.Regular
import TypedSsa.Proofs.Pruning
import TypedSsa.Proofs.Placing
import TypedSsa.Proofs.Slotting
import TypedSsa.Proofs.Sequencing
import TypedSsa.Proofs.Traversing
import TypedSsa.Proofs.Collecting
import TypedSsa.Proofs.Calling
import TypedSsa.Proofs.Comparing
import TypedSsa.Proofs.Failing
import TypedSsa.Proofs.Ending
import TypedSsa.Proofs.Naming
import TypedSsa.Proofs.Recalling
import TypedSsa.Proofs.Preceding
import TypedSsa.Proofs.Converging
