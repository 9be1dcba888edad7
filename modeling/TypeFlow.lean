import TypeFlow.Analysis.Bound
import TypeFlow.Analysis.Entry
import TypeFlow.Analysis.Evict
import TypeFlow.Analysis.Flow
import TypeFlow.Analysis.Link
import TypeFlow.Analysis.Notify
import TypeFlow.Analysis.Result
import TypeFlow.Analysis.Settle
import TypeFlow.Analysis.State
import TypeFlow.Analysis.Transfer
import TypeFlow.Code
import TypeFlow.CommandLine
import TypeFlow.DeclType
import TypeFlow.Devirtualize
import TypeFlow.Document.Basic
import TypeFlow.Document.Code
import TypeFlow.Document.Settings
import TypeFlow.Document.World
import TypeFlow.ExactType
import TypeFlow.FlowGraph.Basic
import TypeFlow.FlowGraph.Flow
import TypeFlow.Hierarchy.Cache
import TypeFlow.Hierarchy.Catalog
import TypeFlow.Hierarchy.Query
import TypeFlow.Json.Basic
import TypeFlow.Json.Reader
import TypeFlow.Json.Writer
import TypeFlow.Load
import TypeFlow.Main
import TypeFlow.OrderedSet
import TypeFlow.Problem
import TypeFlow.Report.Basic
import TypeFlow.Report.CallProfile
import TypeFlow.Report.Decimal
import TypeFlow.Report.Document
import TypeFlow.Report.Text
import TypeFlow.Rounding
import TypeFlow.Run
import TypeFlow.Settings
import TypeFlow.Signature
import TypeFlow.Sum
import TypeFlow.Table
import TypeFlow.Watch
import TypeFlow.World
import TypeFlow.Proofs.FlowGraph.Closure
import TypeFlow.Proofs.FlowGraph.Exact
import TypeFlow.Proofs.FlowGraph.Delivery
import TypeFlow.Proofs.FlowGraph.Tally
import TypeFlow.Proofs.Conversion
import TypeFlow.Proofs.Hierarchy.Coherence
import TypeFlow.Proofs.Hierarchy.Transparent
import TypeFlow.Proofs.Hierarchy.Bodies
import TypeFlow.Proofs.Hierarchy.Agreement
import TypeFlow.Proofs.Hierarchy.Lineage
import TypeFlow.Proofs.Hierarchy.BreadthFirst
import TypeFlow.Proofs.Hierarchy.Defaults
import TypeFlow.Proofs.Hierarchy.Resolution
import TypeFlow.Proofs.Analysis.Growth
import TypeFlow.Proofs.Analysis.Demand
import TypeFlow.Proofs.Analysis.Naming
import TypeFlow.Proofs.Analysis.Aftermath
import TypeFlow.Proofs.Analysis.Step
import TypeFlow.Proofs.Analysis.Valid
import TypeFlow.Proofs.Analysis.Invariant
import TypeFlow.Proofs.Analysis.Cover
import TypeFlow.Proofs.Analysis.Link
import TypeFlow.Proofs.Analysis.Notify
import TypeFlow.Proofs.Analysis.Flow
import TypeFlow.Proofs.Analysis.Transfer
import TypeFlow.Proofs.Analysis.Following
import TypeFlow.Proofs.Analysis.Leaving
import TypeFlow.Proofs.Analysis.Process
import TypeFlow.Proofs.Analysis.Calm
import TypeFlow.Proofs.Analysis.Run
import TypeFlow.Proofs.Analysis.Bound
import TypeFlow.Proofs.Analysis.Ending
import TypeFlow.Proofs.Analysis.Session
import TypeFlow.Proofs.Analysis.Termination
import TypeFlow.Proofs.Analysis.Fixpoint
import TypeFlow.Proofs.Analysis.Aggregation
import TypeFlow.Proofs.Analysis.Gathering
import TypeFlow.Proofs.Analysis.Surfacing
import TypeFlow.Proofs.Analysis.ClosedWorld
import TypeFlow.Proofs.Analysis.NamedClasses
import TypeFlow.Proofs.Analysis.Initialization
import TypeFlow.Proofs.Analysis.Marks
import TypeFlow.Proofs.Analysis.Declarations
import TypeFlow.Proofs.Analysis.Unresolved
import TypeFlow.Proofs.Analysis.Covariance
import TypeFlow.Proofs.Analysis.Tracking
import TypeFlow.Proofs.Analysis.Consulted
import TypeFlow.Proofs.Devirtualize
import TypeFlow.Proofs.Analysis.Alike
import TypeFlow.Proofs.Analysis.Incremental
import TypeFlow.Proofs.Analysis.Entries
import TypeFlow.Proofs.Analysis.Monotone
import TypeFlow.Proofs.Analysis.Refusal
import TypeFlow.Proofs.Analysis.Restart
import TypeFlow.Proofs.Analysis.Driven
import TypeFlow.Proofs.Analysis.Once
import TypeFlow.Proofs.Analysis.HeldTypes
import TypeFlow.Proofs.Analysis.Handles
import TypeFlow.Proofs.FlowGraph.Strict
import TypeFlow.Proofs.Strict.Basic
import TypeFlow.Proofs.Strict.Serve
import TypeFlow.Proofs.Strict.Flow
import TypeFlow.Proofs.Strict.Transfer
import TypeFlow.Proofs.Strict.Run
import TypeFlow.Proofs.Strict.Session
import TypeFlow.Proofs.Strict.Drained
import TypeFlow.Proofs.Changes
import TypeFlow.Proofs.Watch
import TypeFlow.Proofs.Solution.Facts
import TypeFlow.Proofs.Solution.Reading
import TypeFlow.Proofs.Solution.Grounded
import TypeFlow.Proofs.Solution.Link
import TypeFlow.Proofs.Solution.Flow
import TypeFlow.Proofs.Solution.Notify
import TypeFlow.Proofs.Solution.Extend
import TypeFlow.Proofs.Solution.Transfer
import TypeFlow.Proofs.Solution.Run
import TypeFlow.Proofs.Solution.Least
import TypeFlow.Proofs.Solution.Order
import TypeFlow.Proofs.Solution.Entailment
import TypeFlow.Proofs.Solution.Settled
import TypeFlow.Proofs.Solution.Precision
import TypeFlow.Proofs.Solution.Rewriting
import TypeFlow.Proofs.Spelling.Grammar
import TypeFlow.Proofs.Spelling.Parsing
import TypeFlow.Proofs.Spelling.Slices
import TypeFlow.Proofs.Spelling.Recognition
import TypeFlow.Proofs.Spelling.RoundTrip
import TypeFlow.Proofs.Json.Text
import TypeFlow.Proofs.Json.Value
import TypeFlow.Proofs.Document.Record
import TypeFlow.Proofs.Document.Code
import TypeFlow.Proofs.Document.World
import TypeFlow.Proofs.Analysis.CallKeys
import TypeFlow.Proofs.Analysis.CallTargets
import TypeFlow.Proofs.Report.Counts
import TypeFlow.Proofs.Analysis.DirectCalls
import TypeFlow.Proofs.Report.Consistency
