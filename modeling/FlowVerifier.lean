import FlowVerifier.BitSet
import FlowVerifier.Double.Arithmetic
import FlowVerifier.Double.Basic
import FlowVerifier.Double.Decimal
import FlowVerifier.Error
import FlowVerifier.Event
import FlowVerifier.Flow.Block
import FlowVerifier.Flow.Builder
import FlowVerifier.Flow.Edit
import FlowVerifier.Flow.Graph
import FlowVerifier.Flow.Printer
import FlowVerifier.Flow.Removal
import FlowVerifier.Flow.RoutineView
import FlowVerifier.Flow.Valid
import FlowVerifier.Folding
import FlowVerifier.Graph.DepthFirst
import FlowVerifier.Graph.Dominators
import FlowVerifier.Graph.NaturalLoop
import FlowVerifier.Graph.Semidominators
import FlowVerifier.Identifier
import FlowVerifier.Instruction
import FlowVerifier.Loop.Forest
import FlowVerifier.Mask
import FlowVerifier.Operator
import FlowVerifier.PackedSet
import FlowVerifier.Proofs.BitSets
import FlowVerifier.Proofs.BitSets.Histories
import FlowVerifier.Proofs.BitSets.Packed
import FlowVerifier.Proofs.BitSets.Words
import FlowVerifier.Proofs.Computation
import FlowVerifier.Proofs.Double.Arithmetic
import FlowVerifier.Proofs.Double.Neighbours
import FlowVerifier.Proofs.Double.Order
import FlowVerifier.Proofs.Double.Rounding
import FlowVerifier.Proofs.Double.Whole
import FlowVerifier.Proofs.Flow.Construction
import FlowVerifier.Proofs.Flow.Creation
import FlowVerifier.Proofs.Flow.Edges
import FlowVerifier.Proofs.Flow.Failures
import FlowVerifier.Proofs.Flow.Identities
import FlowVerifier.Proofs.Flow.Indexing
import FlowVerifier.Proofs.Flow.Merge
import FlowVerifier.Proofs.Flow.Names
import FlowVerifier.Proofs.Flow.Predecessors
import FlowVerifier.Proofs.Flow.Redirect
import FlowVerifier.Proofs.Flow.Relisting
import FlowVerifier.Proofs.Flow.Remainder
import FlowVerifier.Proofs.Flow.Removal
import FlowVerifier.Proofs.Flow.Results
import FlowVerifier.Proofs.Flow.Severing
import FlowVerifier.Proofs.Flow.WellFormed
import FlowVerifier.Proofs.Flow.Writing
import FlowVerifier.Proofs.Graph.Ancestry
import FlowVerifier.Proofs.Graph.DepthFirst
import FlowVerifier.Proofs.Graph.DominatorTables
import FlowVerifier.Proofs.Graph.Dominators
import FlowVerifier.Proofs.Graph.NaturalLoop
import FlowVerifier.Proofs.Graph.Semidominators
import FlowVerifier.Proofs.Graph.Walk
import FlowVerifier.Proofs.Invariants
import FlowVerifier.Proofs.Loop.Nesting
import FlowVerifier.Proofs.Loop.Routines
import FlowVerifier.Proofs.LoopTests
import FlowVerifier.Proofs.Mistakes
import FlowVerifier.Proofs.Naming
import FlowVerifier.Proofs.Reports
import FlowVerifier.Proofs.Run.Alike
import FlowVerifier.Proofs.Run.Blending
import FlowVerifier.Proofs.Run.Machine
import FlowVerifier.Proofs.Run.Refinement
import FlowVerifier.Proofs.Simplify.Constants
import FlowVerifier.Proofs.Simplify.Edits
import FlowVerifier.Proofs.Simplify.EmptyBlocks
import FlowVerifier.Proofs.Simplify.Fixpoint
import FlowVerifier.Proofs.Simplify.Fusion
import FlowVerifier.Proofs.Simplify.Neighbours
import FlowVerifier.Proofs.Simplify.Rest
import FlowVerifier.Proofs.Simplify.Soundness
import FlowVerifier.Proofs.Simplify.Unused
import FlowVerifier.Proofs.Simplify.Uses
import FlowVerifier.Proofs.Simplify.Weight
import FlowVerifier.Proofs.Simplify.Worklist
import FlowVerifier.Proofs.Symbolic.Arrays
import FlowVerifier.Proofs.Symbolic.Bounds
import FlowVerifier.Proofs.Symbolic.Branching
import FlowVerifier.Proofs.Symbolic.Caps
import FlowVerifier.Proofs.Symbolic.Carrying
import FlowVerifier.Proofs.Symbolic.Concatenation
import FlowVerifier.Proofs.Symbolic.Constants
import FlowVerifier.Proofs.Symbolic.Continuing
import FlowVerifier.Proofs.Symbolic.CopyOnWrite
import FlowVerifier.Proofs.Symbolic.Coverage
import FlowVerifier.Proofs.Symbolic.DeadCode
import FlowVerifier.Proofs.Symbolic.Description
import FlowVerifier.Proofs.Symbolic.Domains
import FlowVerifier.Proofs.Symbolic.Elements
import FlowVerifier.Proofs.Symbolic.Entering
import FlowVerifier.Proofs.Symbolic.Exactness
import FlowVerifier.Proofs.Symbolic.Exploration
import FlowVerifier.Proofs.Symbolic.Forward
import FlowVerifier.Proofs.Symbolic.Indices
import FlowVerifier.Proofs.Symbolic.Inquiry
import FlowVerifier.Proofs.Symbolic.IntervalArithmetic
import FlowVerifier.Proofs.Symbolic.Intervals
import FlowVerifier.Proofs.Symbolic.Lattice
import FlowVerifier.Proofs.Symbolic.Likeness
import FlowVerifier.Proofs.Symbolic.Lockstep
import FlowVerifier.Proofs.Symbolic.Movement
import FlowVerifier.Proofs.Symbolic.Runs
import FlowVerifier.Proofs.Symbolic.Scopes
import FlowVerifier.Proofs.Symbolic.Simulation
import FlowVerifier.Proofs.Symbolic.Sweep
import FlowVerifier.Proofs.Symbolic.Tests
import FlowVerifier.Proofs.Symbolic.Transfer
import FlowVerifier.Proofs.Symbolic.Trends
import FlowVerifier.Proofs.Symbolic.Values
import FlowVerifier.Proofs.Symbolic.Versions
import FlowVerifier.Proofs.Symbolic.Views
import FlowVerifier.Proofs.Symbolic.Ways
import FlowVerifier.Proofs.Termination.Caps
import FlowVerifier.Proofs.Termination.Following
import FlowVerifier.Proofs.Termination.Iterations
import FlowVerifier.Proofs.Termination.Replays
import FlowVerifier.Proofs.Termination.Soundness
import FlowVerifier.Proofs.Text.Labels
import FlowVerifier.Proofs.Verdicts.Agreement
import FlowVerifier.Proofs.Verdicts.Constants
import FlowVerifier.Proofs.Verdicts.EmptyBlocks
import FlowVerifier.Proofs.Verdicts.Fusion
import FlowVerifier.Proofs.Verdicts.Unused
import FlowVerifier.Settings
import FlowVerifier.Simplify.Constants
import FlowVerifier.Simplify.EmptyBlocks
import FlowVerifier.Simplify.Fusion
import FlowVerifier.Simplify.Worklist
import FlowVerifier.Symbolic.ArrayValue
import FlowVerifier.Symbolic.DeadCode
import FlowVerifier.Symbolic.Frontier
import FlowVerifier.Symbolic.Interval
import FlowVerifier.Symbolic.Path
import FlowVerifier.Symbolic.Scopes
import FlowVerifier.Symbolic.Search
import FlowVerifier.Symbolic.Stack
import FlowVerifier.Symbolic.Transfer
import FlowVerifier.Symbolic.Trend
import FlowVerifier.Symbolic.Value
import FlowVerifier.Symbolic.Variable
import FlowVerifier.Table
import FlowVerifier.Termination.Analysis
import FlowVerifier.Termination.Progress
import FlowVerifier.Termination.Replay
import FlowVerifier.Termination.Verdict
import FlowVerifier.Text.Invisible
import FlowVerifier.Text.Label
import FlowVerifier.Text.Quoted
import FlowVerifier.Value
import FlowVerifier.Verifier
import FlowVerifier.Workspace
