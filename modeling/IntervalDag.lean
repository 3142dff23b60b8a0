import IntervalDag.Analysis.BottomUp
import IntervalDag.Analysis.Evaluation
import IntervalDag.Analysis.Order
import IntervalDag.Digest
import IntervalDag.Graph.Build
import IntervalDag.Propagation.Rounds
import IntervalDag.Scalar.Binary64
import IntervalDag.Settings.Reader
import IntervalDag.Text.Trace
import IntervalDag.Proofs.Checked
import IntervalDag.Proofs.Matches
import IntervalDag.Proofs.Graph.Edges
import IntervalDag.Proofs.Graph.References
import IntervalDag.Proofs.Graph.Release
import IntervalDag.Proofs.Graph.Paths
import IntervalDag.Proofs.Graph.Layers
import IntervalDag.Proofs.Graph.Search
import IntervalDag.Proofs.Graph.Appending
import IntervalDag.Proofs.Graph.Slots
import IntervalDag.Proofs.Graph.Session
import IntervalDag.Proofs.Runs
import IntervalDag.Proofs.Graph.Stability
import IntervalDag.Proofs.Graph.Cycles
import IntervalDag.Proofs.Graph.Inheritance
import IntervalDag.Proofs.Walk.Marks
import IntervalDag.Proofs.Walk.ReverseTopological
import IntervalDag.Proofs.Walk.Visits
import IntervalDag.Proofs.Walk.Scratch
import IntervalDag.Proofs.Walk.Guests
import IntervalDag.Proofs.Analysis.Passes
import IntervalDag.Proofs.Operator.Ends
import IntervalDag.Proofs.Propagation.Rules
import IntervalDag.Proofs.Analysis.Evaluation
import IntervalDag.Proofs.Propagation.ForwardPass
import IntervalDag.Proofs.Propagation.Epochs
import IntervalDag.Proofs.Propagation.Frames
import IntervalDag.Proofs.Graph.Caches
import IntervalDag.Proofs.Propagation.Workspace
import IntervalDag.Proofs.Walk.Commons
import IntervalDag.Proofs.Walk.Twins
import IntervalDag.Proofs.Walk.Interleaving
import IntervalDag.Proofs.Walk.Recursion
import IntervalDag.Proofs.Walk.Paces
import IntervalDag.Proofs.Walk.DepthFirst
import IntervalDag.Proofs.Propagation.Settling
import IntervalDag.Proofs.Propagation.Rounds
import IntervalDag.Proofs.Interval.Membership
import IntervalDag.Proofs.Scalar.Thresholds
import IntervalDag.Proofs.Scalar.Rounding
import IntervalDag.Proofs.Interval.Narrowing
import IntervalDag.Proofs.Propagation.Steps
import IntervalDag.Proofs.Propagation.LocalSoundness
import IntervalDag.Proofs.Propagation.Enclosure
import IntervalDag.Proofs.Propagation.Soundness
import IntervalDag.Proofs.Propagation.Worklist
import IntervalDag.Scalar.Exact
import IntervalDag.Proofs.Scalar.Exact
import IntervalDag.Proofs.Interval.Exact
import IntervalDag.Proofs.Propagation.Activities
import IntervalDag.Proofs.Operator.Algebraic
import IntervalDag.Proofs.Propagation.ExactPass
import IntervalDag.Proofs.Propagation.Bookkeeping
import IntervalDag.Proofs.Propagation.Promises
import IntervalDag.Proofs.Propagation.Recycling
import IntervalDag.Proofs.Propagation.Appends
import IntervalDag.Proofs.Scalar.Linear
import IntervalDag.Proofs.Interval.Sparing
import IntervalDag.Proofs.Propagation.Calm
import IntervalDag.Proofs.Propagation.Fixpoint
import IntervalDag.Proofs.Propagation.Calls
import IntervalDag.Proofs.Propagation.Lines
import IntervalDag.Proofs.Propagation.Teams
import IntervalDag.Proofs.Propagation.Spreading
import IntervalDag.Proofs.Walk.Postorder
import IntervalDag.Proofs.Walk.Courses
import IntervalDag.Proofs.Scalar.Patterns
import IntervalDag.Proofs.Analysis.Expressions
import IntervalDag.Proofs.Analysis.Folds
import IntervalDag.Proofs.Graph.Requests
import IntervalDag.Proofs.Graph.WellFormed
import IntervalDag.Proofs.Walk.Ownership
import IntervalDag.Proofs.Operator.Feeds
import IntervalDag.Proofs.Analysis.Parts
import IntervalDag.Proofs.Analysis.Likeness
import IntervalDag.Proofs.Analysis.Constants
import IntervalDag.Proofs.Operator.Verdicts
import IntervalDag.Proofs.Operator.Bending
import IntervalDag.Proofs.Analysis.Chords
import IntervalDag.Proofs.Walk.Memory
import IntervalDag.Proofs.Walk.PostorderRecursion
import IntervalDag.Proofs.Walk.BreadthFirst
import IntervalDag.Proofs.Interval.Containment
import IntervalDag.Proofs.Propagation.Idempotence
import IntervalDag.Proofs.Propagation.Sweeps
import IntervalDag.Proofs.Walk.Restarts
import IntervalDag.Proofs.Operator.Infeasibility
import IntervalDag.Proofs.Interval.Hulls
import IntervalDag.Proofs.Interval.Powers
import IntervalDag.Proofs.Interval.Roots
import IntervalDag.Proofs.Interval.Tightness
import IntervalDag.Proofs.Interval.PowerRanges
import IntervalDag.Proofs.Operator.Poles
import IntervalDag.Proofs.Operator.PowerAgreement
import IntervalDag.Proofs.Scalar.Extensions
import IntervalDag.Proofs.Scalar.Margins
import IntervalDag.Proofs.Interval.Regularity
import IntervalDag.Proofs.Operator.Regularity
import IntervalDag.Proofs.Propagation.Regularity
import IntervalDag.Proofs.Interval.Isotonicity
import IntervalDag.Proofs.Operator.Isotonicity
import IntervalDag.Proofs.Propagation.Isotonicity
import IntervalDag.Proofs.Scalar.Logarithms
import IntervalDag.Proofs.Operator.PoleRelaxation
import IntervalDag.Proofs.Operator.Moves
import IntervalDag.Proofs.Analysis.Sorting
import IntervalDag.Proofs.Analysis.Order
import IntervalDag.Proofs.Analysis.Formulas
import IntervalDag.Proofs.Text.Reader
import IntervalDag.Proofs.Text.Numerals
import IntervalDag.Proofs.Scalar.Values
import IntervalDag.Proofs.Text.Shortest
import IntervalDag.Proofs.Text.Meanings
import IntervalDag.Proofs.Analysis.Meanings
import IntervalDag.Proofs.Walk.Freshness
import IntervalDag.Proofs.Interval.Waves
import IntervalDag.Proofs.Interval.Sines
import IntervalDag.Proofs.Interval.Humps
import IntervalDag.Proofs.Graph.Outlines
import IntervalDag.Proofs.Text.Traces
