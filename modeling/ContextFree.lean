import ContextFree.Derivation.Trees
import ContextFree.Derivation.Sentential
import ContextFree.Recognition.Recognizer
import ContextFree.Tree.Builder
import ContextFree.Walk.Walker
import ContextFree.Proofs.Saturation
import ContextFree.Proofs.Rules
import ContextFree.Proofs.Positions
import ContextFree.Proofs.Support
import ContextFree.Proofs.Matching
import ContextFree.Proofs.Lookahead
import ContextFree.Proofs.LookaheadExact
import ContextFree.Proofs.Expansion
import ContextFree.Proofs.Search
import ContextFree.Proofs.Reaching
import ContextFree.Proofs.Entering
import ContextFree.Proofs.NodeTable
import ContextFree.Proofs.Splits
import ContextFree.Proofs.Earley.Chart
import ContextFree.Proofs.Earley.Moves
import ContextFree.Proofs.Earley.Closing
import ContextFree.Proofs.Earley.Recognition
import ContextFree.Proofs.Exact
import ContextFree.Proofs.Gll.Moves
import ContextFree.Proofs.Gll.Calling
import ContextFree.Proofs.Gll.Recognition
import ContextFree.Proofs.Gll.Extraction
import ContextFree.Proofs.Recognition
import ContextFree.Proofs.SelfSupport
import ContextFree.Proofs.RetainedChart
import ContextFree.Proofs.SameSearch
import ContextFree.Proofs.Forest.Derivations
import ContextFree.Proofs.Forest.Trimming
import ContextFree.Proofs.Forest.Alike
import ContextFree.Proofs.Forest.Ordering
import ContextFree.Proofs.Forest.Compacting
import ContextFree.Proofs.Forest.Finishing
import ContextFree.Proofs.Forest.Content
import ContextFree.Proofs.Forest.Settled
import ContextFree.Proofs.Forest.Tables
import ContextFree.Proofs.Forest.Agreement
import ContextFree.Proofs.Outcomes
import ContextFree.Proofs.DerivationTrees
import ContextFree.Proofs.Forest.Exactness
import ContextFree.Proofs.Forest.Counting
import ContextFree.Proofs.Segments
import ContextFree.Proofs.Forest.Renumbering
import ContextFree.Proofs.Forest.Ambiguity
import ContextFree.Proofs.Forest.Productivity
import ContextFree.Proofs.Walk.Choosing
import ContextFree.Proofs.Walk.ParseTrees
import ContextFree.Proofs.Forest.Unfoldings
import ContextFree.Proofs.Walk.Odometer
import ContextFree.Proofs.Walk.Enumeration
import ContextFree.Proofs.Walk.Remaining
import ContextFree.Proofs.Walk.Renumbering
import ContextFree.Proofs.Forest.Survivors
import ContextFree.Proofs.Walk.Tasks
import ContextFree.Proofs.Walk.Memory
import ContextFree.Proofs.Walk.Lockstep
import ContextFree.Proofs.Walk.Termination
import ContextFree.Proofs.Walk.Steady
import ContextFree.Proofs.Walk.Replaying
import ContextFree.Proofs.Walk.Nesting
import ContextFree.Proofs.Walk.Ranking
import ContextFree.Proofs.Walk.Priority
import ContextFree.Proofs.Forest.Storage
import ContextFree.Proofs.Loops
import ContextFree.Proofs.Gll.Schedules
import ContextFree.Proofs.Earley.Passes
import ContextFree.Proofs.Gll.Meetings
import ContextFree.Proofs.Gll.Expansions
import ContextFree.Proofs.Termination
import ContextFree.Proofs.Ranges.Tables
import ContextFree.Proofs.StateNumbers
import ContextFree.Proofs.Attributes
import ContextFree.Proofs.WriteOnce
import ContextFree.Proofs.Ranges.ItemSets
import ContextFree.Proofs.Ranges.Descriptors
import ContextFree.Proofs.Ranges.Forests
import ContextFree.Proofs.Ranges.Walks
import ContextFree.Proofs.Ranges
import ContextFree.Proofs.Building
import ContextFree.Proofs.Progress.Blocks
import ContextFree.Proofs.Progress
