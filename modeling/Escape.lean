import Escape.Analysis.Query
import Escape.Config.File
import Escape.Data.Config
import Escape.Data.Graph
import Escape.Data.Program
import Escape.Program.Edit
import Escape.Proofs.Walk
import Escape.Proofs.Checked
import Escape.Proofs.UsePointSet
import Escape.Proofs.TypeTable
import Escape.Proofs.Graph.MergeLinks
import Escape.Proofs.Graph.Linked
import Escape.Proofs.Graph.Turns
import Escape.Proofs.Graph.Redirects
import Escape.Proofs.Graph.Webs
import Escape.Proofs.Graph.Supplied
import Escape.Proofs.Graph.Phases
import Escape.Proofs.Graph.Shape
import Escape.Proofs.Graph.Absorb
import Escape.Proofs.Graph.Settle
import Escape.Proofs.Graph.Coherent
import Escape.Proofs.Graph.Midway
import Escape.Proofs.Graph.Rejoin
import Escape.Proofs.Graph.Align
import Escape.Proofs.Graph.Match
import Escape.Proofs.Graph.Merging
import Escape.Proofs.Graph.Cascade
import Escape.Proofs.Graph.Extends
import Escape.Proofs.Graph.Steady
import Escape.Proofs.Graph.Checks
import Escape.Proofs.Graph.WellFormed
import Escape.Proofs.Graph.Edits
import Escape.Proofs.Graph.Runs
import Escape.Proofs.Graph.Evolves
import Escape.Proofs.Graph.Splices
import Escape.Proofs.Graph.Values
import Escape.Proofs.Graph.Monotone
import Escape.Proofs.Graph.Facts
import Escape.Proofs.Graph.Closed
import Escape.Proofs.Graph.Propagation
import Escape.Proofs.Graph.Appends
import Escape.Proofs.Graph.UsePoints
import Escape.Proofs.Graph.Models
import Escape.Proofs.Graph.Least
import Escape.Proofs.Graph.Extent
import Escape.Proofs.Graph.Sources
import Escape.Proofs.Graph.Reports
import Escape.Proofs.Graph.Rooted
import Escape.Proofs.Graph.Inheritance
import Escape.Proofs.Graph.Transfer
import Escape.Proofs.Graph.Absolute
import Escape.Proofs.Graph.Termination
import Escape.Proofs.Graph.MergeForest
import Escape.Proofs.Analysis.Complete
import Escape.Proofs.Analysis.Effects
import Escape.Proofs.Analysis.Drawing
import Escape.Proofs.Analysis.Building
import Escape.Proofs.Analysis.Traces
import Escape.Proofs.Analysis.Search
import Escape.Proofs.Analysis.Rounds
import Escape.Proofs.Analysis.Completed
import Escape.Proofs.Analysis.Parameters
import Escape.Proofs.Analysis.Calls
import Escape.Proofs.Analysis.Conservative
import Escape.Proofs.Analysis.History
import Escape.Proofs.Analysis.Invocations
import Escape.Proofs.Analysis.Upkeep
import Escape.Proofs.Analysis.Limits
import Escape.Proofs.Analysis.Fallback
import Escape.Proofs.Analysis.CallSources
import Escape.Proofs.Analysis.Aliasing
import Escape.Proofs.Analysis.Origins
import Escape.Proofs.Analysis.Joins
import Escape.Proofs.Analysis.Fields
import Escape.Proofs.Analysis.SummaryStates
import Escape.Proofs.Graph.Progress
import Escape.Proofs.Graph.Handing
import Escape.Proofs.Graph.Numbering
import Escape.Proofs.Graph.Traversals
import Escape.Proofs.Program.ControlFlow
import Escape.Proofs.Program.Changes
import Escape.Proofs.Program.Tables
import Escape.Proofs.Analysis.Projections
import Escape.Proofs.Analysis.Symmetry
