import RuleNetwork.Grammar.Builder
import RuleNetwork.Main
import RuleNetwork.Parsing.Engine
import RuleNetwork.Proofs.Sample.Cutting
import RuleNetwork.Proofs.Run.Basic
import RuleNetwork.Proofs.Run.Stack
import RuleNetwork.Proofs.Layout.Arena
import RuleNetwork.Proofs.Run.Transport
import RuleNetwork.Proofs.Layout.Laid
import RuleNetwork.Proofs.Layout.Composed
import RuleNetwork.Proofs.Layout.Pieces
import RuleNetwork.Proofs.Layout.Rules
import RuleNetwork.Proofs.Layout.Language
import RuleNetwork.Proofs.Layout.Resolution
import RuleNetwork.Proofs.Layout.Reading
import RuleNetwork.Proofs.Layout.Compilation
import RuleNetwork.Proofs.Layout.Branches
import RuleNetwork.Proofs.Run.Reach
import RuleNetwork.Proofs.Chart.Links
import RuleNetwork.Proofs.Chart.Column
import RuleNetwork.Proofs.Chart.Filling
import RuleNetwork.Proofs.Chart.Acceptance
import RuleNetwork.Proofs.Parsing.Stages
import RuleNetwork.Proofs.Parsing.Verdict
import RuleNetwork.Proofs.Graph.Search
import RuleNetwork.Proofs.Graph.Exploring
import RuleNetwork.Proofs.Graph.Linking
import RuleNetwork.Proofs.Graph.Components
import RuleNetwork.Proofs.Graph.Depths
import RuleNetwork.Proofs.Run.Walk
import RuleNetwork.Proofs.Chart.Before
import RuleNetwork.Proofs.Chart.Useful
import RuleNetwork.Proofs.Chart.Groups
import RuleNetwork.Proofs.Chart.Incoming
import RuleNetwork.Proofs.Chart.Counts
import RuleNetwork.Proofs.Run.Trail
import RuleNetwork.Proofs.Run.Outline
import RuleNetwork.Proofs.Chart.Outlines
import RuleNetwork.Proofs.Chart.Saturation
import RuleNetwork.Proofs.Chart.Ways
import RuleNetwork.Proofs.Parsing.Notes
import RuleNetwork.Proofs.Parsing.Contexts
import RuleNetwork.Proofs.Parsing.Onward
import RuleNetwork.Proofs.Parsing.Alternatives
import RuleNetwork.Proofs.Parsing.Climb
import RuleNetwork.Proofs.Parsing.Rivals
import RuleNetwork.Proofs.Parsing.Events
import RuleNetwork.Proofs.Parsing.Unambiguous
import RuleNetwork.Proofs.Lookahead.Analysis
import RuleNetwork.Proofs.Lookahead.Beginning
import RuleNetwork.Proofs.Parsing.Totality
import RuleNetwork.Proofs.Parsing.Predictions
import RuleNetwork.Proofs.Layout.Decisions
import RuleNetwork.Proofs.Layout.Framing
import RuleNetwork.Proofs.Parsing.Coverage
import RuleNetwork.Proofs.Run.Closure
import RuleNetwork.Proofs.Parsing.Rejected
import RuleNetwork.Proofs.Parsing.Calling
import RuleNetwork.Proofs.Yield
import RuleNetwork.Proofs.Validation.Sound
import RuleNetwork.Proofs.Validation.Walks
import RuleNetwork.Proofs.Validation.Ownership
import RuleNetwork.Proofs.Validation.Termination
import RuleNetwork.Proofs.RuleGraph.Table
import RuleNetwork.Proofs.RuleGraph.Build
import RuleNetwork.Proofs.LeftRecursion.Report
import RuleNetwork.Proofs.Lookahead.Report
import RuleNetwork.Proofs.Validation.Chart
import RuleNetwork.Proofs.Validation.Visits
import RuleNetwork.Proofs.Validation.Ties
import RuleNetwork.Proofs.Validation.Parse
import RuleNetwork.Proofs.Validation.Sufficiency
import RuleNetwork.Proofs.LeftRecursion.Leftmost
import RuleNetwork.Proofs.Parsing.Bounds
import RuleNetwork.Proofs.Lookahead.Next
import RuleNetwork.Proofs.Lookahead.Exactness
import RuleNetwork.Proofs.Lookahead.Guards
import RuleNetwork.Proofs.Text.Utf8
import RuleNetwork.Proofs.Json.Written
import RuleNetwork.Proofs.Json.Numeral
import RuleNetwork.Proofs.Json.Quoted
import RuleNetwork.Proofs.Json.Steps
import RuleNetwork.Proofs.Json.Reading
import RuleNetwork.Proofs.Grammar.Schema
import RuleNetwork.Proofs.Grammar.Document
import RuleNetwork.Proofs.Layout.Terminals
import RuleNetwork.Proofs.Grammar.Declarations
import RuleNetwork.Proofs.Validation.Built
import RuleNetwork.Proofs.Graph.Cycles
import RuleNetwork.Proofs.Graph.Acyclicity
import RuleNetwork.Proofs.RuleGraph.Cycles
import RuleNetwork.Proofs.LeftRecursion.Cycles
import RuleNetwork.Proofs.LeftRecursion.Direct
import RuleNetwork.Proofs.Grammar.Cache
import RuleNetwork.Proofs.Ambiguity.Tally
import RuleNetwork.Proofs.Sorting
import RuleNetwork.Proofs.Ambiguity.Coverage
import RuleNetwork.Proofs.Ambiguity.Profiles
import RuleNetwork.Proofs.Ambiguity.Engine
import RuleNetwork.Proofs.Ambiguity.Survey
import RuleNetwork.Proofs.Grammar.Builds
import RuleNetwork.Proofs.Grammar.Refusals
import RuleNetwork.Proofs.Lookahead.Conflicts
import RuleNetwork.Proofs.Settings.Reading
import RuleNetwork.Proofs.Graph.Breadth
import RuleNetwork.Proofs.DecisionGraph
import RuleNetwork.Proofs.RuleGraph.Consistency
import RuleNetwork.Proofs.Parsing.Spans
import RuleNetwork.Proofs.Text.Dot
import RuleNetwork.Proofs.RuleGraph.Drawing
