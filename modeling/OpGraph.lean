import OpGraph.Argument
import OpGraph.Binary64
import OpGraph.Decimal.Shortest
import OpGraph.Decimal.Style
import OpGraph.Event
import OpGraph.Expansion
import OpGraph.Failure
import OpGraph.FunctionPath
import OpGraph.Graph.Basic
import OpGraph.Graph.Listing
import OpGraph.Graph.ModuleCalls
import OpGraph.Graph.Replacement
import OpGraph.Graph.Similarity
import OpGraph.Graph.Validity
import OpGraph.Json.Reader
import OpGraph.Json.Skip
import OpGraph.Json.Value
import OpGraph.Literal
import OpGraph.Literal.Json
import OpGraph.Naming
import OpGraph.Node
import OpGraph.Normalization
import OpGraph.Outcome
import OpGraph.Overrides
import OpGraph.Pipeline
import OpGraph.Purification
import OpGraph.Report
import OpGraph.Rules.Basic
import OpGraph.Rules.Json
import OpGraph.Rules.Standard
import OpGraph.Storage
import OpGraph.StorageReuse
import OpGraph.Submodule
import OpGraph.Tally
import OpGraph.Text.Columns
import OpGraph.Text.Combining
import OpGraph.Text.Dotted
import OpGraph.Text.Quoted
import OpGraph.Text.Unprintable
import OpGraph.Tracing
import OpGraph.Proofs.Identity
import OpGraph.Proofs.Validity
import OpGraph.Proofs.ReuseSteps
import OpGraph.Proofs.NormalizationSteps
import OpGraph.Proofs.PurificationSteps
import OpGraph.Proofs.PassValidity
import OpGraph.Proofs.ReuseMeaning
import OpGraph.Proofs.PurificationMeaning
import OpGraph.Proofs.Evaluation
import OpGraph.Proofs.TraceMeaning
import OpGraph.Proofs.NormalizationMeaning
import OpGraph.Proofs.Counting
import OpGraph.Proofs.Purity
import OpGraph.Proofs.Rebinding
import OpGraph.Proofs.ReuseCorrespondence
import OpGraph.Proofs.StaleReads
import OpGraph.Proofs.Renaming
import OpGraph.Proofs.RoundTrip
import OpGraph.Proofs.NormalForm
import OpGraph.Proofs.TraceRecursion
import OpGraph.Proofs.Atomicity
import OpGraph.Proofs.Renumbering
import OpGraph.Proofs.RenumberedNormalization
import OpGraph.Proofs.RenumberedReuse
import OpGraph.Proofs.RenumberedPurification
import OpGraph.Proofs.NumberingIndependence
import OpGraph.Proofs.Arena
import OpGraph.Proofs.Names
import OpGraph.Proofs.InputPreservation
import OpGraph.Proofs.Aliases
import OpGraph.Proofs.Accounting
import OpGraph.Proofs.WrittenTexts
import OpGraph.Proofs.JsonTexts
import OpGraph.Proofs.WrittenTables
import OpGraph.Proofs.RulesExchange
import OpGraph.Proofs.ReuseDecisions
import OpGraph.Proofs.RepeatedReuse
import OpGraph.Proofs.PurificationFaults
import OpGraph.Proofs.TraceRecords
import OpGraph.Proofs.NormalizationRounds
import OpGraph.Proofs.TracedGraphs
import OpGraph.Proofs.Paths
import OpGraph.Proofs.TracedPaths
import OpGraph.Proofs.ValidationFaults
import OpGraph.Proofs.Replacement
import OpGraph.Proofs.ExpansionOutcome
import OpGraph.Proofs.InputChecks
import OpGraph.Proofs.Similarity
import OpGraph.Proofs.InsertionScopes
import OpGraph.Proofs.OpaqueCalls
import OpGraph.Proofs.RulesOverride
import OpGraph.Proofs.TallyLaws
import OpGraph.Proofs.AliasChains
