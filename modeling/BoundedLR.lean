import BoundedLR.Derivation
import BoundedLR.Main
import BoundedLR.Parser.Description
import BoundedLR.Proofs.Completeness
import BoundedLR.Proofs.Foresight
import BoundedLR.Proofs.LargerBounds
import BoundedLR.Proofs.TableSafety
import BoundedLR.Proofs.Transactions
import BoundedLR.Table.Source
import BoundedLR.Table.View
import BoundedLR.Table.Write
import BoundedLR.Proofs.DrainedRecords
import BoundedLR.Proofs.Streaming
import BoundedLR.Proofs.Completions
import BoundedLR.Proofs.Expectations
import BoundedLR.Proofs.ValidPrefixes
import BoundedLR.Proofs.ReplayedTrees
import BoundedLR.Proofs.ReturningSessions
import BoundedLR.Proofs.Suggestions
import BoundedLR.Proofs.TableContents
import BoundedLR.Proofs.EndOfInput
import BoundedLR.Proofs.SimulatedLookahead
import BoundedLR.Proofs.ExactTries
import BoundedLR.Proofs.OperatorExpressions
import BoundedLR.Proofs.OperatorGrammars
import BoundedLR.Proofs.FedSessions
import BoundedLR.Proofs.Arithmetic
import BoundedLR.Proofs.CalculatorStacks
import BoundedLR.Proofs.CalculatorRuns
import BoundedLR.Proofs.ExactEdges
import BoundedLR.Proofs.LandingReductions
import BoundedLR.Proofs.DelimitedSteps
import BoundedLR.Proofs.SimulatedChains
import BoundedLR.Proofs.EndlessReductions
import BoundedLR.Proofs.ExactFlags
import BoundedLR.Proofs.HeldBackTokens
import BoundedLR.Proofs.TruthfulConflicts
import BoundedLR.Proofs.TokenRanges
import BoundedLR.Proofs.UsableProductions
import BoundedLR.Proofs.TableWidths
import BoundedLR.Proofs.SimulatedReductions
import BoundedLR.Proofs.LeastClosures
