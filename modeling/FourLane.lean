import FourLane.Console
import FourLane.Session.Host
import FourLane.Proofs.Acceptance
import FourLane.Proofs.LoweringRun
import FourLane.Proofs.CompileResult
import FourLane.Proofs.Execution
import FourLane.Proofs.Meaning
import FourLane.Proofs.Simulation
import FourLane.Proofs.History
import FourLane.Proofs.SessionMeaning
import FourLane.Proofs.Handles
import FourLane.Proofs.WellFormed
import FourLane.Proofs.SessionSafety
import FourLane.Proofs.Permanence
import FourLane.Proofs.Grammar
import FourLane.Proofs.SourceText
import FourLane.Proofs.EarliestFault
import FourLane.Proofs.Atomicity
import FourLane.Proofs.BatchEvaluation
import FourLane.Proofs.Builds
import FourLane.Proofs.LaneIndependence
import FourLane.Proofs.CallStack
import FourLane.Proofs.CallTermination
import FourLane.Proofs.LoweringLog
import FourLane.Proofs.ReliableBackends
import FourLane.Proofs.SuccessfulHistory
import FourLane.Proofs.Renumbering
import FourLane.Proofs.Twins
import FourLane.Proofs.Deletion
import FourLane.Proofs.Commutation
import FourLane.Proofs.DefinedCalls
import FourLane.Proofs.Inlining
import FourLane.Proofs.DecimalReading
import FourLane.Proofs.ShortestDecimal
import FourLane.Proofs.PrintedValues
import FourLane.Proofs.NearestValue
import FourLane.Proofs.NumeralGrammar
import FourLane.Proofs.LongestNumeral
import FourLane.Proofs.ExactResults
import FourLane.Proofs.RoundedArithmetic
import FourLane.Proofs.HexadecimalReading
import FourLane.Proofs.ReadableParameters
import FourLane.Proofs.BuiltinCalls
import FourLane.Proofs.Environments
import FourLane.Proofs.Layouts
import FourLane.Proofs.NestedArithmetic
import FourLane.Proofs.ParameterNames
import FourLane.Proofs.JoinedTexts
import FourLane.Proofs.CompilationLog
import FourLane.Proofs.ImportTables
import FourLane.Proofs.CompiledListings
import FourLane.Proofs.Transcripts
import FourLane.Proofs.Descent
import FourLane.Proofs.Pushback
import FourLane.Proofs.ByteOffsets
import FourLane.Proofs.ByteTokens
import FourLane.Proofs.NumeralParts
import FourLane.Proofs.DecimalSlices
import FourLane.Proofs.ByteNumerals
