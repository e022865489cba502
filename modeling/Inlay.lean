import Inlay.Compile
import Inlay.Proofs.Replacement
import Inlay.Proofs.InertReplacement
import Inlay.Proofs.TagSequence
import Inlay.Proofs.Equations
import Inlay.Proofs.Masking
import Inlay.Proofs.Runs
import Inlay.Proofs.Frame
import Inlay.Proofs.Updates
import Inlay.Proofs.Renaming
import Inlay.Proofs.Loosening
import Inlay.Proofs.References
import Inlay.Proofs.StaticTermination
import Inlay.Proofs.RuntimeTermination
import Inlay.Proofs.Termination
import Inlay.Proofs.DispatchClosure
import Inlay.Proofs.TargetCode
import Inlay.Proofs.PlainText
import Inlay.Proofs.Indentation
import Inlay.Proofs.StaticExpansion
import Inlay.Proofs.Margins
import Inlay.Proofs.Spreading
import Inlay.Proofs.MarkRemoval
import Inlay.Proofs.CallNames
import Inlay.Proofs.MaskedScan
import Inlay.Proofs.NestedCallables
import Inlay.Proofs.CanonicalUnits
import Inlay.Proofs.UnitText
import Inlay.Proofs.UnitCallables
import Inlay.Proofs.UnitCode
import Inlay.Proofs.Enrollment
import Inlay.Proofs.Rendering
import Inlay.Proofs.RuntimeRendering
import Inlay.Proofs.Subtasks
import Inlay.Proofs.EmbeddedSources
import Inlay.Proofs.SourceInvariants
import Inlay.Proofs.KeywordText
import Inlay.Proofs.StaticDiagnostics
import Inlay.Proofs.DirectCalls
import Inlay.Proofs.RecursionGuard
import Inlay.Proofs.Extension
import Inlay.Proofs.Silencing
import Inlay.Proofs.Lexing
import Inlay.Proofs.LexedCallables
import Inlay.Proofs.LexedUnits
import Inlay.Proofs.Operations
import Inlay.Proofs.Order
import Inlay.Proofs.Preprocessing
import Inlay.Proofs.LexicalBlocks
import Inlay.Proofs.Accounting
import Inlay.Proofs.Preloading
import Inlay.Proofs.PrivateMarks
import Inlay.Proofs.BellFree
import Inlay.Proofs.MarkLeaks
import Inlay.Proofs.Unindenting
import Inlay.Proofs.AlignedStates
import Inlay.Proofs.IndentedRuns
import Inlay.Proofs.NestedIndentation
import Inlay.Proofs.WrittenNames
import Inlay.Proofs.NestedBlocks
import Inlay.Proofs.NestingErrors
import Inlay.Proofs.Merging
import Inlay.Proofs.PlainUnits
import Inlay.Proofs.NestedMargins
import Inlay.Proofs.KeptCalls
import Inlay.Proofs.CompiledUnits
import Inlay.Proofs.CalledUnits
import Inlay.Proofs.BlockLines
import Inlay.Proofs.Insertions
import Inlay.Proofs.Resolution
import Inlay.Proofs.JsonGrammar
import Inlay.Proofs.JsonReading
import Inlay.Proofs.OptionsDocument
