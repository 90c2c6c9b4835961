import Retouch.Lower.Lowered
import Retouch.Toolkit.Workbench
import Retouch.Buffer.Edit
import Retouch.Failure
import Retouch.Settings.FileName
import Retouch.Settings.Read
import Retouch.Json
import Retouch.Listing
import Retouch.Runner
import Retouch.Main
import Retouch.Proofs.ErasedLayout
import Retouch.Proofs.ToolkitRuns
import Retouch.Proofs.LastWrite
import Retouch.Proofs.Partition
import Retouch.Proofs.Brackets
import Retouch.Proofs.TypeSyntax
import Retouch.Proofs.TypeReach
import Retouch.Proofs.Spelling
import Retouch.Proofs.TypedProgram
import Retouch.Proofs.ErasurePass
import Retouch.Proofs.ProgramErasure
import Retouch.Proofs.WholeText
import Retouch.Proofs.Extent
import Retouch.Proofs.Lockstep
import Retouch.Proofs.Renaming
import Retouch.Proofs.ModuleSyntax
import Retouch.Proofs.ModuleClauses
import Retouch.Proofs.StatementLowering
import Retouch.Proofs.ModuleLowering
import Retouch.Proofs.TokenPositions
import Retouch.Proofs.Places
import Retouch.Proofs.FileShapes
import Retouch.Proofs.FileReplacement
import Retouch.Proofs.Passage
import Retouch.Proofs.TemplateNesting
import Retouch.Proofs.ElementNesting
import Retouch.Proofs.PlainSyntax
import Retouch.Proofs.PlainReading
import Retouch.Proofs.PlainErasure
import Retouch.Proofs.LoweringRun
import Retouch.Proofs.LoweringSpans
import Retouch.Proofs.UnboundedScans
import Retouch.Proofs.ErasureTermination
import Retouch.Proofs.Fading
import Retouch.Proofs.FadedScan
import Retouch.Proofs.PassView
import Retouch.Proofs.SecondErasure
import Retouch.Proofs.ProgramTwice
import Retouch.Proofs.ErasureOutcome
import Retouch.Proofs.IdleTokens
import Retouch.Proofs.Declarators
import Retouch.Proofs.OperatorChains
import Retouch.Proofs.ClassScan
import Retouch.Proofs.MethodErasure
import Retouch.Proofs.ClassErasure
import Retouch.Proofs.ClassParameters
import Retouch.Proofs.DerivedCollections
import Retouch.Proofs.ClosestToken
import Retouch.Proofs.QuotedText
import Retouch.Proofs.ExportedDeclarations
import Retouch.Proofs.LiteralReplacement
import Retouch.Proofs.EditSplicing
import Retouch.Proofs.ScriptNames
import Retouch.Proofs.ScriptListing
import Retouch.Proofs.LexicalShapes
import Retouch.Proofs.TokenKinds
import Retouch.Proofs.DialectAgreement
import Retouch.Proofs.FusedAngles
import Retouch.Proofs.GuardedReads
import Retouch.Proofs.GuardedScans
import Retouch.Proofs.GuardedPass
import Retouch.Proofs.BracketNesting
import Retouch.Proofs.ContextualOrder
import Retouch.Proofs.AbsolutePaths
import Retouch.Proofs.NormalForms
import Retouch.Proofs.ScriptRuns
import Retouch.Proofs.LoadJournal
import Retouch.Proofs.LoadTermination
import Retouch.Proofs.SampleEngine
import Retouch.Proofs.ModuleLoading
import Retouch.Proofs.Dependencies
import Retouch.Proofs.LoaderCache
import Retouch.Proofs.CacheKeys
import Retouch.Proofs.RunReport
import Retouch.Proofs.RunHistory
import Retouch.Proofs.DryRun
import Retouch.Proofs.StatisticsSums
