import CodeStyle.Analysis
import CodeStyle.Checker
import CodeStyle.Command.Run
import CodeStyle.Config.Loading
import CodeStyle.Main
import CodeStyle.Report.Json
import CodeStyle.Report.Pretty
import CodeStyle.Report.Sarif
import CodeStyle.Proofs.LossyText
import CodeStyle.Proofs.Scanning
import CodeStyle.Proofs.Lexing
import CodeStyle.Proofs.Positions
import CodeStyle.Proofs.Foci
import CodeStyle.Proofs.Drafts
import CodeStyle.Proofs.Nesting
import CodeStyle.Proofs.Visits
import CodeStyle.Proofs.Grouping
import CodeStyle.Proofs.TreeShape
import CodeStyle.Proofs.ErrorSpans
import CodeStyle.Proofs.FactNames
import CodeStyle.Proofs.RuleOutcomes
import CodeStyle.Proofs.BuiltinRules
import CodeStyle.Proofs.Reports
import CodeStyle.Proofs.ReportSpans
import CodeStyle.Proofs.Bounds
import CodeStyle.Proofs.RuleSafety
import CodeStyle.Proofs.ReportOrder
import CodeStyle.Proofs.ReportKeys
import CodeStyle.Proofs.SuppressionSplit
import CodeStyle.Proofs.ReportSelection
import CodeStyle.Proofs.Cancellation
import CodeStyle.Proofs.RuleIndependence
import CodeStyle.Proofs.Interleaving
import CodeStyle.Proofs.LineSearch
import CodeStyle.Proofs.ByteRuns
import CodeStyle.Proofs.LexErrors
import CodeStyle.Proofs.Braces
import CodeStyle.Proofs.ItemBraces
import CodeStyle.Proofs.BraceBlocks
import CodeStyle.Proofs.Delimiters
import CodeStyle.Proofs.DelimiterErrors
import CodeStyle.Proofs.Coverage
import CodeStyle.Proofs.LineLocality
import CodeStyle.Proofs.LineCuts
import CodeStyle.Proofs.LineEndings
import CodeStyle.Proofs.Condensing
import CodeStyle.Proofs.ItemLayout
import CodeStyle.Proofs.TreeLayout
import CodeStyle.Proofs.LayoutIndependence
import CodeStyle.Proofs.RangePairing
import CodeStyle.Proofs.UnknownFilters
import CodeStyle.Proofs.CanonicalReports
import CodeStyle.Proofs.DirectiveLines
import CodeStyle.Proofs.Encoding
import CodeStyle.Proofs.WrittenDirectives
import CodeStyle.Proofs.DirectiveLineEndings
import CodeStyle.Proofs.DirectiveSpans
import CodeStyle.Proofs.IgnoredLines
import CodeStyle.Proofs.SuppressedCounts
import CodeStyle.Proofs.DeclaredNames
import CodeStyle.Proofs.FindingPlaces
import CodeStyle.Proofs.ConditionalPairs
import CodeStyle.Proofs.LexicalGrammar
import CodeStyle.Proofs.DeclarationSyntax
import CodeStyle.Proofs.ParameterLists
import CodeStyle.Proofs.DeclaredOnce
import CodeStyle.Proofs.Enclosure
import CodeStyle.Proofs.GotoScopes
import CodeStyle.Proofs.LeadingTokens
import CodeStyle.Proofs.SwitchDefaults
import CodeStyle.Proofs.StatementHeads
import CodeStyle.Proofs.FunctionBodies
import CodeStyle.Proofs.TokenOwners
import CodeStyle.Proofs.BracedBodies
import CodeStyle.Proofs.TernaryDepth
import CodeStyle.Proofs.NestingDepth
import CodeStyle.Proofs.NamePatterns
import CodeStyle.Proofs.SnakeCase
import CodeStyle.Proofs.KeywordFixes
import CodeStyle.Proofs.LineFlags
import CodeStyle.Proofs.CommentBlocks
import CodeStyle.Proofs.SpaceFixes
import CodeStyle.Proofs.TextLines
import CodeStyle.Proofs.LineTiling
import CodeStyle.Proofs.TrailingBlanks
import CodeStyle.Proofs.CommentTargets
import CodeStyle.Proofs.LowerCase
import CodeStyle.Proofs.RuleSettings
import CodeStyle.Proofs.Verdicts
import CodeStyle.Proofs.RuleMetadata
import CodeStyle.Proofs.DepthLimits
import CodeStyle.Proofs.DepthReached
import CodeStyle.Proofs.SpanJoin
