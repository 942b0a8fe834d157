import SumStar.CommandLine.Arguments
import SumStar.CommandLine.Desk
import SumStar.CommandLine.Failure
import SumStar.CommandLine.FileError
import SumStar.CommandLine.Path
import SumStar.CommandLine.Plan
import SumStar.CommandLine.Planning
import SumStar.CommandLine.System
import SumStar.Grammar.Basic
import SumStar.Grammar.Derivation
import SumStar.Grammar.Language
import SumStar.Grammar.Render
import SumStar.Grammar.Unfolding
import SumStar.Group.Shape
import SumStar.Group.Star
import SumStar.Group.Sum
import SumStar.Group.Word
import SumStar.Main
import SumStar.Matching.Acceptance
import SumStar.Matching.Reach
import SumStar.Matching.Span
import SumStar.Matching.Worklist
import SumStar.Pattern.Basic
import SumStar.Pattern.Language
import SumStar.Pattern.Lexer
import SumStar.Pattern.Offence
import SumStar.Pattern.Parser
import SumStar.Pattern.Printer
import SumStar.Pattern.Reading
import SumStar.Pattern.SyntaxError
import SumStar.Pattern.Token
import SumStar.Production
import SumStar.Proofs.ComposedSources
import SumStar.Proofs.DerivationRuns
import SumStar.Proofs.FlatEquivalence
import SumStar.Proofs.FlatExpressions
import SumStar.Proofs.FlatGroups
import SumStar.Proofs.FlatPatterns
import SumStar.Proofs.FlatRepetitions
import SumStar.Proofs.FlatStars
import SumStar.Proofs.FlatSums
import SumStar.Proofs.GrammarLanguage
import SumStar.Proofs.JoinedSums
import SumStar.Proofs.MatchingLanguage
import SumStar.Proofs.Numbering
import SumStar.Proofs.Origins
import SumStar.Proofs.PatternDescent
import SumStar.Proofs.PatternOffence
import SumStar.Proofs.PatternReading
import SumStar.Proofs.PatternRoundTrip
import SumStar.Proofs.PlanPerformance
import SumStar.Proofs.SpanExtension
import SumStar.Proofs.StarGroups
import SumStar.Proofs.SumAlternatives
import SumStar.Proofs.SumGroups
import SumStar.Proofs.SumOutcome
import SumStar.Proofs.SumScans
import SumStar.Proofs.SumTermination
import SumStar.Proofs.SumTexts
import SumStar.Proofs.SymbolLayers
import SumStar.Proofs.SymbolNames
import SumStar.Proofs.UnfoldedGrammars
import SumStar.Proofs.Valuations
import SumStar.Proofs.WordRuns
import SumStar.Reduction.Basic
import SumStar.Reduction.Stars
import SumStar.Reduction.Sums
import SumStar.Session
import SumStar.Source
import SumStar.Symbol.Basic
import SumStar.Symbol.Supply
import SumStar.Text.Basic
import SumStar.Text.Blank
import SumStar.Text.Control
import SumStar.Text.Replace
import SumStar.Text.Search
import SumStar.Text.Utf8
import SumStar.Proofs.SymbolMentions
import SumStar.Proofs.GroupMemory
import SumStar.Proofs.NestedExchanges
import SumStar.Proofs.LevelSums
import SumStar.Proofs.NestedPatterns
import SumStar.Proofs.NestedEquivalence
import SumStar.Proofs.StalledSums
import SumStar.Proofs.RenamedRuns
import SumStar.Proofs.HeadOrder
import SumStar.Proofs.DeclaredSymbols
import SumStar.Proofs.SessionSymbols
import SumStar.Proofs.Stratification
import SumStar.Proofs.InvocationOutcomes
import SumStar.Proofs.SearchSpans
import SumStar.Proofs.StarPlaces
import SumStar.Proofs.StarShape
import SumStar.Proofs.RemainingStars
import SumStar.Proofs.SharedRepetitions
import SumStar.Proofs.SourceSplits
import SumStar.Proofs.KeptCharacters
import SumStar.Proofs.EmittedBodies
import SumStar.Proofs.SymbolPositions
import SumStar.Proofs.RenderedLines
import SumStar.Proofs.MatchingRounds
import SumStar.Proofs.SourceLayouts
import SumStar.Proofs.ShapeRests
import SumStar.Proofs.SumShape
import SumStar.Proofs.SumSpans
