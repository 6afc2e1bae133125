import FlowTyping.Analysis
import FlowTyping.CommandLine.Flag
import FlowTyping.CommandLine.Options
import FlowTyping.CommandLine.Parse
import FlowTyping.CommandLine.Run
import FlowTyping.CommandLine.Usage
import FlowTyping.Equality
import FlowTyping.Fault
import FlowTyping.Fold
import FlowTyping.Graph
import FlowTyping.Hash
import FlowTyping.Kind
import FlowTyping.Literals
import FlowTyping.Main
import FlowTyping.Members
import FlowTyping.Members.Add
import FlowTyping.Mentions
import FlowTyping.Metrics
import FlowTyping.Number.Basic
import FlowTyping.Number.Print
import FlowTyping.Number.Read
import FlowTyping.Number.Rounding
import FlowTyping.Number.Shortest
import FlowTyping.Program
import FlowTyping.Property
import FlowTyping.Resolvers
import FlowTyping.Scope
import FlowTyping.Shape
import FlowTyping.Spelling
import FlowTyping.Store
import FlowTyping.Substitution
import FlowTyping.Tally
import FlowTyping.Text
import FlowTyping.Text.Utf16
import FlowTyping.Ty
import FlowTyping.TypeExpr
import FlowTyping.TypeExpr.OfType
import FlowTyping.TypeExpr.Render
import FlowTyping.Proofs.Reachability
import FlowTyping.Proofs.Similarity
import FlowTyping.Proofs.EqualityLaws
import FlowTyping.Proofs.HashLaws
import FlowTyping.Proofs.MentionsLaws
import FlowTyping.Proofs.FoldLaws
import FlowTyping.Proofs.Runs
import FlowTyping.Proofs.InStep
import FlowTyping.Proofs.Images
import FlowTyping.Proofs.ImageLaws
import FlowTyping.Proofs.SubstitutionLaws
import FlowTyping.Proofs.FoldAlgebra
import FlowTyping.Proofs.FoldSets
import FlowTyping.Proofs.RecursiveUnions
import FlowTyping.Proofs.AnalysisSoundness
import FlowTyping.Proofs.ScopeDiscipline
import FlowTyping.Proofs.Builder
import FlowTyping.Proofs.Tidy
import FlowTyping.Proofs.Copies
import FlowTyping.Proofs.SideBySide
import FlowTyping.Proofs.TwinFolds
import FlowTyping.Proofs.TwinImages
import FlowTyping.Proofs.TwinReads
import FlowTyping.Proofs.UnionReads
import FlowTyping.Proofs.EqualReads
import FlowTyping.Proofs.PlainFolds
import FlowTyping.Proofs.ReadsOfFolds
import FlowTyping.Proofs.DeclaredNames
import FlowTyping.Proofs.NormalFrames
import FlowTyping.Proofs.SplitFrames
import FlowTyping.Proofs.InterruptedPops
import FlowTyping.Proofs.MergeOrder
import FlowTyping.Proofs.NormalForm
import FlowTyping.Proofs.AnnotationReader
import FlowTyping.Proofs.WrittenForms
import FlowTyping.Proofs.Unambiguous
import FlowTyping.Proofs.Rounding
import FlowTyping.Proofs.ShortestDecimals
import FlowTyping.Proofs.Numerals
import FlowTyping.Proofs.BitPatterns
import FlowTyping.Proofs.NumberTexts
import FlowTyping.Proofs.Spellings
import FlowTyping.Proofs.SpellingRoundTrip
import FlowTyping.Proofs.BlockTransparency
import FlowTyping.Proofs.CyclicAnnotations
import FlowTyping.Proofs.RunOutput
import FlowTyping.Proofs.SubstitutionEnds
import FlowTyping.Proofs.Growth
import FlowTyping.Proofs.OpeningEnds
import FlowTyping.Proofs.Unwrapping
import FlowTyping.Proofs.WellFormedUtf8
import FlowTyping.Proofs.BigintSpellings
import FlowTyping.Proofs.TokenReading
import FlowTyping.Proofs.TokenAccounts
import FlowTyping.Proofs.BarredSpellings
import FlowTyping.Proofs.SharedVisits
import FlowTyping.Proofs.Counters
import FlowTyping.Proofs.Ledger
import FlowTyping.Proofs.RecordedFolds
import FlowTyping.Proofs.UnionAccounts
