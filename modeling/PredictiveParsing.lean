import PredictiveParsing.Calculator.Arithmetic
import PredictiveParsing.Calculator.Command
import PredictiveParsing.Calculator.Options
import PredictiveParsing.Calculator.Report
import PredictiveParsing.Decimal.Layout
import PredictiveParsing.Decimal.Nearest
import PredictiveParsing.Decimal.Shortest
import PredictiveParsing.Diagnostic
import PredictiveParsing.Engine
import PredictiveParsing.Grammar.CategorySet
import PredictiveParsing.Grammar.Defect
import PredictiveParsing.Grammar.FirstSets
import PredictiveParsing.Grammar.FollowSets
import PredictiveParsing.Grammar.LeftCycle
import PredictiveParsing.Grammar.Phrase
import PredictiveParsing.Grammar.Production
import PredictiveParsing.Json.Value
import PredictiveParsing.Leading.Dispatch
import PredictiveParsing.Leading.Pattern
import PredictiveParsing.Leading.Set
import PredictiveParsing.Lexing.Segment
import PredictiveParsing.Lexing.Tokenizer
import PredictiveParsing.Log.Code
import PredictiveParsing.Log.Event
import PredictiveParsing.Log.Journal
import PredictiveParsing.Lookahead.Analysis
import PredictiveParsing.Lookahead.Decision
import PredictiveParsing.Lookahead.Expansion
import PredictiveParsing.Main
import PredictiveParsing.Parsing.Body
import PredictiveParsing.Parsing.Failure
import PredictiveParsing.Parsing.Recording
import PredictiveParsing.Parsing.Registry
import PredictiveParsing.Parsing.Repair
import PredictiveParsing.Parsing.Run
import PredictiveParsing.Parsing.Session
import PredictiveParsing.Parsing.State
import PredictiveParsing.Proofs.Calculator.Evaluation
import PredictiveParsing.Proofs.Calculator.Expression
import PredictiveParsing.Proofs.Calculator.Meaning
import PredictiveParsing.Proofs.Calculator.Numerals
import PredictiveParsing.Proofs.Calculator.Pieces
import PredictiveParsing.Proofs.Calculator.Rules
import PredictiveParsing.Proofs.Calculator.Setup
import PredictiveParsing.Proofs.Calculator.Symbols
import PredictiveParsing.Proofs.Grammar.Beginnings
import PredictiveParsing.Proofs.Grammar.CycleSearch
import PredictiveParsing.Proofs.Grammar.Derivation
import PredictiveParsing.Proofs.Grammar.Following
import PredictiveParsing.Proofs.Grammar.LeftRecursion
import PredictiveParsing.Proofs.Grammar.Naming
import PredictiveParsing.Proofs.Grammar.Nullability
import PredictiveParsing.Proofs.Grammar.Saturation
import PredictiveParsing.Proofs.Grammar.SententialForms
import PredictiveParsing.Proofs.Grammar.Successions
import PredictiveParsing.Proofs.Grammar.Surroundings
import PredictiveParsing.Proofs.Leading.Buckets
import PredictiveParsing.Proofs.Leading.Candidates
import PredictiveParsing.Proofs.Leading.Classes
import PredictiveParsing.Proofs.Leading.Cover
import PredictiveParsing.Proofs.Leading.Dispatch
import PredictiveParsing.Proofs.Leading.Escapes
import PredictiveParsing.Proofs.Leading.Exactness
import PredictiveParsing.Proofs.Leading.Legible
import PredictiveParsing.Proofs.Leading.Ordinary
import PredictiveParsing.Proofs.Leading.OrdinaryPieces
import PredictiveParsing.Proofs.Leading.Patterns
import PredictiveParsing.Proofs.Leading.Quantifiers
import PredictiveParsing.Proofs.Leading.Set
import PredictiveParsing.Proofs.Lexing.LongestMatch
import PredictiveParsing.Proofs.Lexing.RecoveryModes
import PredictiveParsing.Proofs.Lexing.RegexMatches
import PredictiveParsing.Proofs.Lexing.Scanning
import PredictiveParsing.Proofs.Lexing.Segments
import PredictiveParsing.Proofs.Lexing.TableScan
import PredictiveParsing.Proofs.Lexing.Tiling
import PredictiveParsing.Proofs.Lexing.TokenLimit
import PredictiveParsing.Proofs.Lexing.Tokenization
import PredictiveParsing.Proofs.Lookahead.Admission
import PredictiveParsing.Proofs.Lookahead.Ambiguity
import PredictiveParsing.Proofs.Lookahead.Analysis
import PredictiveParsing.Proofs.Lookahead.Bound
import PredictiveParsing.Proofs.Lookahead.Clashes
import PredictiveParsing.Proofs.Lookahead.Collisions
import PredictiveParsing.Proofs.Lookahead.CommonTokens
import PredictiveParsing.Proofs.Lookahead.Courses
import PredictiveParsing.Proofs.Lookahead.Coverage
import PredictiveParsing.Proofs.Lookahead.DecisionKeys
import PredictiveParsing.Proofs.Lookahead.Expansion
import PredictiveParsing.Proofs.Lookahead.FirstTokens
import PredictiveParsing.Proofs.Lookahead.Rounds
import PredictiveParsing.Proofs.Lookahead.Runs
import PredictiveParsing.Proofs.Lookahead.Selection
import PredictiveParsing.Proofs.Lookahead.Settled
import PredictiveParsing.Proofs.Lookahead.StepBound
import PredictiveParsing.Proofs.Lookahead.Table
import PredictiveParsing.Proofs.Outcome
import PredictiveParsing.Proofs.Parsing.Attempts
import PredictiveParsing.Proofs.Parsing.Bounds
import PredictiveParsing.Proofs.Parsing.CallDepth
import PredictiveParsing.Proofs.Parsing.Causes
import PredictiveParsing.Proofs.Parsing.CleanParse
import PredictiveParsing.Proofs.Parsing.Completeness
import PredictiveParsing.Proofs.Parsing.Deeds
import PredictiveParsing.Proofs.Parsing.Effects
import PredictiveParsing.Proofs.Parsing.EndOfInput
import PredictiveParsing.Proofs.Parsing.History
import PredictiveParsing.Proofs.Parsing.Invariants
import PredictiveParsing.Proofs.Parsing.Moments
import PredictiveParsing.Proofs.Parsing.Onward
import PredictiveParsing.Proofs.Parsing.Prediction
import PredictiveParsing.Proofs.Parsing.Readings
import PredictiveParsing.Proofs.Parsing.RecordedCalls
import PredictiveParsing.Proofs.Parsing.RecordedTrees
import PredictiveParsing.Proofs.Parsing.RecoveryAgreement
import PredictiveParsing.Proofs.Parsing.Registration
import PredictiveParsing.Proofs.Parsing.RepairSites
import PredictiveParsing.Proofs.Parsing.Repairs
import PredictiveParsing.Proofs.Parsing.Repetitions
import PredictiveParsing.Proofs.Parsing.ReportLimit
import PredictiveParsing.Proofs.Parsing.ReportOrder
import PredictiveParsing.Proofs.Parsing.Spelling
import PredictiveParsing.Proofs.Parsing.TokenAccount
import PredictiveParsing.Proofs.Regex.Anchoring
import PredictiveParsing.Proofs.Regex.ClassReaders
import PredictiveParsing.Proofs.Regex.Constructs
import PredictiveParsing.Proofs.Regex.Laws
import PredictiveParsing.Proofs.Regex.Matches
import PredictiveParsing.Proofs.Regex.Readers
import PredictiveParsing.Proofs.Regex.Runs
import PredictiveParsing.Proofs.Regex.Starts
import PredictiveParsing.Proofs.Text.Dictionary
import PredictiveParsing.Proofs.Text.Excerpts
import PredictiveParsing.Proofs.Text.Places
import PredictiveParsing.Proofs.Token.Consistency
import PredictiveParsing.Proofs.Token.Hierarchy
import PredictiveParsing.Regex.Engine
import PredictiveParsing.Regex.Reader
import PredictiveParsing.Regex.Search
import PredictiveParsing.Regex.Syntax
import PredictiveParsing.Settings.Document
import PredictiveParsing.Settings.Limits
import PredictiveParsing.Settings.Load
import PredictiveParsing.Settings.Preferences
import PredictiveParsing.Text.Dictionary
import PredictiveParsing.Text.Excerpt
import PredictiveParsing.Text.Position
import PredictiveParsing.Text.Quoted
import PredictiveParsing.Token.Category
import PredictiveParsing.Token.Matchers
import PredictiveParsing.Token.Model
import PredictiveParsing.Token.Stream
import PredictiveParsing.Unicode.Blank
import PredictiveParsing.Unicode.CaseFolding
import PredictiveParsing.Unicode.CodeRanges
import PredictiveParsing.Unicode.Digits
import PredictiveParsing.Unicode.Letters
import PredictiveParsing.Unicode.Unprintable
import PredictiveParsing.Unicode.WordCharacters
