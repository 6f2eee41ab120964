import WordGrammar.CommandLine
import WordGrammar.Config.Compile
import WordGrammar.Config.Declaration
import WordGrammar.Config.Json
import WordGrammar.Generation.Batch
import WordGrammar.Grammar.Combinations
import WordGrammar.Grammar.Text
import WordGrammar.Main
import WordGrammar.Matcher.Grammar
import WordGrammar.Proofs.Config.Agreement
import WordGrammar.Proofs.Config.Combinations
import WordGrammar.Proofs.Config.Compile
import WordGrammar.Proofs.Config.Declaration
import WordGrammar.Proofs.Config.Json
import WordGrammar.Proofs.Config.Nesting
import WordGrammar.Proofs.Config.Problems
import WordGrammar.Proofs.Config.Reach
import WordGrammar.Proofs.Config.RoundTrip
import WordGrammar.Proofs.Config.Safety
import WordGrammar.Proofs.Decimal.Shortest
import WordGrammar.Proofs.Double.Fair
import WordGrammar.Proofs.Double.Nearest
import WordGrammar.Proofs.Double.Rounding
import WordGrammar.Proofs.Double.Scientific
import WordGrammar.Proofs.Double.Sign
import WordGrammar.Proofs.Expr.Canonical
import WordGrammar.Proofs.Expr.Contains
import WordGrammar.Proofs.Generation.Batch
import WordGrammar.Proofs.Generation.Calls
import WordGrammar.Proofs.Generation.Captures
import WordGrammar.Proofs.Generation.Choice
import WordGrammar.Proofs.Generation.Count
import WordGrammar.Proofs.Generation.Exclusion
import WordGrammar.Proofs.Generation.Failure
import WordGrammar.Proofs.Generation.Fault
import WordGrammar.Proofs.Generation.Forced
import WordGrammar.Proofs.Generation.Law
import WordGrammar.Proofs.Generation.Nesting
import WordGrammar.Proofs.Generation.Pruned
import WordGrammar.Proofs.Generation.Reach
import WordGrammar.Proofs.Generation.Replay
import WordGrammar.Proofs.Generation.Source
import WordGrammar.Proofs.Generation.Substitution
import WordGrammar.Proofs.Generation.Trace
import WordGrammar.Proofs.Generation.Unweighted
import WordGrammar.Proofs.Grammar.Cardinality
import WordGrammar.Proofs.Grammar.Circle
import WordGrammar.Proofs.Grammar.Combinations
import WordGrammar.Proofs.Grammar.Count
import WordGrammar.Proofs.Grammar.Cycle
import WordGrammar.Proofs.Grammar.Language
import WordGrammar.Proofs.Grammar.Nesting
import WordGrammar.Proofs.Grammar.Reach
import WordGrammar.Proofs.Grammar.Safety
import WordGrammar.Proofs.Grammar.Saturation
import WordGrammar.Proofs.Grammar.Unweighted
import WordGrammar.Proofs.Matcher.Enumeration
import WordGrammar.Proofs.Matcher.Fault
import WordGrammar.Proofs.Matcher.Language
import WordGrammar.Proofs.Matcher.Leftmost
import WordGrammar.Proofs.Matcher.Nesting
import WordGrammar.Proofs.Matcher.Search
import WordGrammar.Proofs.Outcome
import WordGrammar.Proofs.Pattern.Anchor
import WordGrammar.Proofs.Pattern.Completeness
import WordGrammar.Proofs.Pattern.Completion
import WordGrammar.Proofs.Pattern.Image
import WordGrammar.Proofs.Pattern.Lexis
import WordGrammar.Proofs.Pattern.Limits
import WordGrammar.Proofs.Pattern.Naming
import WordGrammar.Proofs.Pattern.Nearsighted
import WordGrammar.Proofs.Pattern.RoundTrip
import WordGrammar.Proofs.Pattern.Soundness
import WordGrammar.Proofs.Pattern.Syntax
import WordGrammar.Proofs.Sampler.Reads
import WordGrammar.Proofs.Sampler.Source
import WordGrammar.Proofs.Weight.Portion
