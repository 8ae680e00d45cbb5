import GrammarLint.Demo
import GrammarLint.Proofs.CommentEnds
import GrammarLint.Proofs.CommonStarts
import GrammarLint.Proofs.ConfigDiscovery
import GrammarLint.Proofs.EntryAdvice
import GrammarLint.Proofs.ExcludedFiles
import GrammarLint.Proofs.FileListing
import GrammarLint.Proofs.LabelNameAdvice
import GrammarLint.Proofs.LabelNumbers
import GrammarLint.Proofs.LeftRecursion
import GrammarLint.Proofs.LineEndings
import GrammarLint.Proofs.LiteralVerdicts
import GrammarLint.Proofs.LoadedConfigs
import GrammarLint.Proofs.MarkedFiles
import GrammarLint.Proofs.NameRoundTrip
import GrammarLint.Proofs.NamedChecks
import GrammarLint.Proofs.NestingDepth
import GrammarLint.Proofs.ReadBack
import GrammarLint.Proofs.SafeConfigs
import GrammarLint.Proofs.SeverityFilter
import GrammarLint.Proofs.ShadowedTokens
import GrammarLint.Proofs.SingleCharacters
