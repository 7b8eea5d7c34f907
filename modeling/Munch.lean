import Munch.CommandLine.Folder
import Munch.Main
import Munch.Pattern.Language
import Munch.Proofs.Checked.Phases
import Munch.Proofs.Checked.Pipeline
import Munch.Proofs.Program.Listing
import Munch.Proofs.Lexer.Active
import Munch.Proofs.Pattern.Reprint
import Munch.Proofs.RuleFile.Separator
import Munch.Proofs.RuleSet.LongestMatch
import Munch.Proofs.RuleFile.Universes
import Munch.Proofs.Checked.Freeze
import Munch.Proofs.Dfa.Least
import Munch.Proofs.Pattern.Calls
import Munch.Proofs.Pattern.Composition
import Munch.Proofs.Dfa.Renumbering
import Munch.Proofs.Pattern.Escapes
import Munch.Proofs.Pattern.ClassText
import Munch.Proofs.RuleFile.FirstFault
import Munch.Proofs.RuleFile.Quoting
import Munch.Proofs.Dfa.Passes
import Munch.Proofs.Checked.Rounds
import Munch.Proofs.RuleFile.Repetition
import Munch.Proofs.Tables.Decoding
import Munch.Proofs.RuleFile.Exports
import Munch.Proofs.Pattern.Associativity
import Munch.Proofs.Automaton.Layers
import Munch.Proofs.Automaton.Compact
import Munch.Proofs.ByteSet.Construction
import Munch.Proofs.ByteSet.Runs
import Munch.Proofs.Automaton.Arrows
import Munch.Proofs.Automaton.DrawnLabels
import Munch.Proofs.Automaton.Drawing
