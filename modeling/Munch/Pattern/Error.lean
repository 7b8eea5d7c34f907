import Munch.Text.Quoted

/-!
What can be wrong with a pattern.
-/

set_option autoImplicit false

namespace Munch.Pattern

inductive Error where
  | unopenedGroup
  | unclosedGroup
  | unknownOperator (c : Char)
  | missingOperand (c : Char)
  | unclosedClass
  /-- A class range whose lower bound is above its upper bound. -/
  | invertedRange (lo hi : UInt8)
  /-- A character of several bytes as a range bound or in a negated class. -/
  | wideMember (c : Char)
  /-- A `\` followed by something that is no escape. -/
  | invalidEscape (text : List Char)
  | trailingEscape
  | unclosedQuote
  deriving DecidableEq

def Error.message : Error → String
  | .unopenedGroup => "Parentheses mismatch in pattern"
  | .unclosedGroup => "Unclosed group '(' in pattern"
  | .unknownOperator c => "Unknown operator " ++ Text.quoteChar c
  | .missingOperand c => "Operator " ++ Text.quoteChar c ++ " is missing an operand"
  | .unclosedClass => "Unclosed character class '['"
  | .invertedRange lo hi =>
      let bound (b : UInt8) := Text.quoteString (String.ofList (Text.escapeByte b))
      "Invalid class range " ++ bound lo ++ "-" ++ bound hi
  | .wideMember c => "Multi-byte character " ++ Text.quoteChar c ++ " not allowed here in a class"
  | .invalidEscape text => "Invalid escape sequence '\\" ++ String.ofList text ++ "'"
  | .trailingEscape => "Pattern ends with a lone '\\'"
  | .unclosedQuote => "Unclosed quoted literal '\"'"

end Munch.Pattern
