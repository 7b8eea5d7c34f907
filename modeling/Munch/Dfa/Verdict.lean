/-!
What a search for the longest match finds.
-/

set_option autoImplicit false

namespace Munch

/-- The outcome of a search from one position of an input. -/
inductive Verdict where
  /-- The longest match ends at `stop` and belongs to the rule. -/
  | accept (rule stop : Nat)
  /-- Input remains, but nothing that starts there matches. -/
  | noMatch
  /-- The position is not before the end of the input. -/
  | endOfInput
  deriving DecidableEq

end Munch
