/-!
Properties of characters that are given as ascending ranges of code points.
-/

set_option autoImplicit false

namespace Munch.Text

def inRanges (ranges : List (Nat × Nat)) (n : Nat) : Bool :=
  ranges.any fun r => r.1 ≤ n && n ≤ r.2

end Munch.Text
