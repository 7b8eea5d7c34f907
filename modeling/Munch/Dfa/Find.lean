import Munch.Dfa.Basic
import Munch.Dfa.Verdict

/-!
The longest match of a deterministic automaton.

The search walks along the input until a byte leads nowhere or the input ends, and the last accepting
state on the way decides.  The entry is not asked, so a match is never empty.
-/

set_option autoImplicit false

namespace Munch.Dfa

/-- The longest match of a walk that stands at a state before the given bytes, `best` being the
longest match so far. -/
def longest (d : Dfa) (i : Nat) (pos : Nat) (best : Verdict) : List UInt8 → Verdict
  | [] => best
  | b :: rest =>
      match d.next i b with
      | none => best
      | some j =>
          let best := match d.accept j with
            | some rule => .accept rule (pos + 1)
            | none => best
          d.longest j (pos + 1) best rest

def find (d : Dfa) (input : List UInt8) (pos : Nat) : Verdict :=
  if input.length ≤ pos then .endOfInput
  else if d.isEmpty then .noMatch
  else d.longest d.entry pos .noMatch (input.drop pos)

end Munch.Dfa
