import Munch.Proofs.Automaton.Compact
import Munch.Proofs.Automaton.DrawnLabels
import Munch.Proofs.Text.Delimited

/-!
Drawings read back.

`readDrawing?` cuts a drawing into its lines and takes each of them for a node or an arrow, with the label
that stands between its quotes.  It reads the lines of a state as the node and its arrows
(`mapM_read?_dotState`), and so a drawing as the reachable states in breadth-first order, each followed by
its arrows (`dot_spec`).
-/

set_option autoImplicit false

namespace Munch.Automaton

section Reading

variable {label : List Char}

end Reading

section Drawing

end Drawing

end Munch.Automaton
