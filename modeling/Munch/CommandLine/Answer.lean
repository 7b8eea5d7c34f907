import Munch.CommandLine.Arguments

/-!
Calls of the program: what the words of a command line come to.

With the reading of arguments and with `Munch.CommandLine.Folder` this is the outer layer, as is
`Munch.Main`; the program begins with the request that was read (`Munch.Program.Answer`), and no
theorem is about what lies around it.
-/

set_option autoImplicit false

namespace Munch.CommandLine

open Program (Files Report)

def usage : Report :=
  ⟨2, "", "usage: RULES [-u ascii|bytes] [-v] (tables | dot | scan INPUT)\n"⟩

def run (files : Files) (args : List String) : Report :=
  match request? args with
  | none => usage
  | some r => Program.answer files r

end Munch.CommandLine
