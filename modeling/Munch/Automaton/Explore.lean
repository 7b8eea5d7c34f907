import Munch.Automaton.Basic

/-!
Breadth-first exploration of a graph that is given by its successor lists.

`explore` keeps the list of all nodes found so far, in the order in which they were found, and the
part of it whose successors have not been looked at.  A step takes the first waiting node and puts
its successors that are new at the end of both.  Each step looks at another node, so as many steps as
there are nodes are enough.
-/

set_option autoImplicit false

namespace Munch

section Explore

variable {α : Type} [DecidableEq α]

/-- The members of a list that are not among the known ones, each once, in order. -/
def newNodes (known : List α) : List α → List α
  | [] => []
  | x :: xs => if x ∈ known then newNodes known xs else x :: newNodes (x :: known) xs

/-- The nodes found from those that wait, after those found before; at most `steps` nodes are looked
at. -/
def explore (successors : α → List α) : (steps : Nat) → (found waiting : List α) → List α
  | _, found, [] => found
  | 0, found, _ :: _ => found
  | steps + 1, found, x :: waiting =>
      let fresh := newNodes found (successors x)
      explore successors steps (found ++ fresh) (waiting ++ fresh)

/-- The nodes found from a start, in breadth-first order. -/
def exploreFrom (successors : α → List α) (steps : Nat) (start : α) : List α :=
  explore successors steps [start] [start]

end Explore

namespace Automaton

def reachable (a : Automaton) : List Nat :=
  if a.isEmpty then [] else exploreFrom a.targets a.size a.entry

/-- No state that the entry leads to has an edge that consumes nothing, or two edges that consume
the same byte. -/
def isDeterministic (a : Automaton) : Bool :=
  a.reachable.all fun i => (a.state i).isDeterministic

end Automaton

end Munch
