import Munch.Automaton.Compact

/-!
Frozen deterministic automata.

Freezing numbers the reachable states of a deterministic automaton in breadth-first order and sorts
the edges of each by byte.  A `Dfa` is the outcome of freezing: its type says that its graph came out
of a deterministic automaton that way.  The edge for a byte is found by bisection.
-/

set_option autoImplicit false

namespace Munch

/-- The compact form of an automaton with its edges sorted. -/
def Automaton.freeze (a : Automaton) : Automaton :=
  a.compact.sortEdges

/-- A deterministic automaton whose states are numbered in breadth-first order from the entry and
whose edges are sorted by byte. -/
structure Dfa where
  graph : Automaton
  /-- The graph is the frozen form of a deterministic automaton. -/
  frozen : ∃ a : Automaton, a.isDeterministic = true ∧ graph = a.freeze

namespace Dfa

def freeze (a : Automaton) (deterministic : a.isDeterministic = true) : Dfa :=
  ⟨a.freeze, a, deterministic, rfl⟩

def ofAutomaton (a : Automaton) : Except Fault Dfa :=
  if deterministic : a.isDeterministic = true then .ok (freeze a deterministic)
  else .error .ambiguous

def size (d : Dfa) : Nat :=
  d.graph.size

def isEmpty (d : Dfa) : Bool :=
  d.graph.isEmpty

def entry (d : Dfa) : Nat :=
  d.graph.entry

def accept (d : Dfa) (i : Nat) : Option Nat :=
  d.graph.accept i

/-- Looks for the edge whose label has a rank, in the part of sorted edges from `lo` up to `hi`. -/
def bisect (edges : List Edge) (rank lo hi : Nat) : Option Edge :=
  if lo < hi then
    let middle := (lo + hi) / 2
    match edges[middle]? with
    | none => none
    | some e =>
        if e.label.rank < rank then bisect edges rank (middle + 1) hi
        else if rank < e.label.rank then bisect edges rank lo middle
        else some e
  else none
termination_by hi - lo

def next (d : Dfa) (i : Nat) (b : UInt8) : Option Nat :=
  let edges := d.graph.edges i
  (bisect edges (Label.byte b).rank 0 edges.length).map Edge.target

/-- The state that a byte string leads to from a state. -/
def walk (d : Dfa) (i : Nat) : List UInt8 → Option Nat
  | [] => some i
  | b :: rest =>
      match d.next i b with
      | none => none
      | some j => d.walk j rest

end Dfa

end Munch
