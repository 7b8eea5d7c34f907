import Munch.Automaton.Explore

/-!
Automata from lists of nodes, and the compact form of an automaton.

`ofNodes` numbers nodes of any kind by their place in a list and takes the edges among them over.
The compact form of an automaton is made of its reachable states in breadth-first order, so its
entry is state zero and no state is left that the entry does not lead to.
-/

set_option autoImplicit false

namespace Munch.Automaton

section OfNodes

variable {α : Type} [DecidableEq α]

/-- The edges to listed nodes, with the nodes replaced by their numbers. -/
def numberEdges (nodes : List α) (edges : List (Label × α)) : List Edge :=
  edges.filterMap fun e => (nodes.idxOf? e.2).map (Edge.mk e.1)

theorem target_lt_of_mem_numberEdges {nodes : List α} {edges : List (Label × α)} {e : Edge}
    (mem : e ∈ numberEdges nodes edges) : e.target < nodes.length := by
  obtain ⟨source, _, numbered⟩ := List.mem_filterMap.mp mem
  obtain ⟨i, found, rfl⟩ := Option.map_eq_some_iff.mp numbered
  exact (List.findIdx?_eq_some_iff_getElem.mp found).1

/-- The automaton whose states are the listed nodes in order; the first one is the entry. -/
def ofNodes (nodes : List α) (edges : α → List (Label × α)) (accept : α → Option Nat) :
    Automaton where
  states := (nodes.map fun x => ⟨numberEdges nodes (edges x), accept x⟩).toArray
  entry := 0
  target_lt := by
    intro s mem e edge
    obtain ⟨x, _, rfl⟩ := List.mem_map.mp (List.mem_toArray.mp mem)
    have bound := target_lt_of_mem_numberEdges edge
    simpa using bound
  entry_lt := Or.inl rfl

end OfNodes

def labelledTargets (a : Automaton) (i : Nat) : List (Label × Nat) :=
  (a.edges i).map fun e => (e.label, e.target)

/-- The reachable states alone, numbered in breadth-first order. -/
def compact (a : Automaton) : Automaton :=
  ofNodes a.reachable a.labelledTargets a.accept

end Munch.Automaton
