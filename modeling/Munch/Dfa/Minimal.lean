import Munch.Automaton.Deterministic
import Munch.Dfa.Basic

/-!
Deterministic automata without two states that behave alike.

Two states are distinct if they accept different rules, if different bytes lead on from them, or if
some byte leads from them to distinct states.  Pairs known to be distinct are marked, at first by the
rules and then in passes over all pairs, each of which sees the marks made before it in the same
pass, until a pass marks nothing.  Each class of states without marks among them becomes its earliest
member.
-/

set_option autoImplicit false

namespace Munch

/-- A symmetric table of marked pairs of numbers below its size. -/
structure Marks where
  size : Nat
  cells : Array Bool
  deriving DecidableEq

namespace Marks

def new (n : Nat) : Marks :=
  ⟨n, Array.replicate (n * n) false⟩

def contains (m : Marks) (i j : Nat) : Bool :=
  m.cells[i * m.size + j]?.getD false

def insert (m : Marks) (i j : Nat) : Marks :=
  ⟨m.size,
    (m.cells.setIfInBounds (i * m.size + j) true).setIfInBounds (j * m.size + i) true⟩

end Marks

/-- The pairs of numbers below a bound, the smaller one first, in lexicographic order. -/
def pairsBelow (n : Nat) : List (Nat × Nat) :=
  (List.range n).flatMap fun i => (List.range' (i + 1) (n - (i + 1))).map fun j => (i, j)

namespace Dfa

/-- The marks of the pairs that accept different rules. -/
def acceptMarks (d : Dfa) : Marks :=
  (pairsBelow d.size).foldl
    (fun m p => if d.accept p.1 = d.accept p.2 then m else m.insert p.1 p.2) (.new d.size)

def edgesDiffer (m : Marks) (e f : Edge) : Bool :=
  e.label ≠ f.label || (e.target ≠ f.target && m.contains e.target f.target)

def statesDiffer (d : Dfa) (m : Marks) (i j : Nat) : Bool :=
  (d.graph.edges i).length ≠ (d.graph.edges j).length ||
    ((d.graph.edges i).zip (d.graph.edges j)).any fun p => edgesDiffer m p.1 p.2

def refinePair (d : Dfa) (m : Marks) (p : Nat × Nat) : Marks :=
  if m.contains p.1 p.2 then m
  else if d.statesDiffer m p.1 p.2 then m.insert p.1 p.2
  else m

def refineRow (d : Dfa) (m : Marks) (i : Nat) : Marks :=
  (List.range' (i + 1) (d.size - (i + 1))).foldl (fun m j => d.refinePair m (i, j)) m

def refine (d : Dfa) (m : Marks) : Marks :=
  (List.range d.size).foldl d.refineRow m

theorem refine_eq (d : Dfa) (m : Marks) :
    d.refine m = (pairsBelow d.size).foldl d.refinePair m := by
  rw [refine, pairsBelow, List.foldl_flatMap]
  congr 1
  funext m i
  rw [refineRow, List.foldl_map]

/-- Passes until one changes nothing, at most as many as given: how many there were, and the marks
after them. -/
def settle (d : Dfa) : (passes : Nat) → Marks → Nat × Marks
  | 0, m => (0, m)
  | passes + 1, m =>
      let refined := d.refine m
      if refined = m then (1, m)
      else
        let (count, marks) := d.settle passes refined
        (count + 1, marks)

/-- The number of passes needed to find all distinct pairs, and these pairs.  Every pass but the last
marks a pair, so there are no more passes than there are cells of the table, and one. -/
def marking (d : Dfa) : Nat × Marks :=
  d.settle (d.size * d.size + 1) d.acceptMarks

/-- The earliest state that is not distinct from a state. -/
def representative (m : Marks) (i : Nat) : Nat :=
  ((List.range i).find? fun j => !m.contains j i).getD i

def mergedEdges (d : Dfa) (m : Marks) (i : Nat) : List (Label × Nat) :=
  (d.graph.edges i).map fun e => (e.label, representative m e.target)

def mergedGraph (d : Dfa) (m : Marks) : Automaton :=
  .ofNodes ((List.range d.size).filter fun i => representative m i = i) (d.mergedEdges m) d.accept

theorem graph_unambiguous (d : Dfa) : d.graph.Unambiguous := by
  obtain ⟨a, deterministic, eq⟩ := d.frozen
  rw [eq]
  exact Automaton.sortEdges_unambiguous (Automaton.compact_unambiguous deterministic)

theorem mergedGraph_isDeterministic (d : Dfa) (m : Marks) :
    (d.mergedGraph m).isDeterministic = true := by
  apply Automaton.Unambiguous.isDeterministic
  apply Automaton.ofNodes_unambiguous
  intro i _
  have labels : (d.mergedEdges m i).map Prod.fst = (d.graph.edges i).map Edge.label := by
    simp [mergedEdges, Function.comp_def]
  rw [labels]
  exact d.graph_unambiguous i

/-- The automaton with the fewest states whose walks stop on the same byte strings and arrive at the
same rules on all others.  A state from which no rule can be reached is kept, since a walk that
arrives there has not stopped. -/
def minimize (d : Dfa) : Dfa :=
  .freeze (d.mergedGraph d.marking.2) (d.mergedGraph_isDeterministic _)

end Dfa

end Munch
