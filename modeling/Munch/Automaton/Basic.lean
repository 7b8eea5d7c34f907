import Std.Data.HashSet

/-!
Automata: graphs of numbered states with labelled edges and rule markers.

States are numbered from zero in the order they were added.  A state has a list of edges, whose
order is kept, and may be marked with the number of a rule; of two rules the lower number wins.
Every edge leads to a state of its automaton: that is part of the type, so every operation keeps it.
-/

set_option autoImplicit false

namespace Munch

inductive Label where
  | epsilon
  | byte (b : UInt8)
  deriving DecidableEq, Hashable

def Label.rank : Label → Nat
  | .epsilon => 0
  | .byte b => b.toNat + 1

structure Edge where
  label : Label
  target : Nat
  deriving DecidableEq, Hashable

namespace Edge

def isEpsilon (e : Edge) : Bool :=
  e.label = .epsilon

def le (e f : Edge) : Bool :=
  e.label.rank < f.label.rank || (e.label.rank = f.label.rank && e.target ≤ f.target)

end Edge

def minAccept : Option Nat → Option Nat → Option Nat
  | some i, some j => some (min i j)
  | some i, none => some i
  | none, j => j

/-- A state: its edges in order, and the rule it accepts. -/
structure State where
  edges : List Edge := []
  accept : Option Nat := none
  deriving DecidableEq

namespace State

def addEdge (s : State) (e : Edge) : State :=
  if e ∈ s.edges then s else { s with edges := s.edges ++ [e] }

/-- The edges that are not among the seen ones, each once, in order. -/
def unseenEdges (seen : Std.HashSet Edge) : List Edge → List Edge
  | [] => []
  | e :: rest =>
      if seen.contains e then unseenEdges seen rest
      else e :: unseenEdges (seen.insert e) rest

def addEdges (s : State) (edges : List Edge) : State :=
  ⟨s.edges ++ unseenEdges (.ofList s.edges) edges, s.accept⟩

def isDeterministic (s : State) : Bool :=
  !s.edges.any Edge.isEpsilon && decide (s.edges.map Edge.label).Nodup

theorem mem_addEdge {s : State} {e f : Edge} :
    f ∈ (s.addEdge e).edges ↔ f ∈ s.edges ∨ f = e := by
  unfold addEdge
  split
  · constructor
    · exact Or.inl
    · rintro (old | rfl)
      · exact old
      · assumption
  · simp

theorem mem_unseenEdges {edges : List Edge} {seen : Std.HashSet Edge} {f : Edge} :
    f ∈ unseenEdges seen edges ↔ f ∈ edges ∧ f ∉ seen := by
  induction edges generalizing seen with
  | nil => simp [unseenEdges]
  | cons e rest ih =>
      unfold unseenEdges
      split
      case isTrue had =>
        have inSeen : e ∈ seen := had
        rw [ih]
        grind
      case isFalse missing =>
        have notSeen : e ∉ seen := missing
        rw [List.mem_cons, ih, Std.HashSet.mem_insert]
        grind

theorem mem_addEdges {edges : List Edge} {s : State} {f : Edge} :
    f ∈ (s.addEdges edges).edges ↔ f ∈ s.edges ∨ f ∈ edges := by
  simp only [addEdges, List.mem_append, mem_unseenEdges, Std.HashSet.mem_ofList]
  grind

end State

inductive Fault where
  | missingEdge (source target : Nat)
  | epsilonEdge
  | ambiguous
  deriving DecidableEq

def Fault.message : Fault → String
  | .missingEdge source target =>
      "tried to remove a nonexistent transition " ++ toString source ++ " -> " ++ toString target
  | .epsilonEdge => "NFA must not contain epsilon transitions"
  | .ambiguous => "DFA must have no epsilon transitions and at most one transition per byte"

/-- A graph of numbered states, one of which is the entry.  An automaton without states has the
entry zero. -/
structure Automaton where
  states : Array State
  entry : Nat
  target_lt : ∀ s ∈ states, ∀ e ∈ s.edges, e.target < states.size
  entry_lt : entry = 0 ∨ entry < states.size

namespace Automaton

def empty : Automaton where
  states := #[]
  entry := 0
  target_lt := by simp
  entry_lt := Or.inl rfl

instance : Inhabited Automaton := ⟨empty⟩

def size (a : Automaton) : Nat :=
  a.states.size

def isEmpty (a : Automaton) : Bool :=
  a.size = 0

/-- A state by its number; a number without a state gives a state without edges. -/
def state (a : Automaton) (i : Nat) : State :=
  a.states[i]?.getD {}

def edges (a : Automaton) (i : Nat) : List Edge :=
  (a.state i).edges

def accept (a : Automaton) (i : Nat) : Option Nat :=
  (a.state i).accept

def targets (a : Automaton) (i : Nat) : List Nat :=
  (a.edges i).map Edge.target

theorem edge_target_lt {a : Automaton} {i : Nat} {e : Edge} (mem : e ∈ a.edges i) :
    e.target < a.size := by
  unfold edges state at mem
  cases found : a.states[i]? with
  | none => simp [found] at mem
  | some s =>
      rw [found] at mem
      exact a.target_lt s (Array.mem_of_getElem? found) e mem

/-- Adds a state without edges, and gives its number. -/
def addState (a : Automaton) : Automaton × Nat :=
  ({ states := a.states.push {}
     entry := a.entry
     target_lt := by
       intro s mem e edge
       rcases Array.mem_push.mp mem with old | rfl
       · have := a.target_lt s old e edge
         simp only [Array.size_push]
         omega
       · simp at edge
     entry_lt := by
       have := a.entry_lt
       simp only [Array.size_push]
       omega },
   a.size)

def setState (a : Automaton) (i : Nat) (s : State)
    (targets : ∀ e ∈ s.edges, e.target < a.size) : Automaton where
  states := a.states.setIfInBounds i s
  entry := a.entry
  target_lt := by
    intro t mem e edge
    rw [Array.size_setIfInBounds]
    rcases Array.mem_or_eq_of_mem_setIfInBounds mem with old | rfl
    · exact a.target_lt t old e edge
    · exact targets e edge
  entry_lt := by
    rw [Array.size_setIfInBounds]
    exact a.entry_lt

@[simp]
theorem size_setState {a : Automaton} {i : Nat} {s : State}
    {targets : ∀ e ∈ s.edges, e.target < a.size} : (a.setState i s targets).size = a.size :=
  Array.size_setIfInBounds

def setEntry (a : Automaton) (i : Nat) : Automaton :=
  if inside : i < a.size then { a with entry := i, entry_lt := Or.inr inside } else a

/-- Adds an edge to the end of a state's edges unless the state has it.  An edge to a number without
a state is not added. -/
def addEdge (a : Automaton) (source : Nat) (label : Label) (target : Nat) : Automaton :=
  if inside : target < a.size then
    a.setState source ((a.state source).addEdge ⟨label, target⟩) (by
      intro e mem
      rcases State.mem_addEdge.mp mem with old | rfl
      · exact edge_target_lt old
      · exact inside)
  else a

def removeEdge (a : Automaton) (source : Nat) (e : Edge) : Except Fault Automaton :=
  if e ∈ a.edges source then
    .ok (a.setState source ⟨(a.edges source).erase e, a.accept source⟩
      fun _ mem => edge_target_lt (List.mem_of_mem_erase mem))
  else .error (.missingEdge source e.target)

def setAccept (a : Automaton) (i : Nat) (rule : Option Nat) : Automaton :=
  a.setState i ⟨a.edges i, rule⟩ fun _ mem => edge_target_lt mem

/-- Marks a state with a rule unless it has a lower one. -/
def mergeAccept (a : Automaton) (i : Nat) (rule : Option Nat) : Automaton :=
  a.setAccept i (minAccept (a.accept i) rule)

def sortEdges (a : Automaton) : Automaton where
  states := a.states.map fun s => { s with edges := s.edges.mergeSort Edge.le }
  entry := a.entry
  target_lt := by
    intro s mem e edge
    obtain ⟨t, old, rfl⟩ := Array.mem_map.mp mem
    rw [Array.size_map]
    exact a.target_lt t old e (List.mem_mergeSort.mp edge)
  entry_lt := by
    rw [Array.size_map]
    exact a.entry_lt

def hasEpsilon (a : Automaton) : Bool :=
  a.states.any fun s => s.edges.any Edge.isEpsilon

end Automaton

end Munch
