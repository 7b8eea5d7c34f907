import Munch.Proofs.Checked.Automaton
import Munch.Proofs.Automaton.Absorption
import Munch.Proofs.Dfa.Subset

/-!
The automaton of sets of states, checked.

Every member of a set that is looked at has to be a state, and none of its edges may consume nothing.
The sets that are reached are sets of states because edges lead to states
(`Munch.Automaton.allSubsets_closed`), and a reduced automaton has no epsilon edge
(`hasEpsilon_reduce`).  The graph of the sets is deterministic, so it passes the assertion that guards
its freezing (`ofAutomaton_eq`).
-/

set_option autoImplicit false

namespace Munch

namespace StateSet

theorem lt_of_contains {s : StateSet} {n i : Nat} (small : s.bits < Nat.pow 2 n)
    (member : s.contains i = true) : i < n := by
  refine Nat.lt_of_not_le fun beyond => ?_
  have below := Nat.lt_of_lt_of_le small (Nat.pow_le_pow_right Nat.two_pos beyond)
  rw [contains, Nat.testBit_lt_two_pow below] at member
  cases member

def members (s : StateSet) : List Nat :=
  s.membersBelow (s.bits.log2 + 1)

theorem mem_members {s : StateSet} {i : Nat} : i ∈ s.members ↔ s.contains i = true := by
  rw [members, mem_membersBelow, and_iff_right_iff_imp]
  exact lt_of_contains Nat.lt_log2_self

end StateSet

namespace Automaton

variable {a : Automaton}

theorem contains_lt_of_mem_allSubsets {s : StateSet} (listed : s ∈ a.allSubsets) {i : Nat}
    (member : s.contains i = true) : i < a.size := by
  obtain ⟨bits, below, rfl⟩ := List.mem_map.mp listed
  exact StateSet.lt_of_contains (List.mem_range.mp below) member

theorem hasEpsilon_eq_false_iff :
    a.hasEpsilon = false ↔ ∀ i < a.size, (a.edges i).any Edge.isEpsilon = false := by
  have states : ∀ i (inside : i < a.states.size), a.edges i = a.states[i].edges := by
    intro i inside
    simp [edges, state, inside]
  rw [hasEpsilon, Array.any_eq_false]
  constructor
  · intro none i inside
    rw [states i inside]
    exact Bool.eq_false_iff.mpr (none i inside)
  · intro none i inside
    rw [← states i inside]
    exact Bool.eq_false_iff.mp (none i inside)

theorem hasEpsilon_eq_false_iff_not_mem :
    a.hasEpsilon = false ↔ ∀ i j, (Label.epsilon, j) ∉ a.labelledTargets i := by
  rw [hasEpsilon_eq_false_iff]
  constructor
  · intro none i j edge
    have mem := mem_labelledTargets.mp edge
    exact List.any_eq_false.mp (none i (lt_size_of_mem_edges mem)) _ mem rfl
  · intro none i _
    rw [List.any_eq_false]
    intro e mem consumes
    obtain ⟨label, j⟩ := e
    cases (of_decide_eq_true consumes : label = .epsilon)
    exact none i j (mem_labelledTargets.mpr mem)

theorem hasEpsilon_reduce (nonempty : a.isEmpty = false) : a.reduce.hasEpsilon = false :=
  hasEpsilon_eq_false_iff_not_mem.mpr fun _ _ => reduce_noEpsilon nonempty

end Automaton

namespace Checked

variable {a : Automaton}

section OfNodes

variable {α : Type} [DecidableEq α]

/-- The automaton of a list of nodes, each of whose edges has to lead to a node of the list. -/
def ofNodes (nodes : List α) (edges : α → List (Label × α)) (accept : α → Option Nat) :
    Except Panic Automaton := do
  forM nodes fun x => checkAll ((edges x).map fun e => nodes.idxOf e.2) nodes.length
  return .ofNodes nodes edges accept

theorem ofNodes_eq {nodes : List α} {edges : α → List (Label × α)}
    (closed : ∀ x ∈ nodes, ∀ e ∈ edges x, e.2 ∈ nodes) (accept : α → Option Nat) :
    ofNodes nodes edges accept = pure (.ofNodes nodes edges accept) := by
  rw [ofNodes, forM_eq_pure, pure_bind]
  intro x listed
  apply checkAll_of_lt
  intro i mem
  obtain ⟨e, edge, rfl⟩ := List.mem_map.mp mem
  exact List.idxOf_lt_length_iff.mpr (closed x listed e edge)

end OfNodes

def ofAutomaton (a : Automaton) : Except Panic Dfa := do
  discard (compact a)
  (Dfa.ofAutomaton a).mapError .fault

theorem ofAutomaton_eq (deterministic : a.isDeterministic = true) :
    ofAutomaton a = pure (.freeze a deterministic) := by
  rw [ofAutomaton, compact_eq, Dfa.ofAutomaton, dif_pos deterministic]
  rfl

/-- Looks at a member of a set: it has to be a state all of whose edges consume a byte. -/
def lookAtMember (a : Automaton) (i : Nat) : Except Panic Unit := do
  discard (targets a i)
  require .epsilonEdge !(a.edges i).any Edge.isEpsilon

def subsetTargets (a : Automaton) (s : StateSet) : Except Panic (List StateSet) := do
  forM s.members (lookAtMember a)
  return (Automaton.subsetEdges a.moveTable s).map Prod.snd

def subsets (a : Automaton) : Except Panic (List StateSet) := do
  if a.isEmpty then return []
  exploreFrom (subsetTargets a) (Nat.pow 2 a.size) (.singleton a.entry)

def determinize (a : Automaton) : Except Panic Dfa := do
  let sets ← subsets a
  let graph ← ofNodes sets (Automaton.subsetEdges a.moveTable) a.subsetAccept
  ofAutomaton graph

section Determinize

variable (noEpsilon : a.hasEpsilon = false)

include noEpsilon

theorem lookAtMember_eq {i : Nat} (inside : i < a.size) : lookAtMember a i = pure () := by
  have consumes := Automaton.hasEpsilon_eq_false_iff.mp noEpsilon i inside
  rw [lookAtMember, targets_eq inside, consumes]
  rfl

theorem subsetTargets_eq {s : StateSet} (listed : s ∈ a.allSubsets) :
    subsetTargets a s = pure ((Automaton.subsetEdges a.moveTable s).map Prod.snd) := by
  rw [subsetTargets, forM_eq_pure, pure_bind]
  intro i member
  apply lookAtMember_eq noEpsilon
  exact Automaton.contains_lt_of_mem_allSubsets listed (StateSet.mem_members.mp member)

theorem subsets_eq : subsets a = pure (a.subsets a.moveTable) := by
  cases states : a.isEmpty with
  | true => simp [subsets, Automaton.subsets, states]
  | false =>
      have start := Automaton.singleton_mem_allSubsets (Automaton.entry_lt_size states)
      simp only [subsets, Automaton.subsets, states, Bool.false_eq_true, if_false]
      apply exploreFrom_eq a.allSubsets_closed _ start (Nat.le_of_eq a.length_allSubsets)
      intro s listed
      exact subsetTargets_eq noEpsilon listed

/-- Without epsilon edges nothing is in the way of the automaton of sets. -/
theorem determinize_eq : determinize a = pure a.subsetDfa := by
  have closed : ∀ s ∈ a.subsets a.moveTable, ∀ e ∈ Automaton.subsetEdges a.moveTable s,
      e.2 ∈ a.subsets a.moveTable := by
    intro s listed e edge
    cases states : a.isEmpty with
    | true => simp [Automaton.subsets, states] at listed
    | false =>
        apply (Automaton.subsets_explored states).closed s listed
        exact List.mem_map_of_mem edge
  rw [determinize, subsets_eq noEpsilon, pure_bind, ofNodes_eq closed, pure_bind]
  exact ofAutomaton_eq a.subsetGraph_isDeterministic

end Determinize

end Checked

end Munch
