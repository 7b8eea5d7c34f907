import Munch.Automaton.Compact

/-!
Where deterministic automata come from.

An automaton of nodes is deterministic if the edges of each node consume different bytes, and
compacting or sorting a deterministic automaton leaves each of its states so.
-/

set_option autoImplicit false

namespace Munch

/-- Labels that different edges of a deterministic state may have: none is epsilon and no two are
the same. -/
def Label.Unambiguous (labels : List Label) : Prop :=
  Label.epsilon ∉ labels ∧ labels.Nodup

namespace Label

theorem Unambiguous.sublist {labels other : List Label} (sub : labels.Sublist other)
    (unambiguous : Unambiguous other) : Unambiguous labels :=
  ⟨fun mem => unambiguous.1 (sub.subset mem), unambiguous.2.sublist sub⟩

theorem Unambiguous.perm {labels other : List Label} (perm : labels.Perm other)
    (unambiguous : Unambiguous other) : Unambiguous labels :=
  ⟨fun mem => unambiguous.1 (perm.mem_iff.mp mem), perm.nodup_iff.mpr unambiguous.2⟩

end Label

theorem State.isDeterministic_iff {s : State} :
    s.isDeterministic = true ↔ Label.Unambiguous (s.edges.map Edge.label) := by
  simp [isDeterministic, Label.Unambiguous, Edge.isEpsilon]

namespace Automaton

theorem state_eq_default_or_mem (a : Automaton) (i : Nat) :
    a.state i = {} ∨ a.state i ∈ a.states := by
  unfold state
  cases found : a.states[i]? with
  | none => exact Or.inl rfl
  | some s => exact Or.inr (Array.mem_of_getElem? found)

def Unambiguous (a : Automaton) : Prop :=
  ∀ i, Label.Unambiguous ((a.edges i).map Edge.label)

theorem unambiguous_of_states {a : Automaton}
    (each : ∀ s ∈ a.states, Label.Unambiguous (s.edges.map Edge.label)) : a.Unambiguous := by
  intro i
  unfold edges
  rcases state_eq_default_or_mem a i with none | mem
  · rw [none]
    exact ⟨by simp, by simp⟩
  · exact each _ mem

theorem isDeterministic_iff_unambiguous {a : Automaton} :
    a.isDeterministic = true ↔
      ∀ i ∈ a.reachable, Label.Unambiguous ((a.edges i).map Edge.label) := by
  simp only [isDeterministic, List.all_eq_true, State.isDeterministic_iff, edges]

theorem Unambiguous.isDeterministic {a : Automaton} (unambiguous : a.Unambiguous) :
    a.isDeterministic = true :=
  isDeterministic_iff_unambiguous.mpr fun i _ => unambiguous i

section OfNodes

variable {α : Type} [DecidableEq α]

theorem numberEdges_labels_sublist (nodes : List α) (edges : List (Label × α)) :
    ((numberEdges nodes edges).map Edge.label).Sublist (edges.map Prod.fst) := by
  unfold numberEdges
  induction edges with
  | nil => simp
  | cons e rest ih =>
      cases number : nodes.idxOf? e.2 with
      | none => simpa [number] using ih.cons _
      | some i => simpa [number] using ih

theorem ofNodes_unambiguous {nodes : List α} {edges : α → List (Label × α)}
    {accept : α → Option Nat}
    (each : ∀ x ∈ nodes, Label.Unambiguous ((edges x).map Prod.fst)) :
    (ofNodes nodes edges accept).Unambiguous := by
  apply unambiguous_of_states
  intro s mem
  obtain ⟨x, listed, rfl⟩ := List.mem_map.mp (List.mem_toArray.mp mem)
  exact (each x listed).sublist (numberEdges_labels_sublist nodes (edges x))

end OfNodes

theorem labelledTargets_labels (a : Automaton) (i : Nat) :
    (a.labelledTargets i).map Prod.fst = (a.edges i).map Edge.label := by
  simp [labelledTargets, Function.comp_def]

theorem compact_unambiguous {a : Automaton} (deterministic : a.isDeterministic = true) :
    a.compact.Unambiguous := by
  apply ofNodes_unambiguous
  intro i reached
  rw [labelledTargets_labels]
  exact isDeterministic_iff_unambiguous.mp deterministic i reached

theorem state_sortEdges (a : Automaton) (i : Nat) :
    a.sortEdges.state i = ⟨(a.edges i).mergeSort Edge.le, a.accept i⟩ := by
  unfold edges accept state sortEdges
  rw [Array.getElem?_map]
  cases a.states[i]? <;> simp

theorem edges_sortEdges (a : Automaton) (i : Nat) :
    a.sortEdges.edges i = (a.edges i).mergeSort Edge.le :=
  congrArg State.edges (state_sortEdges a i)

theorem sortEdges_unambiguous {a : Automaton} (unambiguous : a.Unambiguous) :
    a.sortEdges.Unambiguous := by
  intro i
  rw [edges_sortEdges]
  exact (unambiguous i).perm ((List.mergeSort_perm _ _).map _)

end Automaton

end Munch
