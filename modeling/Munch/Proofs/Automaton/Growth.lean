import Munch.Automaton.Fragment
import Munch.Proofs.Automaton.Run

/-!
How automata grow.

States and edges are added to an automaton in two ways: a state without edges, and edges between
states that are there (`Joined`).  What grows beside the states of an automaton, with no edge between
these and the new ones, `Extends` it.
-/

set_option autoImplicit false

namespace Munch.Automaton

theorem state_addState (a : Automaton) (i : Nat) : a.addState.1.state i = a.state i := by
  unfold state addState
  rw [Array.getElem?_push]
  split
  · rename_i last
    rw [last, Array.getElem?_eq_none (Nat.le_refl _)]
    rfl
  · rfl

@[simp]
theorem size_addState (a : Automaton) : a.addState.1.size = a.size + 1 := by
  simp [size, addState]

theorem labelledTargets_addState (a : Automaton) (i : Nat) :
    a.addState.1.labelledTargets i = a.labelledTargets i := by
  rw [labelledTargets, edges, state_addState]
  rfl

theorem labelledTargets_beyond {a : Automaton} {i : Nat} (beyond : a.size ≤ i) :
    a.labelledTargets i = [] := by
  rw [labelledTargets, edges, state_eq_default beyond]
  rfl

theorem labelledTarget_lt {a : Automaton} {i j : Nat} {label : Label}
    (mem : (label, j) ∈ a.labelledTargets i) : j < a.size :=
  edge_target_lt (mem_labelledTargets.mp mem)

theorem state_setState {a : Automaton} {i j : Nat} {s : State}
    {targets : ∀ e ∈ s.edges, e.target < a.size} :
    (a.setState i s targets).state j = if j = i ∧ i < a.size then s else a.state j := by
  unfold state setState
  rw [Array.getElem?_setIfInBounds]
  by_cases same : i = j
  · subst same
    by_cases inside : i < a.states.size
    · rw [if_pos rfl, if_pos inside, if_pos ⟨rfl, inside⟩]
      rfl
    · rw [if_pos rfl, if_neg inside, if_neg (fun both => inside both.2),
        Array.getElem?_eq_none (Nat.le_of_not_lt inside)]
  · rw [if_neg same, if_neg (fun both => same both.1.symm)]

/-- One automaton has the states of another and its edges, and besides them new ones. -/
structure Joined (a b : Automaton) (new : Nat → Label → Nat → Prop) : Prop where
  entry_eq : b.entry = a.entry
  size_eq : b.size = a.size
  accept_eq : ∀ i, b.accept i = a.accept i
  kept : ∀ i, (∀ label j, ¬ new i label j) → b.state i = a.state i
  edge_iff : ∀ i label j,
    (label, j) ∈ b.labelledTargets i ↔ (label, j) ∈ a.labelledTargets i ∨ new i label j

namespace Joined

variable {a b : Automaton} {new other : Nat → Label → Nat → Prop}

theorem refl (a : Automaton) : Joined a a fun _ _ _ => False where
  entry_eq := rfl
  size_eq := rfl
  accept_eq _ := rfl
  kept _ _ := rfl
  edge_iff _ _ _ := (or_iff_left id).symm

theorem congr (same : ∀ i label j, new i label j ↔ other i label j) (joined : Joined a b new) :
    Joined a b other where
  entry_eq := joined.entry_eq
  size_eq := joined.size_eq
  accept_eq := joined.accept_eq
  kept i none := joined.kept i fun label j mem => none label j ((same i label j).mp mem)
  edge_iff i label j := (joined.edge_iff i label j).trans (or_congr_right (same i label j))

theorem addEdge (joined : Joined a b new) {source target : Nat} (sourceInside : source < a.size)
    (targetInside : target < a.size) (label : Label) :
    Joined a (b.addEdge source label target)
      fun i m j => new i m j ∨ i = source ∧ m = label ∧ j = target := by
  have inSource : source < b.size := joined.size_eq ▸ sourceInside
  have inTarget : target < b.size := joined.size_eq ▸ targetInside
  have changed : ∀ i, (b.addEdge source label target).state i =
      if i = source then (b.state source).addEdge ⟨label, target⟩ else b.state i := by
    intro i
    rw [Automaton.addEdge, dif_pos inTarget, state_setState]
    simp [inSource]
  refine ⟨?_, ?_, ?_, ?_, ?_⟩
  · rw [← joined.entry_eq, Automaton.addEdge, dif_pos inTarget]
    rfl
  · rw [← joined.size_eq, Automaton.addEdge, dif_pos inTarget]
    exact size_setState
  · intro i
    rw [← joined.accept_eq, Automaton.accept, Automaton.accept, changed]
    split
    · rename_i same
      rw [same, State.addEdge]
      split <;> rfl
    · rfl
  · intro i none
    have ne : i ≠ source := fun same => none label target (.inr ⟨same, rfl, rfl⟩)
    rw [changed, if_neg ne]
    exact joined.kept i fun m j mem => none m j (.inl mem)
  · intro i m j
    rw [← or_assoc, ← joined.edge_iff, mem_labelledTargets, mem_labelledTargets, edges, edges,
      changed]
    split
    · rename_i same
      rw [State.mem_addEdge, same]
      simp
    · rename_i ne
      simp [ne]

theorem link (joined : Joined a b new) {source target : Nat} (sourceInside : source < a.size)
    (targetInside : target < a.size) :
    Joined a (b.link source target)
      fun i m j => new i m j ∨ i = source ∧ m = .epsilon ∧ j = target :=
  joined.addEdge sourceInside targetInside .epsilon

theorem run (joined : Joined a b new) {i j : Nat} {w : List UInt8}
    (run : Run a.labelledTargets i w j) : Run b.labelledTargets i w j :=
  run.mono fun x e edge => (joined.edge_iff x e.1 e.2).mpr (.inl edge)

end Joined

/-- One automaton grew beside the states of another: these are as they were, the new ones accept
nothing, and no edge joins the two kinds. -/
structure Extends (a b : Automaton) : Prop where
  entry_eq : b.entry = a.entry
  size_le : a.size ≤ b.size
  old : ∀ i, i < a.size → b.state i = a.state i
  plain : ∀ i, a.size ≤ i → b.accept i = none
  apart : ∀ i label j, (label, j) ∈ b.labelledTargets i → a.size ≤ i → a.size ≤ j

namespace Extends

variable {a b c : Automaton} {new : Nat → Label → Nat → Prop}

theorem refl (a : Automaton) : Extends a a where
  entry_eq := rfl
  size_le := Nat.le_refl _
  old _ _ := rfl
  plain i beyond := congrArg State.accept (state_eq_default beyond)
  apart i label j edge beyond := by
    rw [labelledTargets_beyond beyond] at edge
    cases edge

theorem trans (first : Extends a b) (second : Extends b c) : Extends a c where
  entry_eq := second.entry_eq.trans first.entry_eq
  size_le := Nat.le_trans first.size_le second.size_le
  old i inside :=
    (second.old i (Nat.lt_of_lt_of_le inside first.size_le)).trans (first.old i inside)
  plain i beyond := by
    by_cases inside : i < b.size
    · rw [accept, second.old i inside]
      exact first.plain i beyond
    · exact second.plain i (Nat.le_of_not_lt inside)
  apart i label j edge beyond := by
    by_cases inside : i < b.size
    · rw [labelledTargets, edges, second.old i inside] at edge
      exact first.apart i label j edge beyond
    · exact Nat.le_trans first.size_le (second.apart i label j edge (Nat.le_of_not_lt inside))

theorem addState (extension : Extends a b) : Extends a b.addState.1 where
  entry_eq := extension.entry_eq
  size_le := by
    rw [size_addState]
    exact Nat.le_succ_of_le extension.size_le
  old i inside := (state_addState b i).trans (extension.old i inside)
  plain i beyond := by
    rw [accept, state_addState]
    exact extension.plain i beyond
  apart i label j edge beyond := by
    rw [labelledTargets_addState] at edge
    exact extension.apart i label j edge beyond

theorem join (extension : Extends a b) (joined : Joined b c new)
    (outside : ∀ i label j, new i label j → a.size ≤ i ∧ a.size ≤ j) : Extends a c where
  entry_eq := joined.entry_eq.trans extension.entry_eq
  size_le := joined.size_eq ▸ extension.size_le
  old i inside := by
    rw [← extension.old i inside]
    refine joined.kept i fun label j mem => ?_
    have beyond := (outside i label j mem).1
    omega
  plain i beyond := (joined.accept_eq i).trans (extension.plain i beyond)
  apart i label j edge beyond := by
    rcases (joined.edge_iff i label j).mp edge with old | mem
    · exact extension.apart i label j old beyond
    · exact (outside i label j mem).2

theorem labelledTargets_old (extension : Extends a b) {i : Nat} (inside : i < a.size) :
    b.labelledTargets i = a.labelledTargets i := by
  rw [labelledTargets, edges, extension.old i inside]
  rfl

theorem accept_old (extension : Extends a b) {i : Nat} (inside : i < a.size) :
    b.accept i = a.accept i :=
  congrArg State.accept (extension.old i inside)

theorem lt_iff_of_edge (extension : Extends a b) {i j : Nat} {label : Label}
    (edge : (label, j) ∈ b.labelledTargets i) : i < a.size ↔ j < a.size := by
  by_cases inside : i < a.size
  · rw [extension.labelledTargets_old inside] at edge
    have target := labelledTarget_lt edge
    simp [inside, target]
  · have target := extension.apart i label j edge (Nat.le_of_not_lt inside)
    omega

theorem run (extension : Extends a b) {i j : Nat} {w : List UInt8}
    (run : Run a.labelledTargets i w j) : Run b.labelledTargets i w j := by
  refine run.mono fun x e edge => ?_
  rwa [extension.labelledTargets_old (lt_size_of_mem_edges (mem_labelledTargets.mp edge))]

end Extends

end Munch.Automaton
