import Munch.Proofs.Dfa.Canonical

/-!
Automata with other markers.

Changing the markers of an automaton changes none of its runs.  The states are found in the same order,
so a changed automaton is frozen into the changed form of the frozen one (`freeze_mapAccept`), and a
frozen automaton with other markers is again a frozen one.  Its walks are the same, and its responses
are the changed responses (`response_mapAccept`).
-/

set_option autoImplicit false

namespace Munch

namespace Automaton

def mapAccept (a : Automaton) (f : Option Nat → Option Nat) : Automaton where
  states := a.states.map fun s => { s with accept := f s.accept }
  entry := a.entry
  target_lt := by
    intro s mem e edge
    obtain ⟨t, old, rfl⟩ := Array.mem_map.mp mem
    rw [Array.size_map]
    exact a.target_lt t old e edge
  entry_lt := by
    rw [Array.size_map]
    exact a.entry_lt

section MapAccept

variable {f : Option Nat → Option Nat}

@[simp]
theorem size_mapAccept (a : Automaton) : (a.mapAccept f).size = a.size := by
  simp [size, mapAccept]

@[simp]
theorem edges_mapAccept (a : Automaton) (i : Nat) : (a.mapAccept f).edges i = a.edges i := by
  unfold edges state mapAccept
  rw [Array.getElem?_map]
  cases a.states[i]? <;> rfl

theorem accept_mapAccept (blank : f none = none) (a : Automaton) (i : Nat) :
    (a.mapAccept f).accept i = f (a.accept i) := by
  unfold accept state mapAccept
  rw [Array.getElem?_map]
  cases a.states[i]? with
  | none => exact blank.symm
  | some s => rfl

@[simp]
theorem labelledTargets_mapAccept (a : Automaton) :
    (a.mapAccept f).labelledTargets = a.labelledTargets := by
  funext i
  simp [labelledTargets]

theorem reachable_mapAccept (a : Automaton) : (a.mapAccept f).reachable = a.reachable := by
  have targets : (a.mapAccept f).targets = a.targets := by
    funext i
    simp [Automaton.targets]
  simp only [reachable, isEmpty, size_mapAccept, targets]
  rfl

theorem isDeterministic_mapAccept (a : Automaton) :
    (a.mapAccept f).isDeterministic = a.isDeterministic := by
  have states : ∀ i, ((a.mapAccept f).state i).isDeterministic = (a.state i).isDeterministic := by
    intro i
    have same : ((a.mapAccept f).state i).edges = (a.state i).edges := a.edges_mapAccept i
    simp [State.isDeterministic, same]
  simp [isDeterministic, reachable_mapAccept, states]

theorem freeze_mapAccept (blank : f none = none) (a : Automaton) :
    (a.mapAccept f).freeze = a.freeze.mapAccept f := by
  have accept : (a.mapAccept f).accept = f ∘ a.accept := funext (a.accept_mapAccept blank)
  rw [freeze, compact, reachable_mapAccept, labelledTargets_mapAccept, accept]
  apply ext_of_states
  · simp [freeze, compact, sortEdges, ofNodes, mapAccept, Function.comp_def]
  · rfl

end MapAccept

end Automaton

namespace Dfa

section MapAccept

variable {f : Option Nat → Option Nat}

def mapAccept (d : Dfa) (f : Option Nat → Option Nat) (blank : f none = none) : Dfa where
  graph := d.graph.mapAccept f
  frozen := by
    obtain ⟨a, deterministic, eq⟩ := d.frozen
    refine ⟨a.mapAccept f, ?_, ?_⟩
    · rw [a.isDeterministic_mapAccept]
      exact deterministic
    · rw [eq, a.freeze_mapAccept blank]

variable {blank : f none = none}

@[simp]
theorem accept_mapAccept (d : Dfa) (i : Nat) : (d.mapAccept f blank).accept i = f (d.accept i) :=
  d.graph.accept_mapAccept blank i

@[simp]
theorem isEmpty_mapAccept (d : Dfa) : (d.mapAccept f blank).isEmpty = d.isEmpty := by
  simp [isEmpty, Automaton.isEmpty, mapAccept]

@[simp]
theorem next_mapAccept (d : Dfa) (i : Nat) (b : UInt8) :
    (d.mapAccept f blank).next i b = d.next i b := by
  simp [next, mapAccept]

theorem walk_mapAccept (d : Dfa) (i : Nat) (w : List UInt8) :
    (d.mapAccept f blank).walk i w = d.walk i w := by
  induction w generalizing i with
  | nil => rfl
  | cons b rest ih => simp [walk, ih]

theorem response_mapAccept (d : Dfa) (w : List UInt8) :
    (d.mapAccept f blank).response w = (d.response w).map f := by
  have entry : (d.mapAccept f blank).entry = d.entry := rfl
  have accept : (d.mapAccept f blank).accept = f ∘ d.accept := funext d.accept_mapAccept
  simp only [response, responseFrom, isEmpty_mapAccept, entry, walk_mapAccept, accept]
  split
  · rfl
  · rw [Option.map_map]

end MapAccept

end Dfa

end Munch
