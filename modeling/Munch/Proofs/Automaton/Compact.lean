import Munch.Proofs.Automaton.Layers
import Munch.Proofs.Dfa.Renumbering

/-!
The compact form as a copy of what can be reached.

A renumbering that keeps the order of edges takes searches to searches and paths to paths, so what it
takes to each other has one compact form (`Renumbers.compact_eq`) and comes to the same accept markers
along every string of labels (`Renumbers.markers_eq`).  The states of the compact form are the reachable
states in the order in which they were found, under such a renumbering, and no edge is lost
(`map_rename_states_compact`); so the compact form of a compact form is the same again
(`compact_compact`).
-/

set_option autoImplicit false

namespace Munch

def State.rename (f : Nat → Nat) (s : State) : State :=
  ⟨s.edges.map (Edge.rename f), s.accept⟩

namespace Automaton

/-- Where the edges with a label lead from listed states, edge by edge. -/
def follow (a : Automaton) (l : Label) (is : List Nat) : List Nat :=
  is.flatMap fun i => ((a.edges i).filter fun e => e.label = l).map Edge.target

/-- The ends of the paths from listed states that spell a string of labels, path by path. -/
def ends (a : Automaton) : List Label → List Nat → List Nat
  | [], is => is
  | l :: w, is => a.ends w (a.follow l is)

/-- The accept markers that a string of labels leads to from the entry, path by path. -/
def markers (a : Automaton) (w : List Label) : List (Option Nat) :=
  (a.ends w [a.entry]).map a.accept

section Copy

variable {f : Nat → Nat} {a b : Automaton} {i : Nat} {is : List Nat}

theorem mem_reachable_follow (inside : ∀ i ∈ is, i ∈ a.reachable) (l : Label) :
    ∀ j ∈ a.follow l is, j ∈ a.reachable := by
  intro j mem
  obtain ⟨i, listed, found⟩ := List.mem_flatMap.mp mem
  obtain ⟨e, edge, rfl⟩ := List.mem_map.mp found
  exact target_mem_reachable (inside i listed) (List.mem_filter.mp edge).1

theorem mem_reachable_ends (inside : ∀ i ∈ is, i ∈ a.reachable) (w : List Label) :
    ∀ j ∈ a.ends w is, j ∈ a.reachable := by
  induction w generalizing is with
  | nil => exact inside
  | cons l rest ih => exact ih (mem_reachable_follow inside l)

variable (ordered : ∀ i ∈ a.reachable, b.edges (f i) = (a.edges i).map (Edge.rename f))

include ordered

theorem follow_map (inside : ∀ i ∈ is, i ∈ a.reachable) (l : Label) :
    b.follow l (is.map f) = (a.follow l is).map f := by
  induction is with
  | nil => rfl
  | cons i rest ih =>
      have later := ih fun j mem => inside j (List.mem_cons_of_mem i mem)
      simp only [follow, List.map_cons, List.flatMap_cons, List.map_append] at later ⊢
      rw [later, ordered i (inside i List.mem_cons_self), List.filter_map, List.map_map, List.map_map]
      rfl

theorem ends_map (inside : ∀ i ∈ is, i ∈ a.reachable) (w : List Label) :
    b.ends w (is.map f) = (a.ends w is).map f := by
  induction w generalizing is with
  | nil => rfl
  | cons l rest ih =>
      rw [ends, follow_map ordered inside, ends, ih (mem_reachable_follow inside l)]

/-- What is the same graph, with edges in the same order, comes to the same markers along every path. -/
theorem Renumbers.markers_eq (same : Renumbers f a b) (states : a.isEmpty = false)
    (w : List Label) : b.markers w = a.markers w := by
  have inside : ∀ i ∈ [a.entry], i ∈ a.reachable := by
    simpa using entry_mem_reachable states
  have paths := ends_map ordered inside w
  rw [List.map_singleton, ← same.entry_eq states] at paths
  rw [markers, paths, List.map_map, markers]
  exact List.map_congr_left fun i mem => same.accept_eq i (mem_reachable_ends inside w i mem)

theorem Renumbers.compact_eq (same : Renumbers f a b) : b.compact = a.compact := by
  have order : b.reachable = a.reachable.map f := by
    refine same.reachable_eq_map fun i mem => ?_
    rw [targets, ordered i mem, targets, List.map_map, List.map_map]
    rfl
  rw [compact, order, compact]
  refine ofNodes_map same.injective (fun _ => reachable_closed) (fun i mem => ?_) same.accept_eq
  rw [labelledTargets, ordered i mem, labelledTargets, List.map_map, List.map_map]
  rfl

end Copy

section Compact

variable (a : Automaton)

theorem edges_numbered {k : Nat} (mem : k ∈ a.compact.reachable) :
    a.edges (a.numbered k) = (a.compact.edges k).map (Edge.rename a.numbered) :=
  (edges_compact (getElem?_reachable (size_compact a ▸ reachable_lt mem))).symm

theorem compact_compact : a.compact.compact = a.compact :=
  (a.renumbers_compact.compact_eq fun _ => a.edges_numbered).symm

theorem map_rename_states_compact :
    a.compact.states.toList.map (State.rename a.numbered) = a.reachable.map a.state := by
  rw [compact, ofNodes, List.map_map]
  refine List.map_congr_left fun i mem => ?_
  rw [Function.comp_apply, State.rename, map_numberEdges_reachable mem]
  rfl

theorem compact_of_isEmpty (none : a.isEmpty = true) : a.compact = a := by
  have size : a.states.size = 0 := isEmpty_iff.mp none
  have compacted : a.compact.states.size = 0 := isEmpty_iff.mp (a.isEmpty_compact.trans none)
  have bound := a.entry_lt
  refine ext_of_states ?_ (by omega : 0 = a.entry)
  rw [Array.eq_empty_of_size_eq_zero size, Array.eq_empty_of_size_eq_zero compacted]

theorem markers_compact (w : List Label) : a.compact.markers w = a.markers w := by
  cases states : a.isEmpty with
  | true => rw [a.compact_of_isEmpty states]
  | false =>
      exact (a.renumbers_compact.markers_eq (fun _ => a.edges_numbered)
        (a.isEmpty_compact.trans states) w).symm

theorem mem_reachable_iff_leads {i : Nat} :
    i ∈ a.reachable ↔ i < a.size ∧ Leads a.targets a.entry i := by
  constructor
  · intro mem
    exact ⟨reachable_lt mem, (reachable_explored (nonempty_of_mem_reachable mem)).reached i mem⟩
  · intro ⟨inside, leads⟩
    have states := isEmpty_eq_false_iff.mpr (Nat.zero_lt_of_lt inside)
    exact (reachable_explored states).mem_iff.mpr leads

theorem head?_reachable : a.reachable.head? = if a.isEmpty then none else some a.entry := by
  cases states : a.isEmpty with
  | true => simp [reachable, states]
  | false => simpa using (reachable_explored states).head

theorem reachable_ascending : a.reachable.Pairwise fun i j =>
    distance a.targets a.entry i ≤ distance a.targets a.entry j := by
  cases states : a.isEmpty with
  | true => simp [reachable, states]
  | false =>
      rw [reachable_eq_exploreFrom states (Nat.le_refl _)]
      exact exploreFrom_ascending a.targets_closed (List.mem_range.mpr (entry_lt_size states))
        (by simp)

end Compact

/-- The search lists the states that the entry leads to, each once, the entry first and in ascending
distance from it.  The compact form has these states in this order, with their markers and all their
edges in order, under the numbers of their places; it is its own compact form, and every string of
labels leads to the same markers in it. -/
theorem reachable_compact_spec (a : Automaton) :
    (∀ i, i ∈ a.reachable ↔ i < a.size ∧ Leads a.targets a.entry i) ∧
      a.reachable.Nodup ∧
      a.reachable.head? = (if a.isEmpty then none else some a.entry) ∧
      a.reachable.Pairwise (fun i j =>
        distance a.targets a.entry i ≤ distance a.targets a.entry j) ∧
      a.compact.entry = 0 ∧
      (List.range a.compact.size).map a.numbered = a.reachable ∧
      a.compact.states.toList.map (State.rename a.numbered) = a.reachable.map a.state ∧
      a.compact.compact = a.compact ∧
      ∀ w, a.compact.markers w = a.markers w ∧ a.compact.compact.markers w = a.markers w := by
  have same := a.markers_compact
  refine ⟨fun i => a.mem_reachable_iff_leads, nodup_reachable a, a.head?_reachable,
    a.reachable_ascending, rfl, ?_, a.map_rename_states_compact, a.compact_compact, fun w => ?_⟩
  · rw [size_compact, ← reachable_eq_map_numbered]
  · rw [a.compact_compact]
    exact ⟨same w, same w⟩

end Automaton

end Munch
