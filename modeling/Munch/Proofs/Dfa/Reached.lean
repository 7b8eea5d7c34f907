import Mathlib.Data.Set.Card
import Munch.Proofs.Dfa.Subset

/-!
The states that byte strings lead to, and the states of the automaton of sets.

`a.reached w` is the set of the states that the byte string `w` leads to from the entry, and
`a.memberSet k` the set of the members of the set that state `k` of the automaton of sets stands for.
The automaton of sets arrives at a state on a byte string exactly if the string leads somewhere
(`arrival_subsetDfa_isSome_iff`), the members of that state are then the states that the string leads
to (`memberSet_of_arrival`), and the state accepts the lowest rule among them
(`isLowest_accept_of_arrival`).  No two states have the same members (`memberSet_injOn`) and each is
arrived at, so there are as many states as non-empty sets that byte strings lead to
(`size_subsetDfa`).
-/

set_option autoImplicit false

namespace Munch

theorem StateSet.ext_of_contains {s t : StateSet} (same : ∀ i, s.contains i = t.contains i) :
    s = t := by
  obtain ⟨bits⟩ := s
  obtain ⟨others⟩ := t
  congr 1
  exact Nat.eq_of_testBit_eq same

namespace Automaton

variable {a : Automaton} {w : List UInt8} {j k : Nat}

def reached (a : Automaton) (w : List UInt8) : Set Nat :=
  {j | j < a.size ∧ Run a.labelledTargets a.entry w j}

theorem mem_reached_iff (nonempty : a.isEmpty = false) :
    j ∈ a.reached w ↔ Run a.labelledTargets a.entry w j := by
  apply and_iff_right_of_imp
  intro run
  apply reachable_lt
  exact (mem_reachable_iff nonempty).mpr ⟨w, run⟩

theorem reached_of_isEmpty (bare : a.isEmpty = true) : a.reached w = ∅ := by
  simp [reached, isEmpty_iff.mp bare]

/-- The members of the set that a state of the automaton of sets stands for. -/
def memberSet (a : Automaton) (k : Nat) : Set Nat :=
  {j | ∃ t, a.standsFor k = some t ∧ t.contains j = true}

theorem mem_memberSet_iff {t : StateSet} (stands : a.standsFor k = some t) :
    j ∈ a.memberSet k ↔ t.contains j = true := by
  simp [memberSet, stands]

theorem arrival_subsetDfa_of_isEmpty (bare : a.isEmpty = true) : a.subsetDfa.arrival w = none := by
  rw [Option.eq_none_iff_forall_ne_some]
  intro k arrives
  obtain ⟨t, stands, -⟩ := arrival_subsetDfa_eq_some_iff.mp arrives
  simp [standsFor, subsets, bare] at stands

theorem exists_standsFor_of_lt (inside : k < a.subsetDfa.size) : ∃ t, a.standsFor k = some t := by
  obtain ⟨w, arrives⟩ := a.subsetDfa.exists_arrival inside
  obtain ⟨t, stands, -⟩ := arrival_subsetDfa_eq_some_iff.mp arrives
  exact ⟨t, stands⟩

theorem memberSet_injOn (a : Automaton) : Set.InjOn a.memberSet {k | k < a.subsetDfa.size} := by
  intro k insideK l insideL same
  obtain ⟨s, first⟩ := exists_standsFor_of_lt insideK
  obtain ⟨t, second⟩ := exists_standsFor_of_lt insideL
  have sets : s = t := by
    apply StateSet.ext_of_contains
    intro j
    rw [Bool.eq_iff_iff, ← mem_memberSet_iff first, ← mem_memberSet_iff second, same]
  rw [sets] at first
  exact standsFor_injective first second

section EpsilonFree

variable (noEpsilon : ∀ i j, (Label.epsilon, j) ∉ a.labelledTargets i)

include noEpsilon

/-- The members of the state arrived at are the states that the byte string leads to. -/
theorem memberSet_of_arrival (arrives : a.subsetDfa.arrival w = some k) :
    a.memberSet k = a.reached w := by
  cases states : a.isEmpty with
  | true =>
      rw [arrival_subsetDfa_of_isEmpty states] at arrives
      cases arrives
  | false =>
      obtain ⟨t, stands, run⟩ := arrival_subsetDfa_eq_some_iff.mp arrives
      ext j
      rw [mem_memberSet_iff stands, mem_reached_iff states,
        contains_of_run_subsetEdges noEpsilon run]
      simp [StateSet.contains_singleton]

theorem arrival_subsetDfa_isSome_iff :
    (a.subsetDfa.arrival w).isSome = true ↔ (a.reached w).Nonempty := by
  cases states : a.isEmpty with
  | true => simp [arrival_subsetDfa_of_isEmpty states, reached_of_isEmpty states]
  | false =>
      have stops : a.subsetDfa.arrival w = none ↔ ∀ j, j ∉ a.reached w := by
        simp only [mem_reached_iff states]
        rw [← response_subsetDfa_eq_none_iff states noEpsilon, Dfa.response_eq_map_arrival,
          Option.map_eq_none_iff]
      rw [Option.isSome_iff_ne_none, Ne, stops, not_forall_not]
      rfl

theorem isLowest_accept_of_arrival (arrives : a.subsetDfa.arrival w = some k) :
    IsLowest (fun rule => ∃ j ∈ a.reached w, a.accept j = some rule) (a.subsetDfa.accept k) := by
  obtain ⟨t, stands, -⟩ := arrival_subsetDfa_eq_some_iff.mp arrives
  rw [accept_subsetDfa stands, ← memberSet_of_arrival noEpsilon arrives]
  apply isLowest_subsetAccept.congr
  intro rule
  simp only [mem_memberSet_iff stands]

theorem arrival_subsetDfa_eq_iff {u v : List UInt8} :
    a.subsetDfa.arrival u = a.subsetDfa.arrival v ↔ a.reached u = a.reached v := by
  have stopped : ∀ w, a.subsetDfa.arrival w = none ↔ a.reached w = ∅ := by
    intro w
    rw [← Set.not_nonempty_iff_eq_empty, ← arrival_subsetDfa_isSome_iff noEpsilon]
    simp
  cases first : a.subsetDfa.arrival u with
  | none => rw [(stopped u).mp first, eq_comm, stopped, eq_comm]
  | some k =>
      cases second : a.subsetDfa.arrival v with
      | none =>
          rw [(stopped v).mp second, ← stopped u, first]
      | some l =>
          rw [← memberSet_of_arrival noEpsilon first, ← memberSet_of_arrival noEpsilon second,
            a.memberSet_injOn.eq_iff (Dfa.arrival_lt first) (Dfa.arrival_lt second),
            Option.some.injEq]

theorem image_memberSet :
    a.memberSet '' {k | k < a.subsetDfa.size} = {s | s.Nonempty ∧ ∃ w, a.reached w = s} := by
  ext s
  constructor
  · intro given
    obtain ⟨k, inside, members⟩ := given
    obtain ⟨w, arrives⟩ := a.subsetDfa.exists_arrival inside
    have reached := memberSet_of_arrival noEpsilon arrives
    rw [← members, reached]
    constructor
    · rw [← arrival_subsetDfa_isSome_iff noEpsilon, arrives]
      rfl
    · exact ⟨w, rfl⟩
  · intro given
    obtain ⟨nonempty, w, reached⟩ := given
    rw [← reached, ← arrival_subsetDfa_isSome_iff noEpsilon, Option.isSome_iff_exists] at nonempty
    obtain ⟨k, arrives⟩ := nonempty
    refine ⟨k, Dfa.arrival_lt arrives, ?_⟩
    rw [memberSet_of_arrival noEpsilon arrives, reached]

/-- There are as many states as non-empty sets that byte strings lead to. -/
theorem size_subsetDfa :
    (a.subsetDfa.size : ℕ∞) = {s | s.Nonempty ∧ ∃ w, a.reached w = s}.encard := by
  have below : {k | k < a.subsetDfa.size} = (Finset.range a.subsetDfa.size : Set Nat) := by
    ext k
    simp
  rw [← image_memberSet noEpsilon, a.memberSet_injOn.encard_image, below,
    Set.encard_coe_eq_coe_finsetCard, Finset.card_range]

end EpsilonFree

end Automaton

end Munch
