import Munch.Proofs.Checked.Find
import Munch.Proofs.Checked.Determinize
import Munch.Proofs.Dfa.Reached

/-!
Freezing an automaton.

An automaton is deterministic if no state that a byte string leads to from the entry has an edge that
consumes nothing or two edges for one byte.  This is what the assertion before freezing tests
(`isDeterministic_iff`), so the runs of an automaton say whether it is frozen or refused.  A byte string
leads to at most one state of a deterministic automaton (`reached_subsingleton`), and the frozen
automaton arrives there under another number (`arrival_freeze_isSome_iff`, `accept_freeze_of_reached`).
The edges of a frozen state are for ascending bytes (`edges_bytes_ascending`).
-/

set_option autoImplicit false

namespace Munch

namespace Automaton

variable {a : Automaton} {w : List UInt8} {i j : Nat}

/-- No state that a byte string leads to has an edge that consumes nothing, or two edges for the same
byte. -/
def Deterministic (a : Automaton) : Prop :=
  ∀ w, ∀ i ∈ a.reached w,
    (∀ e ∈ a.edges i, e.label ≠ .epsilon) ∧ (a.edges i).Pairwise fun e f => e.label ≠ f.label

theorem mem_reachable_iff_reached : i ∈ a.reachable ↔ ∃ w, i ∈ a.reached w := by
  cases states : a.isEmpty with
  | true => simp [reachable, states, reached_of_isEmpty states]
  | false => simp only [mem_reachable_iff states, mem_reached_iff states]

theorem isDeterministic_iff : a.isDeterministic = true ↔ a.Deterministic := by
  have labels : ∀ i, (a.state i).isDeterministic = true ↔
      (∀ e ∈ a.edges i, e.label ≠ .epsilon) ∧
        (a.edges i).Pairwise fun e f => e.label ≠ f.label := by
    intro i
    rw [State.isDeterministic_iff, Label.Unambiguous, List.Nodup, List.pairwise_map]
    simp [edges]
  simp only [isDeterministic, List.all_eq_true, labels, mem_reachable_iff_reached, Deterministic]
  constructor
  · intro each w i leads
    exact each i ⟨w, leads⟩
  · intro each i given
    obtain ⟨w, leads⟩ := given
    exact each w i leads

end Automaton

namespace Dfa

variable {a : Automaton} {deterministic : a.isDeterministic = true} {w : List UInt8} {j k : Nat}

/-- A frozen automaton arrives where the automaton that was frozen gets. -/
theorem arrival_freeze_iff_reached :
    (freeze a deterministic).arrival w = some k ↔ ∃ j ∈ a.reached w, a.reachable[k]? = some j := by
  rw [arrival_freeze_eq_some_iff]
  apply exists_congr
  intro j
  rw [and_comm]
  apply and_congr_left
  intro listed
  have nonempty := Automaton.nonempty_of_mem_reachable (List.mem_of_getElem? listed)
  exact (Automaton.mem_reached_iff nonempty).symm

theorem exists_arrival_freeze (leads : j ∈ a.reached w) :
    ∃ k, (freeze a deterministic).arrival w = some k ∧ a.reachable[k]? = some j := by
  have listed := Automaton.mem_reachable_iff_reached.mpr ⟨w, leads⟩
  obtain ⟨k, found⟩ := List.mem_iff_getElem?.mp listed
  exact ⟨k, arrival_freeze_iff_reached.mpr ⟨j, leads, found⟩, found⟩

theorem arrival_freeze_isSome_iff :
    ((freeze a deterministic).arrival w).isSome = true ↔ (a.reached w).Nonempty := by
  rw [Option.isSome_iff_exists]
  constructor
  · intro given
    obtain ⟨k, arrives⟩ := given
    obtain ⟨j, leads, -⟩ := arrival_freeze_iff_reached.mp arrives
    exact ⟨j, leads⟩
  · intro given
    obtain ⟨j, leads⟩ := given
    obtain ⟨k, arrives, -⟩ := exists_arrival_freeze leads
    exact ⟨k, arrives⟩

theorem reached_subsingleton (deterministic : a.isDeterministic = true) (w : List UInt8) :
    (a.reached w).Subsingleton := by
  have arrives : ∀ i ∈ a.reached w,
      ∃ k, (freeze a deterministic).arrival w = some k ∧ a.reachable[k]? = some i :=
    fun i leads => exists_arrival_freeze leads
  intro i leadsI j leadsJ
  obtain ⟨k, arrivesI, atI⟩ := arrives i leadsI
  obtain ⟨l, arrivesJ, atJ⟩ := arrives j leadsJ
  rw [arrivesI] at arrivesJ
  cases arrivesJ
  rw [atI] at atJ
  exact Option.some.inj atJ

theorem accept_freeze_of_reached (arrives : (freeze a deterministic).arrival w = some k)
    (leads : j ∈ a.reached w) : (freeze a deterministic).accept k = a.accept j := by
  obtain ⟨i, leadsI, atK⟩ := arrival_freeze_iff_reached.mp arrives
  rw [accept_freeze atK, reached_subsingleton deterministic w leadsI leads]

theorem edges_bytes_ascending (d : Dfa) (i : Nat) :
    ∃ bytes : List UInt8, (d.graph.edges i).map Edge.label = bytes.map Label.byte ∧
      bytes.Pairwise (· < ·) := by
  have each : ∀ label ∈ (d.graph.edges i).map Edge.label, label ∈ Set.range Label.byte := by
    intro label mem
    cases label with
    | epsilon => exact absurd mem (d.graph_unambiguous i).1
    | byte b => exact ⟨b, rfl⟩
  obtain ⟨bytes, eq⟩ : (d.graph.edges i).map Edge.label ∈ Set.range (List.map Label.byte) := by
    rw [Set.range_list_map]
    exact each
  refine ⟨bytes, eq.symm, ?_⟩
  have ascending : (bytes.map Label.byte).Pairwise fun l m => l.rank < m.rank := by
    rw [eq]
    exact List.pairwise_map.mpr (d.edges_ascending i)
  apply (List.pairwise_map.mp ascending).imp
  intro b c less
  simp only [Label.rank] at less
  rw [UInt8.lt_iff_toNat_lt]
  omega

end Dfa

namespace Checked

theorem ofAutomaton_of_not {a : Automaton} (ambiguous : ¬ a.isDeterministic = true) :
    ofAutomaton a = .error (.fault .ambiguous) := by
  rw [ofAutomaton, compact_eq, Dfa.ofAutomaton, dif_neg ambiguous]
  rfl

/-- A deterministic automaton is frozen into one that walks as it does, all of whose states are arrived
at and whose edges can be looked up by bisection; any other automaton is refused. -/
theorem freeze_faithful (a : Automaton) :
    (a.Deterministic →
      ∃ d, ofAutomaton a = .ok d ∧ Dfa.ofAutomaton a = .ok d ∧
        (∀ w, (a.reached w).Subsingleton) ∧
        (∀ w, (d.arrival w).isSome = true ↔ (a.reached w).Nonempty) ∧
        (∀ w, ∀ k ∈ d.arrival w, ∀ j ∈ a.reached w, d.accept k = a.accept j) ∧
        (∀ k < d.size, ∃ w, d.arrival w = some k) ∧
        (∀ k, ∃ bytes : List UInt8, (d.graph.edges k).map Edge.label = bytes.map Label.byte ∧
          bytes.Pairwise (· < ·)) ∧
        ∀ k < d.size, ∀ b, next d k b = .ok (d.next k b) ∧
          d.next k b = ((d.graph.edges k).find? fun e => e.label = .byte b).map Edge.target) ∧
    (¬ a.Deterministic →
      ofAutomaton a = .error (.fault .ambiguous) ∧ Dfa.ofAutomaton a = .error .ambiguous) := by
  rw [← Automaton.isDeterministic_iff]
  constructor
  · intro deterministic
    refine ⟨.freeze a deterministic, ofAutomaton_eq deterministic, dif_pos deterministic,
      Dfa.reached_subsingleton deterministic, ?_, ?_, ?_, ?_, ?_⟩
    · intro w
      exact Dfa.arrival_freeze_isSome_iff
    · intro w k arrives j leads
      exact Dfa.accept_freeze_of_reached arrives leads
    · intro k inside
      exact Dfa.exists_arrival _ inside
    · exact Dfa.edges_bytes_ascending _
    · intro k inside b
      exact ⟨next_eq inside b, Dfa.next_eq_find? _ k b⟩
  · intro ambiguous
    rw [ofAutomaton_of_not ambiguous, Dfa.ofAutomaton, dif_neg ambiguous]
    exact ⟨rfl, rfl⟩

end Checked

end Munch
