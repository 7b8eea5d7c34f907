import Munch.Dfa.Minimal
import Munch.Proofs.Automaton.Run

/-!
Walks of frozen automata.

The edges of a frozen state ascend by byte (`edges_ascending`), so bisection finds the edge for a byte
exactly if there is one (`next_eq_some_iff`), as a search through all edges does (`next_eq_find?`), and
the walk on a byte string is the run of the graph (`walk_eq_some_iff`).  The walk from the entry stops or
arrives at a state, and every state is one at which some walk arrives (`exists_arrival`).  The response
of an automaton to a byte string says whether the walk from the entry stops, and which rule it arrives
at if it does not; freezing takes the response from the runs of the automaton that is frozen
(`response_freeze_eq_some_iff`).
-/

set_option autoImplicit false

namespace Munch

theorem Label.rank_injective {l m : Label} (same : l.rank = m.rank) : l = m := by
  cases l <;> cases m <;> simp only [Label.rank] at same
  · rfl
  · omega
  · omega
  · exact congrArg Label.byte (UInt8.toNat_inj.mp (by omega))

theorem Edge.le_trans (e f g : Edge) (first : e.le f = true) (second : f.le g = true) :
    e.le g = true := by
  simp only [Edge.le, Bool.or_eq_true, Bool.and_eq_true, decide_eq_true_eq] at first second ⊢
  omega

theorem Edge.le_total (e f : Edge) : (e.le f || f.le e) = true := by
  simp only [Edge.le, Bool.or_eq_true, Bool.and_eq_true, decide_eq_true_eq]
  omega

theorem Edge.rank_le_of_le {e f : Edge} (le : e.le f = true) : e.label.rank ≤ f.label.rank := by
  simp only [Edge.le, Bool.or_eq_true, Bool.and_eq_true, decide_eq_true_eq] at le
  omega

def Ascending (edges : List Edge) : Prop :=
  edges.Pairwise fun e f => e.label.rank < f.label.rank

theorem ascending_mergeSort {edges : List Edge} (unambiguous : (edges.map Edge.label).Nodup) :
    Ascending (edges.mergeSort Edge.le) := by
  have sorted := List.pairwise_mergeSort Edge.le_trans Edge.le_total edges
  have distinct : ((edges.mergeSort Edge.le).map Edge.label).Nodup :=
    (((List.mergeSort_perm edges Edge.le).map Edge.label).nodup_iff).mpr unambiguous
  refine List.Pairwise.imp₂ ?_ sorted (List.pairwise_map.mp distinct)
  intro e f le ne
  exact Nat.lt_of_le_of_ne (Edge.rank_le_of_le le) fun same => ne (Label.rank_injective same)

namespace Ascending

variable {edges : List Edge} {k l : Nat} {e f : Edge}

theorem rank_lt (ascending : Ascending edges) (lt : k < l) (atK : edges[k]? = some e)
    (atL : edges[l]? = some f) : e.label.rank < f.label.rank := by
  obtain ⟨inK, rfl⟩ := List.getElem?_eq_some_iff.mp atK
  obtain ⟨inL, rfl⟩ := List.getElem?_eq_some_iff.mp atL
  exact List.pairwise_iff_getElem.mp ascending k l inK inL lt

theorem bisect_eq_some_iff (ascending : Ascending edges) {rank lo hi : Nat}
    (bound : hi ≤ edges.length) :
    Dfa.bisect edges rank lo hi = some e ↔
      ∃ k, lo ≤ k ∧ k < hi ∧ edges[k]? = some e ∧ e.label.rank = rank := by
  fun_induction Dfa.bisect edges rank lo hi with
  | case1 lo hi lt middle none =>
      have inside : middle < edges.length := by omega
      rw [List.getElem?_eq_getElem inside] at none
      cases none
  | case2 lo hi lt middle f found below ih =>
      rw [ih bound]
      constructor
      · rintro ⟨k, le, rest⟩
        exact ⟨k, by omega, rest⟩
      · rintro ⟨k, le, lt, atK, same⟩
        refine ⟨k, ?_, lt, atK, same⟩
        refine Nat.lt_of_not_le fun before => ?_
        rcases Nat.lt_or_eq_of_le before with less | rfl
        · have order := ascending.rank_lt less atK found
          omega
        · rw [found, Option.some.injEq] at atK
          rw [atK] at below
          omega
  | case3 lo hi lt middle f found notBelow above ih =>
      rw [ih (by omega)]
      constructor
      · rintro ⟨k, le, lt, rest⟩
        exact ⟨k, le, by omega, rest⟩
      · rintro ⟨k, le, lt, atK, same⟩
        refine ⟨k, le, ?_, atK, same⟩
        refine Nat.lt_of_not_le fun after => ?_
        rcases Nat.lt_or_eq_of_le after with less | rfl
        · have order := ascending.rank_lt less found atK
          omega
        · rw [found, Option.some.injEq] at atK
          rw [atK] at above
          omega
  | case4 lo hi lt middle f found notBelow notAbove =>
      constructor
      · intro eq
        cases eq
        exact ⟨middle, by omega, by omega, found, by omega⟩
      · rintro ⟨k, le, lt, atK, same⟩
        rcases Nat.lt_trichotomy k middle with less | rfl | more
        · have order := ascending.rank_lt less atK found
          omega
        · rw [← found, atK]
        · have order := ascending.rank_lt more found atK
          omega
  | case5 lo hi empty =>
      constructor
      · intro eq
        cases eq
      · rintro ⟨k, le, lt, _⟩
        omega

end Ascending

namespace Automaton

@[simp]
theorem size_freeze (a : Automaton) : a.freeze.size = a.reachable.length := by
  simp [freeze, compact]

@[simp]
theorem isEmpty_freeze (a : Automaton) : a.freeze.isEmpty = a.isEmpty := by
  rw [isEmpty, size_freeze, ← size_compact, ← isEmpty, isEmpty_compact]

end Automaton

namespace Dfa

variable {d : Dfa} {i j : Nat} {b : UInt8} {w : List UInt8}

theorem edges_ascending (d : Dfa) (i : Nat) : Ascending (d.graph.edges i) := by
  obtain ⟨a, deterministic, eq⟩ := d.frozen
  rw [eq, Automaton.freeze, Automaton.edges_sortEdges]
  exact ascending_mergeSort (Automaton.compact_unambiguous deterministic i).2

theorem not_mem_epsilon (d : Dfa) (i j : Nat) : (Label.epsilon, j) ∉ d.graph.labelledTargets i := by
  intro mem
  exact (d.graph_unambiguous i).1
    (List.mem_map.mpr ⟨_, Automaton.mem_labelledTargets.mp mem, rfl⟩)

theorem next_eq_some_iff :
    d.next i b = some j ↔ (Label.byte b, j) ∈ d.graph.labelledTargets i := by
  rw [Automaton.mem_labelledTargets, next, Option.map_eq_some_iff]
  constructor
  · rintro ⟨e, found, rfl⟩
    obtain ⟨k, _, _, atK, same⟩ :=
      ((d.edges_ascending i).bisect_eq_some_iff (Nat.le_refl _)).mp found
    have label : e.label = .byte b := Label.rank_injective same
    have mem := List.mem_of_getElem? atK
    rw [← label]
    exact mem
  · intro mem
    obtain ⟨k, atK⟩ := List.mem_iff_getElem?.mp mem
    refine ⟨_, ((d.edges_ascending i).bisect_eq_some_iff (Nat.le_refl _)).mpr
      ⟨k, Nat.zero_le k, (List.getElem?_eq_some_iff.mp atK).1, atK, rfl⟩, rfl⟩

/-- Bisection finds what a linear search finds. -/
theorem next_eq_find? (d : Dfa) (i : Nat) (b : UInt8) :
    d.next i b = ((d.graph.edges i).find? fun e => e.label = .byte b).map Edge.target := by
  cases found : (d.graph.edges i).find? fun e => e.label = .byte b with
  | none =>
      cases next : d.next i b with
      | none => rfl
      | some j =>
          have edge := Automaton.mem_labelledTargets.mp (next_eq_some_iff.mp next)
          have other := List.find?_eq_none.mp found _ edge
          simp at other
  | some e =>
      have label : e.label = .byte b := by simpa using List.find?_some found
      have mem := List.mem_of_find?_eq_some found
      refine next_eq_some_iff.mpr (Automaton.mem_labelledTargets.mpr ?_)
      rw [← label]
      exact mem

theorem next_lt (next : d.next i b = some j) : j < d.size :=
  Automaton.edge_target_lt (Automaton.mem_labelledTargets.mp (next_eq_some_iff.mp next))

theorem walk_eq_some_iff : d.walk i w = some j ↔ Run d.graph.labelledTargets i w j := by
  induction w generalizing i with
  | nil =>
      simp only [walk, Option.some.injEq]
      constructor
      · rintro rfl
        exact .stop i
      · intro run
        cases run with
        | stop => rfl
        | skip edge => exact absurd edge (d.not_mem_epsilon _ _)
  | cons b rest ih =>
      rw [walk]
      constructor
      · intro walked
        split at walked
        · cases walked
        · rename_i k step
          exact .take (next_eq_some_iff.mp step) (ih.mp walked)
      · intro run
        cases run with
        | skip edge => exact absurd edge (d.not_mem_epsilon _ _)
        | take edge run =>
            rw [next_eq_some_iff.mpr edge]
            exact ih.mpr run

theorem walk_lt (inside : i < d.size) (walked : d.walk i w = some j) : j < d.size := by
  induction w generalizing i with
  | nil =>
      cases walked
      exact inside
  | cons b rest ih =>
      rw [walk] at walked
      split at walked
      · cases walked
      · rename_i k step
        exact ih (next_lt step) walked

theorem walk_append (d : Dfa) (i : Nat) (u v : List UInt8) :
    d.walk i (u ++ v) = (d.walk i u).bind fun j => d.walk j v := by
  induction u generalizing i with
  | nil => rfl
  | cons b rest ih =>
      rw [List.cons_append, walk, walk]
      cases d.next i b with
      | none => rfl
      | some j => exact ih j

/-- The state at which the walk from the entry arrives; without states there is no entry to walk
from. -/
def arrival (d : Dfa) (w : List UInt8) : Option Nat :=
  if d.isEmpty then none else d.walk d.entry w

theorem arrival_append (d : Dfa) (u v : List UInt8) :
    d.arrival (u ++ v) = (d.arrival u).bind fun i => d.walk i v := by
  rw [arrival, arrival, walk_append]
  split <;> rfl

theorem arrival_lt (arrives : d.arrival w = some i) : i < d.size := by
  rw [arrival] at arrives
  split at arrives
  · cases arrives
  · rename_i states
    exact walk_lt (Automaton.entry_lt_size (Bool.eq_false_iff.mpr states)) arrives

/-- What a walk from a state comes to: nothing if it stops, and otherwise the marker of the state at
which it arrives. -/
def responseFrom (d : Dfa) (i : Nat) (w : List UInt8) : Option (Option Nat) :=
  (d.walk i w).map d.accept

def response (d : Dfa) (w : List UInt8) : Option (Option Nat) :=
  if d.isEmpty then none else d.responseFrom d.entry w

theorem response_eq_responseFrom (states : d.isEmpty = false) :
    d.response = d.responseFrom d.entry := by
  funext w
  rw [response, states]
  rfl

theorem response_eq_map_arrival (d : Dfa) (w : List UInt8) :
    d.response w = (d.arrival w).map d.accept := by
  rw [response, arrival]
  split <;> rfl

theorem responseFrom_nil (d : Dfa) (i : Nat) : d.responseFrom i [] = some (d.accept i) := rfl

theorem responseFrom_cons (d : Dfa) (i : Nat) (b : UInt8) (w : List UInt8) :
    d.responseFrom i (b :: w) = (d.next i b).bind fun j => d.responseFrom j w := by
  rw [responseFrom, walk]
  cases d.next i b <;> rfl

theorem responseFrom_append {v : List UInt8} (walked : d.walk i w = some j) :
    d.responseFrom i (w ++ v) = d.responseFrom j v := by
  rw [responseFrom, walk_append, walked]
  rfl

/-- The response that is left after a byte string is that of the state at which its walk arrives. -/
theorem response_append {v : List UInt8} (arrives : d.arrival w = some i) :
    d.response (w ++ v) = d.responseFrom i v := by
  rw [response_eq_map_arrival, arrival_append, arrives]
  rfl

theorem responseFrom_eq_some_iff {answer : Option Nat} :
    d.responseFrom i w = some answer ↔
      ∃ j, Run d.graph.labelledTargets i w j ∧ d.accept j = answer := by
  rw [responseFrom, Option.map_eq_some_iff]
  exact exists_congr fun j => and_congr_left' walk_eq_some_iff

section Freeze

variable {a : Automaton} {deterministic : a.isDeterministic = true}

theorem entry_eq_zero (d : Dfa) : d.entry = 0 := by
  obtain ⟨a, _, eq⟩ := d.frozen
  rw [entry, eq]
  rfl

@[simp]
theorem size_freeze : (freeze a deterministic).size = a.reachable.length :=
  a.size_freeze

@[simp]
theorem isEmpty_freeze : (freeze a deterministic).isEmpty = a.isEmpty :=
  a.isEmpty_freeze

theorem run_freeze {k l : Nat} (found : a.reachable[k]? = some i) :
    Run (freeze a deterministic).graph.labelledTargets k w l ↔
      ∃ j, a.reachable[l]? = some j ∧ Run a.labelledTargets i w j :=
  Automaton.run_sortEdges.trans (Automaton.run_compact found)

theorem accept_freeze {k : Nat} (found : a.reachable[k]? = some i) :
    (freeze a deterministic).accept k = a.accept i :=
  (Automaton.accept_sortEdges a.compact k).trans (Automaton.accept_ofNodes found)

theorem arrival_freeze_eq_some_iff {k : Nat} :
    (freeze a deterministic).arrival w = some k ↔
      ∃ j, a.reachable[k]? = some j ∧ Run a.labelledTargets a.entry w j := by
  rw [arrival, isEmpty_freeze]
  cases states : a.isEmpty with
  | true => simp [Automaton.reachable, states]
  | false =>
      rw [if_neg Bool.false_ne_true, walk_eq_some_iff, entry_eq_zero]
      exact run_freeze (Automaton.reachable_zero states)

theorem exists_arrival (d : Dfa) {k : Nat} (inside : k < d.size) : ∃ w, d.arrival w = some k := by
  obtain ⟨graph, a, deterministic, rfl⟩ := d
  have size : (freeze a deterministic).size = a.reachable.length := size_freeze
  have listed : k < a.reachable.length := by
    rw [← size]
    exact inside
  have mem := List.getElem_mem listed
  have nonempty := Automaton.nonempty_of_mem_reachable mem
  obtain ⟨w, run⟩ := (Automaton.mem_reachable_iff nonempty).mp mem
  refine ⟨w, ?_⟩
  change (freeze a deterministic).arrival w = some k
  rw [arrival_freeze_eq_some_iff]
  exact ⟨_, List.getElem?_eq_getElem listed, run⟩

/-- The responses of a frozen automaton, by the runs of the automaton that was frozen. -/
theorem responseFrom_freeze_eq_some_iff {k : Nat} (found : a.reachable[k]? = some i)
    {answer : Option Nat} :
    (freeze a deterministic).responseFrom k w = some answer ↔
      ∃ j, Run a.labelledTargets i w j ∧ a.accept j = answer := by
  rw [responseFrom_eq_some_iff]
  constructor
  · rintro ⟨l, run, accepts⟩
    obtain ⟨j, last, original⟩ := (run_freeze found).mp run
    exact ⟨j, original, by rw [← accepts, accept_freeze last]⟩
  · rintro ⟨j, original, accepts⟩
    obtain ⟨l, last⟩ := List.mem_iff_getElem?.mp
      (Automaton.mem_reachable_of_run (List.mem_of_getElem? found) original)
    exact ⟨l, (run_freeze found).mpr ⟨j, last, original⟩, by rw [← accepts, accept_freeze last]⟩

theorem response_freeze_eq_some_iff {answer : Option Nat} :
    (freeze a deterministic).response w = some answer ↔
      a.isEmpty = false ∧ ∃ j, Run a.labelledTargets a.entry w j ∧ a.accept j = answer := by
  rw [response, isEmpty_freeze]
  cases nonempty : a.isEmpty with
  | true => simp
  | false =>
      simp only [Bool.false_eq_true, if_false, true_and]
      rw [entry_eq_zero]
      exact responseFrom_freeze_eq_some_iff (Automaton.reachable_zero nonempty)

end Freeze

end Dfa

end Munch
