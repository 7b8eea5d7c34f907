import Munch.Dfa.Subset
import Munch.Proofs.Dfa.Minimal

/-!
Freezing automata that are the same graph.

Two automata are the same graph if a renumbering of the states that the first one can reach takes its
entry, its markers and its edges to those of the second, the edges of each state in any order
(`Renumbers`).  An automaton and its frozen form are such a pair (`renumbers_freeze`), and between
deterministic automata there is at most one renumbering (`Renumbers.unique`).

Freezing numbers the states along the edges as they are given, and sorts them afterwards.  So two frozen
forms of one graph are equal exactly if both searches come to the states in the same order, and the
numbers of a frozen automaton are in breadth-first order along its own edges exactly if sorting the
edges first would have made no difference.  If it is sorted before it is frozen, or frozen twice, an
automaton has one form for each graph (`ofAutomaton_canonical_iff`).  Determinizing and minimizing
freeze automata whose edges are sorted already (`reachable_subsetDfa`, `reachable_minimize`).
-/

set_option autoImplicit false

namespace Munch

def Edge.rename (f : Nat → Nat) (e : Edge) : Edge :=
  ⟨e.label, f e.target⟩

theorem Edge.le_antisymm (e f : Edge) (first : e.le f = true) (second : f.le e = true) : e = f := by
  simp only [Edge.le, Bool.or_eq_true, Bool.and_eq_true, decide_eq_true_eq] at first second
  have label : e.label = f.label := Label.rank_injective (by omega)
  have target : e.target = f.target := by omega
  cases e
  cases f
  cases label
  cases target
  rfl

theorem mergeSort_eq_of_perm {edges other : List Edge} (perm : edges.Perm other) :
    edges.mergeSort Edge.le = other.mergeSort Edge.le := by
  refine List.Perm.eq_of_pairwise (fun e f _ _ => Edge.le_antisymm e f)
    (List.pairwise_mergeSort Edge.le_trans Edge.le_total edges)
    (List.pairwise_mergeSort Edge.le_trans Edge.le_total other) ?_
  exact (List.mergeSort_perm edges _).trans (perm.trans (List.mergeSort_perm other _).symm)

theorem Ascending.eq_of_perm {edges other : List Edge} (first : Ascending edges)
    (second : Ascending other) (perm : edges.Perm other) : edges = other := by
  refine List.Perm.eq_of_pairwise (fun e f _ _ below above => ?_) first second perm
  exact absurd below (Nat.lt_asymm above)

namespace Automaton

/-- The states that an automaton can reach, with other numbers, are those of another one; the edges of
each state are the same but for their order. -/
structure Renumbers (f : Nat → Nat) (a b : Automaton) : Prop where
  isEmpty_eq : b.isEmpty = a.isEmpty
  entry_eq : a.isEmpty = false → b.entry = f a.entry
  injective : ∀ i ∈ a.reachable, ∀ j ∈ a.reachable, f i = f j → i = j
  edges_perm : ∀ i ∈ a.reachable, (b.edges (f i)).Perm ((a.edges i).map (Edge.rename f))
  accept_eq : ∀ i ∈ a.reachable, b.accept (f i) = a.accept i

section Sorting

variable {a : Automaton} {i : Nat}

@[simp] theorem isEmpty_sortEdges (a : Automaton) : a.sortEdges.isEmpty = a.isEmpty := by
  rw [isEmpty, size_sortEdges, isEmpty]

theorem mem_reachable_sortEdges : i ∈ a.sortEdges.reachable ↔ i ∈ a.reachable := by
  cases states : a.isEmpty with
  | true => simp [reachable, states]
  | false =>
      rw [mem_reachable_iff states, mem_reachable_iff ((isEmpty_sortEdges a).trans states)]
      exact exists_congr fun w => run_sortEdges

@[simp] theorem sortEdges_sortEdges (a : Automaton) : a.sortEdges.sortEdges = a.sortEdges := by
  refine ext_of_states ?_ rfl
  have sorted (s : State) : (s.edges.mergeSort Edge.le).mergeSort Edge.le =
      s.edges.mergeSort Edge.le :=
    List.mergeSort_of_pairwise (List.pairwise_mergeSort Edge.le_trans Edge.le_total s.edges)
  simp [sortEdges, sorted]

theorem sortEdges_isDeterministic (deterministic : a.isDeterministic = true) :
    a.sortEdges.isDeterministic = true := by
  rw [isDeterministic_iff_unambiguous] at deterministic ⊢
  intro i mem
  rw [edges_sortEdges]
  exact (deterministic i (mem_reachable_sortEdges.mp mem)).perm
    ((List.mergeSort_perm _ _).map _)

theorem states_freeze (a : Automaton) :
    a.freeze.states = (a.reachable.map fun i =>
      (⟨(numberEdges a.reachable (a.labelledTargets i)).mergeSort Edge.le, a.accept i⟩ :
        State)).toArray := by
  simp [freeze, sortEdges, compact, ofNodes]

end Sorting

theorem reachable_eq_exploreFrom {a : Automaton} (states : a.isEmpty = false) {steps : Nat}
    (enough : a.size ≤ steps) : a.reachable = exploreFrom a.targets steps a.entry := by
  have listed : a.entry ∈ List.range a.size := List.mem_range.mpr (entry_lt_size states)
  rw [reachable, states, exploreFrom_steps a.targets_closed listed (by simp) enough]
  rfl

theorem entry_mem_reachable {a : Automaton} (states : a.isEmpty = false) : a.entry ∈ a.reachable :=
  List.mem_of_head? (reachable_explored states).head

theorem reachable_induction {a : Automaton} {P : Nat → Prop}
    (entry : a.isEmpty = false → P a.entry)
    (step : ∀ i ∈ a.reachable, P i → ∀ e ∈ a.edges i, P e.target) {i : Nat}
    (mem : i ∈ a.reachable) : P i := by
  have states := nonempty_of_mem_reachable mem
  have explored := reachable_explored states
  have leads := explored.reached i mem
  clear mem
  induction leads with
  | refl => exact entry states
  | tail leads next ih =>
      obtain ⟨e, edge, rfl⟩ := List.mem_map.mp next
      exact step _ (explored.mem_iff.mpr leads) ih e edge

theorem target_mem_reachable {a : Automaton} {i : Nat} (mem : i ∈ a.reachable) {e : Edge}
    (edge : e ∈ a.edges i) : e.target ∈ a.reachable :=
  reachable_closed mem (e.label, e.target) (mem_labelledTargets.mpr edge)

namespace Renumbers

variable {f g : Nat → Nat} {a b c : Automaton} {i : Nat}

theorem labels_perm (same : Renumbers f a b) (mem : i ∈ a.reachable) :
    ((b.edges (f i)).map Edge.label).Perm ((a.edges i).map Edge.label) := by
  have perm := (same.edges_perm i mem).map Edge.label
  rwa [List.map_map] at perm

theorem edge (same : Renumbers f a b) (mem : i ∈ a.reachable) {e : Edge} (edge : e ∈ a.edges i) :
    e.rename f ∈ b.edges (f i) :=
  (same.edges_perm i mem).mem_iff.mpr (List.mem_map_of_mem edge)

theorem mem_reachable (same : Renumbers f a b) (mem : i ∈ a.reachable) : f i ∈ b.reachable := by
  refine reachable_induction (P := fun i => f i ∈ b.reachable) ?_ ?_ mem
  · intro states
    rw [← same.entry_eq states]
    exact entry_mem_reachable (same.isEmpty_eq.trans states)
  · intro i mem there e edge
    exact target_mem_reachable there (same.edge mem edge)

theorem exists_of_mem_reachable {j : Nat} (same : Renumbers f a b) (mem : j ∈ b.reachable) :
    ∃ i ∈ a.reachable, f i = j := by
  refine reachable_induction (P := fun j => ∃ i ∈ a.reachable, f i = j) ?_ ?_ mem
  · intro states
    have states := same.isEmpty_eq.symm.trans states
    exact ⟨a.entry, entry_mem_reachable states, (same.entry_eq states).symm⟩
  · rintro _ - ⟨i, mem, rfl⟩ e edge
    obtain ⟨d, there, rfl⟩ := List.mem_map.mp ((same.edges_perm i mem).mem_iff.mp edge)
    exact ⟨d.target, target_mem_reachable mem there, rfl⟩

theorem deterministic_of (same : Renumbers f a b) (deterministic : a.isDeterministic = true) :
    b.isDeterministic = true := by
  rw [isDeterministic_iff_unambiguous] at deterministic ⊢
  intro j mem
  obtain ⟨i, there, rfl⟩ := same.exists_of_mem_reachable mem
  exact (deterministic i there).perm (same.labels_perm there)

theorem trans (first : Renumbers f a b) (second : Renumbers g b c) : Renumbers (g ∘ f) a c := by
  refine ⟨second.isEmpty_eq.trans first.isEmpty_eq, fun states => ?_, fun i hi j hj eq => ?_,
    fun i mem => ?_, fun i mem => ?_⟩
  · rw [second.entry_eq (first.isEmpty_eq.trans states), first.entry_eq states]
    rfl
  · exact first.injective i hi j hj
      (second.injective _ (first.mem_reachable hi) _ (first.mem_reachable hj) eq)
  · have later := second.edges_perm _ (first.mem_reachable mem)
    have earlier := (first.edges_perm i mem).map (Edge.rename g)
    rw [List.map_map] at earlier
    exact later.trans earlier
  · exact (second.accept_eq _ (first.mem_reachable mem)).trans (first.accept_eq i mem)

theorem unique (first : Renumbers f a b) (second : Renumbers g a b)
    (deterministic : a.isDeterministic = true) (mem : i ∈ a.reachable) : f i = g i := by
  refine reachable_induction (P := fun i => f i = g i) ?_ ?_ mem
  · intro states
    rw [← first.entry_eq states, second.entry_eq states]
  · intro i mem agree e edge
    have labels : ((b.edges (f i)).map Edge.label).Nodup := by
      rw [(first.labels_perm mem).nodup_iff]
      exact (isDeterministic_iff_unambiguous.mp deterministic i mem).2
    have here := first.edge mem edge
    have there := second.edge mem edge
    rw [← agree] at there
    exact congrArg Edge.target (List.inj_on_of_nodup_map labels here there rfl)

theorem unsorted (same : Renumbers f a b) : Renumbers f a.sortEdges b := by
  refine ⟨same.isEmpty_eq.trans (isEmpty_sortEdges a).symm, fun states => ?_, fun i hi j hj => ?_,
    fun i mem => ?_, fun i mem => ?_⟩
  · exact same.entry_eq ((isEmpty_sortEdges a).symm.trans states)
  · exact same.injective i (mem_reachable_sortEdges.mp hi) j (mem_reachable_sortEdges.mp hj)
  · rw [edges_sortEdges]
    exact (same.edges_perm i (mem_reachable_sortEdges.mp mem)).trans
      ((List.mergeSort_perm _ _).symm.map _)
  · rw [accept_sortEdges]
    exact same.accept_eq i (mem_reachable_sortEdges.mp mem)

/-- The search comes to the states in the same order if it finds the edges in the same order. -/
theorem reachable_eq_map (same : Renumbers f a b)
    (ordered : ∀ i ∈ a.reachable, b.targets (f i) = (a.targets i).map f) :
    b.reachable = a.reachable.map f := by
  cases states : a.isEmpty with
  | true => simp [reachable, states, same.isEmpty_eq]
  | false =>
      have closed := (reachable_explored states).closed
      rw [reachable_eq_exploreFrom (same.isEmpty_eq.trans states) (Nat.le_add_left b.size a.size),
        same.entry_eq states,
        exploreFrom_map same.injective closed ordered _ (entry_mem_reachable states),
        ← reachable_eq_exploreFrom states (Nat.le_add_right a.size b.size)]

theorem labelledTargets_perm (same : Renumbers f a b) (mem : i ∈ a.reachable) :
    (b.labelledTargets (f i)).Perm ((a.labelledTargets i).map fun e => (e.1, f e.2)) := by
  have perm := (same.edges_perm i mem).map fun e => (e.label, e.target)
  rw [List.map_map] at perm
  rw [labelledTargets, labelledTargets, List.map_map]
  exact perm

theorem freeze_eq (same : Renumbers f a b) (order : b.reachable = a.reachable.map f) :
    b.freeze = a.freeze := by
  refine ext_of_states ?_ rfl
  rw [states_freeze, states_freeze, order, List.map_map]
  refine congrArg List.toArray (List.map_congr_left fun i mem => ?_)
  have perm := (same.labelledTargets_perm mem).filterMap fun e =>
    ((a.reachable.map f).idxOf? e.2).map (Edge.mk e.1)
  have numbered := mergeSort_eq_of_perm (perm.trans
    (.of_eq (numberEdges_map same.injective (reachable_closed mem))))
  rw [Function.comp_apply, same.accept_eq i mem]
  exact congrArg (State.mk · _) numbered

theorem edges_sortEdges_eq (same : Renumbers f a b) (deterministic : a.isDeterministic = true)
    (mem : i ∈ a.reachable) :
    b.sortEdges.edges (f i) = (a.sortEdges.edges i).map (Edge.rename f) := by
  have labels := (isDeterministic_iff_unambiguous.mp deterministic i mem).2
  have renamed : Ascending (((a.edges i).mergeSort Edge.le).map (Edge.rename f)) :=
    List.pairwise_map.mpr (ascending_mergeSort labels)
  rw [edges_sortEdges, edges_sortEdges]
  refine Ascending.eq_of_perm
    (ascending_mergeSort ((same.labels_perm mem).nodup_iff.mpr labels)) renamed ?_
  exact (List.mergeSort_perm _ _).trans ((same.edges_perm i mem).trans
    ((List.mergeSort_perm _ _).map _).symm)

theorem sortEdges (same : Renumbers f a b) (deterministic : a.isDeterministic = true) :
    Renumbers f a.sortEdges b.sortEdges := by
  have half := same.unsorted
  refine ⟨(isEmpty_sortEdges b).trans half.isEmpty_eq, half.entry_eq, half.injective,
    fun i mem => ?_, fun i mem => ?_⟩
  · exact .of_eq (same.edges_sortEdges_eq deterministic (mem_reachable_sortEdges.mp mem))
  · rw [accept_sortEdges]
    exact half.accept_eq i mem

/-- If the edges are sorted, the searches come to the states in the same order. -/
theorem reachable_sortEdges_eq (same : Renumbers f a b) (deterministic : a.isDeterministic = true) :
    b.sortEdges.reachable = a.sortEdges.reachable.map f := by
  refine (same.sortEdges deterministic).reachable_eq_map fun i mem => ?_
  rw [targets, same.edges_sortEdges_eq deterministic (mem_reachable_sortEdges.mp mem),
    targets, List.map_map, List.map_map]
  rfl

end Renumbers

section Freeze

variable {a : Automaton} {k i : Nat}

/-- The state of an automaton that has a number in its frozen form. -/
def numbered (a : Automaton) (k : Nat) : Nat :=
  a.reachable[k]?.getD 0

theorem numbered_eq (found : a.reachable[k]? = some i) : a.numbered k = i := by
  rw [numbered, found]
  rfl

theorem getElem?_reachable (inside : k < a.reachable.length) :
    a.reachable[k]? = some (a.numbered k) := by
  have atK := List.getElem?_eq_getElem inside
  rw [atK, numbered_eq atK]

theorem reachable_eq_map_numbered (a : Automaton) :
    a.reachable = (List.range a.reachable.length).map a.numbered := by
  refine List.ext_getElem (by simp) fun k inside _ => ?_
  rw [List.getElem_map, List.getElem_range, numbered_eq (List.getElem?_eq_getElem inside)]

theorem numbered_injective {l : Nat} (inK : k < a.reachable.length) (inL : l < a.reachable.length)
    (same : a.numbered k = a.numbered l) : k = l := by
  have atK := List.getElem?_eq_getElem inK
  have atL := List.getElem?_eq_getElem inL
  rw [numbered_eq atK, numbered_eq atL] at same
  rw [← same] at atL
  exact (List.getElem?_inj inK (nodup_reachable a)).mp (atK.trans atL.symm)

theorem map_idxOf_numbered {numbers : List Nat} (inside : ∀ k ∈ numbers, k < a.reachable.length) :
    (numbers.map a.numbered).map a.reachable.idxOf = numbers := by
  rw [List.map_map]
  refine (List.map_congr_left fun k mem => ?_).trans (List.map_id numbers)
  rw [Function.comp_apply, numbered_eq (List.getElem?_eq_getElem (inside k mem))]
  exact (nodup_reachable a).idxOf_getElem k (inside k mem)

theorem lt_of_mem_reachable_freeze (mem : k ∈ a.freeze.reachable) : k < a.reachable.length := by
  have inside := reachable_lt mem
  rwa [size_freeze] at inside

theorem map_numberEdges_reachable (mem : i ∈ a.reachable) :
    (numberEdges a.reachable (a.labelledTargets i)).map (Edge.rename a.numbered) = a.edges i := by
  have back := map_numberEdges (nodup_reachable a) (reachable_closed mem) (f := id)
    (g := a.numbered) fun k i found => numbered_eq found
  have same := congrArg (List.map fun e => Edge.mk e.1 e.2) back
  simp only [labelledTargets, List.map_map, Function.comp_def, id_eq, List.map_id'] at same ⊢
  exact same

theorem edges_compact (found : a.reachable[k]? = some i) :
    (a.compact.edges k).map (Edge.rename a.numbered) = a.edges i := by
  rw [compact, Automaton.edges, state_ofNodes found]
  exact map_numberEdges_reachable (List.mem_of_getElem? found)

theorem renumbers_compact (a : Automaton) : Renumbers a.numbered a.compact a := by
  have inside {k : Nat} (mem : k ∈ a.compact.reachable) : k < a.reachable.length :=
    size_compact a ▸ reachable_lt mem
  refine ⟨a.isEmpty_compact.symm, fun states => ?_, fun k hk l hl same => ?_, fun k mem => ?_,
    fun k mem => ?_⟩
  · exact (numbered_eq (reachable_zero (a.isEmpty_compact.symm.trans states))).symm
  · exact numbered_injective (inside hk) (inside hl) same
  · exact .of_eq (edges_compact (getElem?_reachable (inside mem))).symm
  · exact (accept_ofNodes (getElem?_reachable (inside mem))).symm

/-- An automaton is the same graph as its frozen form. -/
theorem renumbers_freeze (a : Automaton) : Renumbers a.numbered a.freeze a :=
  a.renumbers_compact.unsorted

theorem mem_reachable_freeze : k ∈ a.freeze.reachable ↔ k < a.reachable.length := by
  refine ⟨lt_of_mem_reachable_freeze, fun inside => ?_⟩
  have atK := List.getElem?_eq_getElem inside
  obtain ⟨l, mem, same⟩ :=
    a.renumbers_freeze.exists_of_mem_reachable (List.mem_of_getElem? atK)
  rw [← numbered_eq atK] at same
  rwa [← numbered_injective (lt_of_mem_reachable_freeze mem) inside same]

@[simp] theorem sortEdges_freeze (a : Automaton) : a.freeze.sortEdges = a.freeze :=
  sortEdges_sortEdges _

variable {b : Automaton} {f : Nat → Nat}

section Deterministic

variable (deterministic : a.isDeterministic = true)

include deterministic

theorem freeze_isDeterministic : a.freeze.isDeterministic = true :=
  (Dfa.freeze a deterministic).graph_unambiguous.isDeterministic

theorem reachable_sortEdges_eq_map :
    a.sortEdges.reachable = a.freeze.reachable.map a.numbered := by
  have order := a.renumbers_freeze.reachable_sortEdges_eq (freeze_isDeterministic deterministic)
  rwa [sortEdges_freeze] at order

/-- Freezing twice is freezing with the edges sorted. -/
theorem freeze_freeze : a.freeze.freeze = a.sortEdges.freeze := by
  have same := a.renumbers_freeze.sortEdges (freeze_isDeterministic deterministic)
  rw [sortEdges_freeze] at same
  exact (same.freeze_eq (reachable_sortEdges_eq_map deterministic)).symm

theorem reachable_freeze_eq_range_iff :
    a.freeze.reachable = List.range a.reachable.length ↔ a.reachable = a.sortEdges.reachable := by
  rw [reachable_sortEdges_eq_map deterministic]
  constructor
  · intro order
    rw [order, ← reachable_eq_map_numbered]
  · intro order
    calc a.freeze.reachable
        = (a.freeze.reachable.map a.numbered).map a.reachable.idxOf :=
          (map_idxOf_numbered fun k => lt_of_mem_reachable_freeze).symm
      _ = ((List.range a.reachable.length).map a.numbered).map a.reachable.idxOf := by
          rw [← order, ← reachable_eq_map_numbered]
      _ = List.range a.reachable.length := map_idxOf_numbered fun k => List.mem_range.mp

end Deterministic

theorem Renumbers.freeze_eq_iff (same : Renumbers f a b) (deterministic : a.isDeterministic = true) :
    b.freeze = a.freeze ↔ b.reachable = a.reachable.map f := by
  refine ⟨fun eq => ?_, same.freeze_eq⟩
  have first := a.renumbers_freeze.trans same
  have second := b.renumbers_freeze
  rw [eq] at second
  have length : b.reachable.length = a.reachable.length := by
    rw [← size_freeze, eq, size_freeze]
  rw [reachable_eq_map_numbered b, reachable_eq_map_numbered a, List.map_map, length]
  refine List.map_congr_left fun k mem => ?_
  have reached := mem_reachable_freeze.mpr (List.mem_range.mp mem)
  exact second.unique first (freeze_isDeterministic deterministic) reached

end Freeze

section Ordered

variable {α : Type} [DecidableEq α] {nodes : List α} {edges : α → List (Label × α)}
  {accept : α → Option Nat}

theorem sortEdges_eq_self {a : Automaton} (ascending : ∀ s ∈ a.states, Ascending s.edges) :
    a.sortEdges = a := by
  refine ext_of_states ?_ rfl
  rw [sortEdges]
  refine (Array.map_congr_left fun s mem => ?_).trans (Array.map_id a.states)
  have sorted : s.edges.Pairwise fun e f => e.le f = true := by
    refine (ascending s mem).imp fun {e f} lt => ?_
    simp [Edge.le, lt]
  rw [List.mergeSort_of_pairwise sorted]
  rfl

theorem sortEdges_ofNodes
    (ascending : ∀ x ∈ nodes, ((edges x).map Prod.fst).Pairwise fun l m => l.rank < m.rank) :
    (ofNodes nodes edges accept).sortEdges = ofNodes nodes edges accept := by
  refine sortEdges_eq_self fun s mem => ?_
  obtain ⟨x, listed, rfl⟩ := List.mem_map.mp (List.mem_toArray.mp mem)
  have labels := (ascending x listed).sublist (numberEdges_labels_sublist nodes (edges x))
  rw [List.pairwise_map] at labels
  exact labels

theorem ascending_subsetEdges (table : MoveTable) (s : StateSet) :
    ((subsetEdges table s).map Prod.fst).Pairwise fun l m => l.rank < m.rank := by
  refine List.Pairwise.sublist (subsetEdges_labels_sublist table s) ?_
  exact List.pairwise_map.mpr (ByteSet.allBytes_ascending.imp fun lt => Nat.succ_lt_succ lt)

end Ordered

end Automaton

namespace Dfa

open Automaton

theorem reachable_freeze_of_sorted {a : Automaton} {deterministic : a.isDeterministic = true}
    (sorted : a.sortEdges = a) :
    (freeze a deterministic).graph.reachable = List.range (freeze a deterministic).size := by
  rw [size_freeze]
  refine (reachable_freeze_eq_range_iff deterministic).mpr ?_
  rw [sorted]

theorem reachable_subsetDfa (a : Automaton) :
    a.subsetDfa.graph.reachable = List.range a.subsetDfa.size :=
  reachable_freeze_of_sorted (sortEdges_ofNodes fun s _ => ascending_subsetEdges _ s)

theorem reachable_minimize (d : Dfa) :
    d.minimize.graph.reachable = List.range d.minimize.size := by
  refine reachable_freeze_of_sorted (sortEdges_ofNodes fun i _ => ?_)
  rw [mergedEdges, List.map_map]
  exact List.pairwise_map.mpr (d.edges_ascending i)

theorem response_freeze_graph {d : Dfa} {deterministic : d.graph.isDeterministic = true} :
    (freeze d.graph deterministic).response = d.response := by
  funext w
  rw [d.responds_graph.response_freeze]
  rfl

/-- Frozen automata that are the same graph are equal exactly if the searches come to the states in
the same order, and one is numbered in breadth-first order along its own edges exactly if the search
comes to the states in the order in which it does along sorted edges.  Sorted before it is frozen, or
frozen once more, the graph has one frozen form, which is numbered so; and so is what determinizing and
minimizing give. -/
theorem ofAutomaton_canonical_iff {f : Nat → Nat} {a b : Automaton}
    (deterministic : a.isDeterministic = true) (same : Renumbers f a b) :
    ∃ d e c, ofAutomaton a = .ok d ∧ ofAutomaton b = .ok e ∧
      (d = e ↔ b.reachable = a.reachable.map f) ∧
      (d.graph.reachable = List.range d.size ↔ a.reachable = a.sortEdges.reachable) ∧
      ofAutomaton a.sortEdges = .ok c ∧ ofAutomaton b.sortEdges = .ok c ∧
      ofAutomaton d.graph = .ok c ∧ ofAutomaton e.graph = .ok c ∧
      c.graph.reachable = List.range c.size ∧
      a.subsetDfa.graph.reachable = List.range a.subsetDfa.size ∧
      d.minimize = e.minimize ∧ d.minimize.graph.reachable = List.range d.minimize.size := by
  have also := same.deterministic_of deterministic
  have sorted := sortEdges_isDeterministic deterministic
  have form {x : Automaton} (deterministic : x.isDeterministic = true)
      (graph : x.freeze = a.sortEdges.freeze) : freeze x deterministic = freeze a.sortEdges sorted :=
    ext_of_graph graph
  have other : b.sortEdges.freeze = a.sortEdges.freeze :=
    (same.sortEdges deterministic).freeze_eq (same.reachable_sortEdges_eq deterministic)
  have again : freeze a.freeze (freeze_isDeterministic deterministic) = freeze a.sortEdges sorted :=
    form _ (freeze_freeze deterministic)
  have otherAgain : freeze b.freeze (freeze_isDeterministic also) = freeze a.sortEdges sorted :=
    form _ ((freeze_freeze also).trans other)
  refine ⟨freeze a deterministic, freeze b also, freeze a.sortEdges sorted, dif_pos deterministic,
    dif_pos also, ?_, ?_, dif_pos sorted, ?_, ?_, ?_, ?_, reachable_subsetDfa a, ?_,
    reachable_minimize _⟩
  · rw [← same.freeze_eq_iff deterministic, freeze, freeze, Dfa.mk.injEq]
    exact eq_comm
  · rw [size_freeze]
    exact reachable_freeze_eq_range_iff deterministic
  · rw [← form (sortEdges_isDeterministic also) other]
    exact dif_pos (sortEdges_isDeterministic also)
  · rw [← again]
    exact dif_pos (freeze_isDeterministic deterministic)
  · rw [← otherAgain]
    exact dif_pos (freeze_isDeterministic also)
  · exact reachable_freeze_of_sorted a.sortEdges_sortEdges
  · apply minimize_eq_of_response_eq
    calc (freeze a deterministic).response
        = (freeze a.freeze (freeze_isDeterministic deterministic)).response :=
          (response_freeze_graph (d := freeze a deterministic)).symm
      _ = (freeze b.freeze (freeze_isDeterministic also)).response := by rw [again, otherAgain]
      _ = (freeze b also).response := response_freeze_graph (d := freeze b also)

def fork : Automaton where
  states := #[⟨[⟨.byte 98, 1⟩, ⟨.byte 97, 2⟩], none⟩, ⟨[], some 0⟩, ⟨[], none⟩]
  entry := 0
  target_lt := by decide
  entry_lt := by decide

def sortedFork : Automaton where
  states := #[⟨[⟨.byte 97, 1⟩, ⟨.byte 98, 2⟩], none⟩, ⟨[], none⟩, ⟨[], some 0⟩]
  entry := 0
  target_lt := by decide
  entry_lt := by decide

def swapped (i : Nat) : Nat :=
  if i = 0 then 0 else 3 - i

theorem renumbers_fork : Renumbers swapped fork sortedFork := by
  constructor <;> decide +kernel

theorem ofAutomaton_canonical_iff_fork :
    fork.isDeterministic = true ∧ Renumbers swapped fork sortedFork ∧
    ∃ d e c, ofAutomaton fork = .ok d ∧ ofAutomaton sortedFork = .ok e ∧
      (d = e ↔ sortedFork.reachable = fork.reachable.map swapped) ∧
      (d.graph.reachable = List.range d.size ↔ fork.reachable = fork.sortEdges.reachable) ∧
      ofAutomaton fork.sortEdges = .ok c ∧ ofAutomaton sortedFork.sortEdges = .ok c ∧
      ofAutomaton d.graph = .ok c ∧ ofAutomaton e.graph = .ok c ∧
      c.graph.reachable = List.range c.size ∧
      fork.subsetDfa.graph.reachable = List.range fork.subsetDfa.size ∧
      d.minimize = e.minimize ∧ d.minimize.graph.reachable = List.range d.minimize.size :=
  ⟨by decide, renumbers_fork, ofAutomaton_canonical_iff (by decide) renumbers_fork⟩

/-- The frozen forms depend on the order of the edges, and a number may stand out of order. -/
theorem not_ofAutomaton_canonical :
    (¬ ∀ (f : Nat → Nat) (a b : Automaton), a.isDeterministic = true → b.isDeterministic = true →
      Renumbers f a b → ofAutomaton a = ofAutomaton b) ∧
    ¬ ∀ d : Dfa, d.graph.reachable = List.range d.size := by
  constructor
  · intro canonical
    have same := canonical swapped fork sortedFork (by decide) (by decide) renumbers_fork
    have accepts := congrArg (fun outcome => outcome.map fun d => d.accept 1) same
    revert accepts
    decide +kernel
  · intro ordered
    have deterministic : fork.isDeterministic = true := by decide
    have order := ordered (freeze fork deterministic)
    rw [size_freeze, freeze, reachable_freeze_eq_range_iff deterministic] at order
    have found := renumbers_fork.reachable_sortEdges_eq (by decide)
    rw [sortEdges_eq_self (by unfold Ascending; decide), ← order] at found
    revert found
    decide +kernel

end Dfa

end Munch
