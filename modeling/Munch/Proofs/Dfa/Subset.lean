import Mathlib.Tactic.Tauto
import Munch.Dfa.Subset
import Munch.Proofs.Automaton.Growth
import Munch.Proofs.Dfa.Walk

/-!
The deterministic automaton of the sets of states.

A byte string leads from a set of states to the set of all states that it leads to from a member, and
it leads on as long as there are any (`contains_of_run_subsetEdges`, `exists_run_subsetEdges`).  The
walk of the automaton of sets arrives at the state that stands for the set
(`arrival_subsetDfa_eq_some_iff`).  So its response to a byte string is the lowest rule that the
string yields, and the walk stops when no state is left (`isLowest_response_subsetDfa`,
`response_subsetDfa_eq_none_iff`).
-/

set_option autoImplicit false

namespace Munch

namespace StateSet

theorem contains_empty (i : Nat) : empty.contains i = false :=
  Nat.zero_testBit i

theorem contains_singleton {i j : Nat} : (singleton i).contains j = true ↔ j = i := by
  rw [contains, singleton, Nat.one_shiftLeft, Nat.testBit_two_pow, decide_eq_true_eq]
  exact eq_comm

theorem contains_union {s t : StateSet} {i : Nat} :
    (s.union t).contains i = true ↔ s.contains i = true ∨ t.contains i = true := by
  rw [contains, union, Nat.testBit_or, Bool.or_eq_true]
  rfl

theorem isEmpty_eq_false_iff {s : StateSet} : s.isEmpty = false ↔ ∃ i, s.contains i = true := by
  rw [isEmpty, decide_eq_false_iff_not]
  constructor
  · exact Nat.exists_testBit_of_ne_zero
  · rintro ⟨i, member⟩ none
    rw [contains, none, Nat.zero_testBit] at member
    cases member

theorem mem_membersBelow {s : StateSet} {n i : Nat} :
    i ∈ s.membersBelow n ↔ i < n ∧ s.contains i = true := by
  rw [membersBelow, List.mem_filter, List.mem_range]

end StateSet

namespace Automaton

variable {a : Automaton}

theorem get_addMove {row : Vector StateSet 256} {b c : UInt8} {target : Nat} :
    (addMove row ⟨.byte c, target⟩).get ⟨b.toNat, b.toNat_lt⟩ =
      if b = c then (row.get ⟨b.toNat, b.toNat_lt⟩).union (.singleton target)
      else row.get ⟨b.toNat, b.toNat_lt⟩ := by
  split
  · rename_i same
    subst same
    exact Vector.getElem_set_self _
  · rename_i other
    exact Vector.getElem_set_ne c.toNat_lt b.toNat_lt fun eq => other (UInt8.toNat_inj.mp eq).symm

theorem contains_moveRow {edges : List Edge} {b : UInt8} {t : Nat} :
    ((moveRow edges).get ⟨b.toNat, b.toNat_lt⟩).contains t = true ↔ (⟨.byte b, t⟩ : Edge) ∈ edges := by
  have folded : ∀ (row : Vector StateSet 256),
      ((edges.foldl addMove row).get ⟨b.toNat, b.toNat_lt⟩).contains t = true ↔
        (row.get ⟨b.toNat, b.toNat_lt⟩).contains t = true ∨ (⟨.byte b, t⟩ : Edge) ∈ edges := by
    induction edges with
    | nil => simp
    | cons e rest ih =>
        intro row
        rw [List.foldl_cons, ih, List.mem_cons]
        obtain ⟨label, target⟩ := e
        cases label with
        | epsilon => simp [addMove]
        | byte c =>
            rw [get_addMove]
            split
            · rename_i same
              subst same
              simp only [StateSet.contains_union, StateSet.contains_singleton, Edge.mk.injEq, true_and]
              tauto
            · rename_i other
              simp [other]
  have blank : (Vector.replicate 256 StateSet.empty).get ⟨b.toNat, b.toNat_lt⟩ = .empty :=
    Vector.getElem_replicate _
  rw [moveRow, folded, blank]
  simp [StateSet.contains_empty]

theorem contains_lookUp {i t : Nat} {b : UInt8} :
    (lookUp a.moveTable i b).contains t = true ↔ (Label.byte b, t) ∈ a.labelledTargets i := by
  rw [mem_labelledTargets, lookUp, moveTable, Array.getElem?_map]
  cases found : a.states[i]? with
  | none => simp [edges, state, found, StateSet.contains_empty]
  | some s =>
      rw [edges, state_eq_of_getElem? found]
      exact contains_moveRow

theorem contains_movesFrom {table : MoveTable} {members : List Nat} {b : UInt8} {t : Nat} :
    (movesFrom table members b).contains t = true ↔
      ∃ i ∈ members, (lookUp table i b).contains t = true := by
  have folded : ∀ s : StateSet,
      (members.foldl (fun s i => s.union (lookUp table i b)) s).contains t = true ↔
        s.contains t = true ∨ ∃ i ∈ members, (lookUp table i b).contains t = true := by
    induction members with
    | nil => simp
    | cons i rest ih =>
        intro s
        rw [List.foldl_cons, ih, StateSet.contains_union]
        simp [or_assoc]
  rw [movesFrom, folded]
  simp [StateSet.contains_empty]

def subsetMove (a : Automaton) (s : StateSet) (b : UInt8) : StateSet :=
  movesFrom a.moveTable (s.membersBelow a.moveTable.size) b

theorem contains_subsetMove {s : StateSet} {b : UInt8} {t : Nat} :
    (a.subsetMove s b).contains t = true ↔
      ∃ i, s.contains i = true ∧ (Label.byte b, t) ∈ a.labelledTargets i := by
  have size : a.moveTable.size = a.size := Array.size_map
  rw [subsetMove, contains_movesFrom]
  constructor
  · rintro ⟨i, member, edge⟩
    exact ⟨i, (StateSet.mem_membersBelow.mp member).2, contains_lookUp.mp edge⟩
  · rintro ⟨i, member, edge⟩
    have inside := lt_size_of_mem_edges (mem_labelledTargets.mp edge)
    exact ⟨i, StateSet.mem_membersBelow.mpr ⟨size ▸ inside, member⟩, contains_lookUp.mpr edge⟩

theorem mem_subsetEdges {s t : StateSet} {label : Label} :
    (label, t) ∈ subsetEdges a.moveTable s ↔
      ∃ b, label = .byte b ∧ t = a.subsetMove s b ∧ t.isEmpty = false := by
  rw [subsetEdges, List.mem_filterMap]
  constructor
  · rintro ⟨b, -, edge⟩
    simp only [subsetEdge] at edge
    split at edge
    · cases edge
    · rename_i nonempty
      cases edge
      exact ⟨b, rfl, rfl, Bool.eq_false_iff.mpr nonempty⟩
  · rintro ⟨b, rfl, rfl, nonempty⟩
    refine ⟨b, ByteSet.mem_allBytes b, ?_⟩
    unfold subsetMove at nonempty
    simp [subsetEdge, nonempty, subsetMove]

theorem contains_of_run_subsetEdges (noEpsilon : ∀ i j, (Label.epsilon, j) ∉ a.labelledTargets i)
    {s t : StateSet} {w : List UInt8} (run : Run (subsetEdges a.moveTable) s w t) {j : Nat} :
    t.contains j = true ↔ ∃ i, s.contains i = true ∧ Run a.labelledTargets i w j := by
  induction run with
  | stop s =>
      constructor
      · exact fun member => ⟨j, member, .stop j⟩
      · rintro ⟨i, member, run⟩
        cases run with
        | stop => exact member
        | skip edge => exact absurd edge (noEpsilon _ _)
  | skip edge =>
      obtain ⟨b, label, -⟩ := mem_subsetEdges.mp edge
      cases label
  | @take s next t b w edge _ ih =>
      obtain ⟨c, label, rfl, -⟩ := mem_subsetEdges.mp edge
      cases label
      rw [ih]
      constructor
      · rintro ⟨k, member, rest⟩
        obtain ⟨i, source, first⟩ := contains_subsetMove.mp member
        exact ⟨i, source, .take first rest⟩
      · rintro ⟨i, source, run⟩
        cases run with
        | skip edge => exact absurd edge (noEpsilon _ _)
        | take first rest => exact ⟨_, contains_subsetMove.mpr ⟨i, source, first⟩, rest⟩

theorem nonempty_of_run_subsetEdges {s t : StateSet} {w : List UInt8}
    (run : Run (subsetEdges a.moveTable) s w t) (start : s.isEmpty = false) : t.isEmpty = false := by
  induction run with
  | stop => exact start
  | skip edge _ ih =>
      obtain ⟨b, -, -, nonempty⟩ := mem_subsetEdges.mp edge
      exact ih nonempty
  | take edge _ ih =>
      obtain ⟨b, -, -, nonempty⟩ := mem_subsetEdges.mp edge
      exact ih nonempty

theorem exists_run_subsetEdges (noEpsilon : ∀ i j, (Label.epsilon, j) ∉ a.labelledTargets i)
    {i j : Nat} {w : List UInt8} (run : Run a.labelledTargets i w j) {s : StateSet}
    (member : s.contains i = true) : ∃ t, Run (subsetEdges a.moveTable) s w t := by
  induction run generalizing s with
  | stop => exact ⟨s, .stop s⟩
  | skip edge => exact absurd edge (noEpsilon _ _)
  | take edge _ ih =>
      have moved := contains_subsetMove.mpr ⟨_, member, edge⟩
      obtain ⟨t, rest⟩ := ih moved
      have nonempty := StateSet.isEmpty_eq_false_iff.mpr ⟨_, moved⟩
      exact ⟨t, .take (mem_subsetEdges.mpr ⟨_, rfl, rfl, nonempty⟩) rest⟩

def allSubsets (a : Automaton) : List StateSet :=
  (List.range (Nat.pow 2 a.size)).map StateSet.mk

theorem mem_allSubsets {s : StateSet} (inside : ∀ i, s.contains i = true → i < a.size) :
    s ∈ a.allSubsets := by
  refine List.mem_map.mpr ⟨s.bits, List.mem_range.mpr ?_, rfl⟩
  apply Nat.lt_pow_two_of_testBit
  intro i beyond
  refine Bool.eq_false_iff.mpr fun member => ?_
  have below := inside i member
  omega

theorem allSubsets_closed (a : Automaton) :
    ∀ s ∈ a.allSubsets, ∀ t ∈ (subsetEdges a.moveTable s).map Prod.snd, t ∈ a.allSubsets := by
  intro s _ t target
  obtain ⟨⟨label, t⟩, edge, rfl⟩ := List.mem_map.mp target
  obtain ⟨b, -, rfl, -⟩ := mem_subsetEdges.mp edge
  apply mem_allSubsets
  intro j member
  obtain ⟨i, -, edge⟩ := contains_subsetMove.mp member
  exact labelledTarget_lt edge

theorem singleton_mem_allSubsets {i : Nat} (inside : i < a.size) :
    StateSet.singleton i ∈ a.allSubsets := by
  apply mem_allSubsets
  intro j member
  rw [StateSet.contains_singleton.mp member]
  exact inside

theorem length_allSubsets (a : Automaton) : a.allSubsets.length = Nat.pow 2 a.size := by
  simp [allSubsets]

theorem subsets_explored (nonempty : a.isEmpty = false) :
    Explored (fun s => (subsetEdges a.moveTable s).map Prod.snd) (.singleton a.entry)
      (a.subsets a.moveTable) := by
  unfold subsets
  rw [nonempty]
  exact exploreFrom_explored a.allSubsets_closed (singleton_mem_allSubsets (entry_lt_size nonempty))
    (Nat.le_of_eq a.length_allSubsets)

theorem isLowest_subsetAccept {s : StateSet} :
    IsLowest (fun rule => ∃ i, s.contains i = true ∧ a.accept i = some rule) (a.subsetAccept s) := by
  have folded : ∀ (members : List Nat) (P : Nat → Prop) (least : Option Nat), IsLowest P least →
      IsLowest (fun rule => P rule ∨ ∃ i ∈ members, a.accept i = some rule)
        (members.foldl (fun rule i => minAccept rule (a.accept i)) least) := by
    intro members
    induction members with
    | nil => exact fun P least lowest => lowest.congr fun rule => by simp
    | cons i rest ih =>
        intro P least lowest
        refine (ih _ _ (lowest.minAccept (IsLowest.self (a.accept i)))).congr fun rule => ?_
        simp [or_assoc]
  have none : IsLowest (fun _ : Nat => False) none := fun _ => id
  refine (folded (s.membersBelow a.size) _ _ none).congr fun rule => ?_
  rw [false_or]
  constructor
  · rintro ⟨i, member, accepts⟩
    exact ⟨i, (StateSet.mem_membersBelow.mp member).2, accepts⟩
  · rintro ⟨i, member, accepts⟩
    exact ⟨i, StateSet.mem_membersBelow.mpr ⟨lt_size_of_accept accepts, member⟩, accepts⟩

theorem subsets_closed (a : Automaton) :
    ∀ s ∈ a.subsets a.moveTable, ∀ e ∈ subsetEdges a.moveTable s, e.2 ∈ a.subsets a.moveTable := by
  intro s mem e edge
  cases states : a.isEmpty with
  | true => simp [subsets, states] at mem
  | false =>
      apply (subsets_explored states).closed s mem
      exact List.mem_map_of_mem edge

theorem nodup_subsets (a : Automaton) : (a.subsets a.moveTable).Nodup := by
  cases states : a.isEmpty with
  | true => simp [subsets, states]
  | false => exact (subsets_explored states).nodup

theorem subsets_zero (nonempty : a.isEmpty = false) :
    (a.subsets a.moveTable)[0]? = some (.singleton a.entry) := by
  rw [← List.head?_eq_getElem?]
  exact (subsets_explored nonempty).head

theorem subsetGraph_nonempty (nonempty : a.isEmpty = false) : a.subsetGraph.isEmpty = false := by
  obtain ⟨inside, -⟩ := List.getElem?_eq_some_iff.mp (subsets_zero nonempty)
  rw [isEmpty_eq_false_iff, subsetGraph, size_ofNodes]
  exact inside

/-- The numbers of the sets that byte strings lead to. -/
theorem run_subsetGraph (nonempty : a.isEmpty = false) {w : List UInt8} {i : Nat} :
    Run a.subsetGraph.labelledTargets a.subsetGraph.entry w i ↔
      ∃ t, (a.subsets a.moveTable)[i]? = some t ∧
        Run (subsetEdges a.moveTable) (.singleton a.entry) w t :=
  run_ofNodes a.nodup_subsets a.subsets_closed (subsets_zero nonempty)

/-- The set that a state of the automaton of sets stands for. -/
def standsFor (a : Automaton) (k : Nat) : Option StateSet :=
  a.subsetGraph.reachable[k]?.bind fun i => (a.subsets a.moveTable)[i]?

theorem standsFor_eq_some_iff {k : Nat} {t : StateSet} :
    a.standsFor k = some t ↔
      ∃ i, a.subsetGraph.reachable[k]? = some i ∧ (a.subsets a.moveTable)[i]? = some t :=
  Option.bind_eq_some_iff

theorem standsFor_injective {k l : Nat} {t : StateSet} (first : a.standsFor k = some t)
    (second : a.standsFor l = some t) : k = l := by
  obtain ⟨i, atK, foundK⟩ := standsFor_eq_some_iff.mp first
  obtain ⟨j, atL, foundL⟩ := standsFor_eq_some_iff.mp second
  obtain ⟨insideI, -⟩ := List.getElem?_eq_some_iff.mp foundK
  have same : i = j := (List.getElem?_inj insideI a.nodup_subsets).mp (foundK.trans foundL.symm)
  obtain ⟨insideK, -⟩ := List.getElem?_eq_some_iff.mp atK
  apply (List.getElem?_inj insideK a.subsetGraph.nodup_reachable).mp
  rw [atK, atL, same]

theorem accept_subsetDfa {k : Nat} {t : StateSet} (stands : a.standsFor k = some t) :
    a.subsetDfa.accept k = a.subsetAccept t := by
  obtain ⟨i, listed, found⟩ := standsFor_eq_some_iff.mp stands
  rw [subsetDfa, Dfa.accept_freeze listed]
  exact accept_ofNodes found

/-- The automaton of sets arrives at the state that stands for the set it is led to. -/
theorem arrival_subsetDfa_eq_some_iff {w : List UInt8} {k : Nat} :
    a.subsetDfa.arrival w = some k ↔
      ∃ t, a.standsFor k = some t ∧ Run (subsetEdges a.moveTable) (.singleton a.entry) w t := by
  simp only [subsetDfa, Dfa.arrival_freeze_eq_some_iff, standsFor_eq_some_iff]
  cases states : a.isEmpty with
  | true =>
      have none : a.subsets a.moveTable = [] := by simp [subsets, states]
      have bare : a.subsetGraph.isEmpty = true := by simp [isEmpty_iff, subsetGraph, none]
      simp [reachable, bare]
  | false =>
      simp only [run_subsetGraph states]
      constructor
      · intro given
        obtain ⟨i, listed, t, found, run⟩ := given
        exact ⟨t, ⟨i, listed, found⟩, run⟩
      · intro given
        obtain ⟨t, ⟨i, listed, found⟩, run⟩ := given
        exact ⟨i, listed, t, found, run⟩

theorem exists_standsFor (nonempty : a.isEmpty = false) {w : List UInt8} {t : StateSet}
    (run : Run (subsetEdges a.moveTable) (.singleton a.entry) w t) :
    ∃ k, a.standsFor k = some t := by
  have mem : t ∈ a.subsets a.moveTable := (subsets_explored nonempty).mem_iff.mpr run.leads
  obtain ⟨i, found⟩ := List.mem_iff_getElem?.mp mem
  have reached : i ∈ a.subsetGraph.reachable :=
    (mem_reachable_iff (subsetGraph_nonempty nonempty)).mpr
      ⟨w, (run_subsetGraph nonempty).mpr ⟨t, found, run⟩⟩
  obtain ⟨k, listed⟩ := List.mem_iff_getElem?.mp reached
  exact ⟨k, standsFor_eq_some_iff.mpr ⟨i, listed, found⟩⟩

theorem response_subsetDfa_eq_some_iff (nonempty : a.isEmpty = false) {w : List UInt8}
    {answer : Option Nat} :
    a.subsetDfa.response w = some answer ↔
      ∃ t, Run (subsetEdges a.moveTable) (.singleton a.entry) w t ∧ a.subsetAccept t = answer := by
  rw [Dfa.response_eq_map_arrival, Option.map_eq_some_iff]
  constructor
  · intro given
    obtain ⟨k, arrives, accepts⟩ := given
    obtain ⟨t, stands, run⟩ := arrival_subsetDfa_eq_some_iff.mp arrives
    exact ⟨t, run, (accept_subsetDfa stands).symm.trans accepts⟩
  · intro given
    obtain ⟨t, run, accepts⟩ := given
    obtain ⟨k, stands⟩ := exists_standsFor nonempty run
    exact ⟨k, arrival_subsetDfa_eq_some_iff.mpr ⟨t, stands, run⟩,
      (accept_subsetDfa stands).trans accepts⟩

section Response

variable (nonempty : a.isEmpty = false)
  (noEpsilon : ∀ i j, (Label.epsilon, j) ∉ a.labelledTargets i)

include nonempty noEpsilon

theorem response_subsetDfa_eq_none_iff {w : List UInt8} :
    a.subsetDfa.response w = none ↔ ∀ j, ¬ Run a.labelledTargets a.entry w j := by
  rw [Option.eq_none_iff_forall_ne_some]
  constructor
  · intro none j run
    obtain ⟨t, reached⟩ := exists_run_subsetEdges noEpsilon run
      (StateSet.contains_singleton.mpr rfl)
    exact none _ ((response_subsetDfa_eq_some_iff nonempty).mpr ⟨t, reached, rfl⟩)
  · intro none answer found
    obtain ⟨t, reached, -⟩ := (response_subsetDfa_eq_some_iff nonempty).mp found
    have inhabited := nonempty_of_run_subsetEdges reached
      (StateSet.isEmpty_eq_false_iff.mpr ⟨_, StateSet.contains_singleton.mpr rfl⟩)
    obtain ⟨j, member⟩ := StateSet.isEmpty_eq_false_iff.mp inhabited
    obtain ⟨i, source, run⟩ := (contains_of_run_subsetEdges noEpsilon reached).mp member
    rw [StateSet.contains_singleton.mp source] at run
    exact none j run

/-- The response to a byte string on which the walk does not stop is the lowest rule it yields. -/
theorem isLowest_response_subsetDfa {w : List UInt8} {answer : Option Nat}
    (found : a.subsetDfa.response w = some answer) :
    IsLowest (Yields a.labelledTargets a.accept a.entry w) answer := by
  obtain ⟨t, reached, rfl⟩ := (response_subsetDfa_eq_some_iff nonempty).mp found
  refine isLowest_subsetAccept.congr fun rule => exists_congr fun j => and_congr_left' ?_
  rw [contains_of_run_subsetEdges noEpsilon reached]
  constructor
  · rintro ⟨i, source, run⟩
    rwa [StateSet.contains_singleton.mp source] at run
  · intro run
    exact ⟨_, StateSet.contains_singleton.mpr rfl, run⟩

end Response

end Automaton

end Munch
