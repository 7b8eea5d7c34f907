import Munch.Proofs.Dfa.Canonical
import Munch.Proofs.Dfa.Marking

/-!
The minimal automaton.

States that respond alike have the same representative, the earliest of them
(`earliest_eq_iff`).  The automaton of the representatives carries their responses
(`responds_merged`), so minimization keeps all responses (`response_minimize`), its states respond
differently, and it is made of nothing but the response of the entry (`minimize_canonical`).
-/

set_option autoImplicit false

namespace Munch.Dfa

variable {d : Dfa} {i j k : Nat}

def earliest (d : Dfa) (i : Nat) : Nat :=
  representative d.marking.2 i

theorem earliest_le (d : Dfa) (i : Nat) : d.earliest i ≤ i := by
  rw [earliest, representative]
  cases found : (List.range i).find? fun j => !d.marking.2.contains j i with
  | none => exact Nat.le_refl i
  | some j => exact Nat.le_of_lt (List.mem_range.mp (List.mem_of_find?_eq_some found))

theorem earliest_lt (hi : i < d.size) : d.earliest i < d.size :=
  Nat.lt_of_le_of_lt (d.earliest_le i) hi

theorem responseFrom_earliest (hi : i < d.size) :
    d.responseFrom (d.earliest i) = d.responseFrom i := by
  have bound := d.earliest_le i
  rw [earliest, representative] at bound ⊢
  cases found : (List.range i).find? fun j => !d.marking.2.contains j i with
  | none => rfl
  | some j =>
      rw [found, Option.getD_some] at bound
      have unmarked : ¬ d.marking.2.contains j i = true := by simpa using List.find?_some found
      rw [contains_marking_iff (Nat.lt_of_le_of_lt bound hi) hi] at unmarked
      exact not_not.mp unmarked

theorem responseFrom_ne_of_lt_earliest (hi : i < d.size) (before : k < d.earliest i) :
    d.responseFrom k ≠ d.responseFrom i := by
  have below : k < i := Nat.lt_of_lt_of_le before (d.earliest_le i)
  refine (contains_marking_iff (Nat.lt_trans below hi) hi).mp ?_
  rw [earliest, representative] at before
  cases found : (List.range i).find? fun j => !d.marking.2.contains j i with
  | none => simpa using List.find?_eq_none.mp found k (List.mem_range.mpr below)
  | some j =>
      rw [found] at before
      have earlier := (List.find?_range_eq_some.mp found).2.2 k before
      simpa using earlier

/-- States have the same representative exactly if they respond alike. -/
theorem earliest_eq_iff (hi : i < d.size) (hj : j < d.size) :
    d.earliest i = d.earliest j ↔ d.responseFrom i = d.responseFrom j := by
  constructor
  · intro same
    rw [← responseFrom_earliest hi, same, responseFrom_earliest hj]
  · intro same
    refine Nat.le_antisymm (Nat.le_of_not_lt fun less => ?_) (Nat.le_of_not_lt fun less => ?_)
    · exact responseFrom_ne_of_lt_earliest hi less ((responseFrom_earliest hj).trans same.symm)
    · exact responseFrom_ne_of_lt_earliest hj less ((responseFrom_earliest hi).trans same)

theorem earliest_earliest (hi : i < d.size) : d.earliest (d.earliest i) = d.earliest i :=
  (earliest_eq_iff (earliest_lt hi) hi).mpr (responseFrom_earliest hi)

def representatives (d : Dfa) : List Nat :=
  (List.range d.size).filter fun i => d.earliest i = i

theorem mem_representatives : i ∈ d.representatives ↔ i < d.size ∧ d.earliest i = i := by
  rw [representatives, List.mem_filter, List.mem_range, decide_eq_true_eq]

theorem nodup_representatives (d : Dfa) : d.representatives.Nodup :=
  List.nodup_range.filter _

theorem representatives_zero (states : 0 < d.size) : d.representatives[0]? = some 0 := by
  have first : d.earliest 0 = 0 := Nat.le_zero.mp (d.earliest_le 0)
  obtain ⟨n, size⟩ := Nat.exists_eq_add_of_lt states
  rw [representatives, size, List.range_succ_eq_map, List.filter_cons, first]
  rfl

def merged (d : Dfa) : Automaton :=
  d.mergedGraph d.marking.2

theorem merged_eq (d : Dfa) :
    d.merged = .ofNodes d.representatives (d.mergedEdges d.marking.2) d.accept := rfl

theorem size_merged (d : Dfa) : d.merged.size = d.representatives.length :=
  Automaton.size_ofNodes

theorem size_merged_le (d : Dfa) : d.merged.size ≤ d.size := by
  have bound := List.length_filter_le (fun i => decide (d.earliest i = i)) (List.range d.size)
  rwa [List.length_range, ← representatives, ← size_merged] at bound

theorem isEmpty_merged (d : Dfa) : d.merged.isEmpty = d.isEmpty := by
  have states : d.merged.size = 0 ↔ d.graph.size = 0 := by
    constructor
    · intro none
      refine Nat.eq_zero_of_not_pos fun positive => ?_
      have first := representatives_zero (d := d) positive
      rw [List.eq_nil_of_length_eq_zero ((d.size_merged).symm.trans none)] at first
      cases first
    · intro none
      exact Nat.le_zero.mp (none ▸ d.size_merged_le)
  exact decide_eq_decide.mpr states

def responseAt (d : Dfa) (k : Nat) : Response :=
  d.responseFrom (d.representatives[k]?.getD 0)

theorem responseAt_eq (found : d.representatives[k]? = some i) : d.responseAt k = d.responseFrom i := by
  rw [responseAt, found, Option.getD_some]

theorem map_mergedEdges (d : Dfa) (i : Nat) :
    (d.mergedEdges d.marking.2 i).map (fun e => (e.1, d.responseFrom e.2)) =
      Response.residuals (d.responseFrom i) := by
  rw [← d.map_edges_eq_residuals i, mergedEdges, List.map_map]
  refine List.map_congr_left fun e mem => ?_
  exact congrArg (Prod.mk e.label) (responseFrom_earliest (target_lt mem))

theorem mergedEdges_closed (d : Dfa) (i : Nat) :
    ∀ e ∈ d.mergedEdges d.marking.2 i, e.2 ∈ d.representatives := by
  intro e mem
  obtain ⟨edge, given, rfl⟩ := List.mem_map.mp mem
  have inside := target_lt given
  exact mem_representatives.mpr ⟨earliest_lt inside, earliest_earliest inside⟩

theorem exists_representative (hk : k < d.merged.size) : ∃ i, d.representatives[k]? = some i := by
  rw [size_merged] at hk
  exact ⟨_, List.getElem?_eq_getElem hk⟩

theorem responds_merged (d : Dfa) : Responds d.merged d.responseAt := by
  refine ⟨fun k hk => ?_, fun k => d.responds_graph.stops _, fun k hk => ?_⟩
  · obtain ⟨i, found⟩ := exists_representative hk
    rw [responseAt_eq found, responseFrom_nil, merged_eq, Automaton.accept_ofNodes found]
  · obtain ⟨i, found⟩ := exists_representative hk
    rw [merged_eq, Automaton.labelledTargets, Automaton.edges, Automaton.state_ofNodes found,
      List.map_map, responseAt_eq found, ← d.map_mergedEdges i]
    exact Automaton.map_numberEdges d.nodup_representatives (d.mergedEdges_closed i)
      fun l j listed => responseAt_eq listed

theorem responseAt_injective {l : Nat} (hk : k < d.merged.size) (hl : l < d.merged.size)
    (same : d.responseAt k = d.responseAt l) : k = l := by
  obtain ⟨i, atK⟩ := exists_representative hk
  obtain ⟨j, atL⟩ := exists_representative hl
  obtain ⟨hi, firstI⟩ := mem_representatives.mp (List.mem_of_getElem? atK)
  obtain ⟨hj, firstJ⟩ := mem_representatives.mp (List.mem_of_getElem? atL)
  rw [responseAt_eq atK, responseAt_eq atL, ← earliest_eq_iff hi hj, firstI, firstJ] at same
  rw [size_merged] at hk
  exact (List.getElem?_inj hk d.nodup_representatives).mp (by rw [atK, atL, same])

theorem merged_isDeterministic (d : Dfa) : d.merged.isDeterministic = true :=
  d.mergedGraph_isDeterministic _

theorem minimize_eq (d : Dfa) : d.minimize = freeze d.merged d.merged_isDeterministic := rfl

theorem responseAt_entry (states : d.isEmpty = false) :
    d.responseAt d.merged.entry = d.responseFrom d.entry := by
  have positive : 0 < d.size := Nat.pos_of_ne_zero (of_decide_eq_false states)
  rw [d.entry_eq_zero]
  exact responseAt_eq (representatives_zero positive)

theorem response_minimize (d : Dfa) : d.minimize.response = d.response := by
  funext w
  rw [minimize_eq, d.responds_merged.response_freeze, isEmpty_merged, response]
  cases states : d.isEmpty with
  | true => rfl
  | false => rw [responseAt_entry states]

theorem size_minimize_le (d : Dfa) : d.minimize.size ≤ d.size := by
  rw [minimize_eq, size_freeze]
  exact Nat.le_trans d.merged.length_reachable_le d.size_merged_le

theorem responseFrom_minimize_injective (hi : i < d.minimize.size) (hj : j < d.minimize.size)
    (same : d.minimize.responseFrom i = d.minimize.responseFrom j) : i = j := by
  rw [minimize_eq, size_freeze] at hi hj
  have atI := List.getElem?_eq_getElem hi
  have atJ := List.getElem?_eq_getElem hj
  rw [minimize_eq, d.responds_merged.responseFrom_freeze atI,
    d.responds_merged.responseFrom_freeze atJ] at same
  have inI := Automaton.reachable_lt (List.mem_of_getElem? atI)
  have inJ := Automaton.reachable_lt (List.mem_of_getElem? atJ)
  have states := responseAt_injective inI inJ same
  exact (List.getElem?_inj hi (Automaton.nodup_reachable _)).mp (by rw [atI, atJ, states])

/-- The graph of a minimized automaton depends on the response of the automaton alone. -/
theorem graph_minimize {steps : Nat} (enough : d.size ≤ steps) :
    d.minimize.graph = (Response.automaton d.response steps).sortEdges := by
  have graph : d.minimize.graph = d.merged.compact.sortEdges := rfl
  rw [graph]
  cases states : d.isEmpty with
  | false =>
      have nonempty : d.merged.isEmpty = false := d.isEmpty_merged.trans states
      have entry : d.responseAt d.merged.entry = d.response := by
        funext w
        rw [responseAt_entry states, response, states]
        rfl
      rw [d.responds_merged.compact_eq nonempty (fun k hk l hl => responseAt_injective hk hl)
        (Nat.le_trans d.size_merged_le enough), entry]
  | true =>
      have empty : d.merged.isEmpty = true := d.isEmpty_merged.trans states
      have stops : (d.response []).isSome = false := by simp [response, states]
      have none : d.merged.reachable = [] := by simp [Automaton.reachable, empty]
      rw [Automaton.compact, none, Response.automaton, stops]
      rfl

theorem ext_of_graph {d e : Dfa} (same : d.graph = e.graph) : d = e := by
  cases d
  cases e
  cases same
  rfl

theorem minimize_eq_of_response_eq {d e : Dfa} (same : d.response = e.response) :
    d.minimize = e.minimize := by
  refine ext_of_graph ?_
  -- the search among the responses may take more steps than it needs, so both can take as many
  rw [graph_minimize (Nat.le_max_left d.size e.size),
    graph_minimize (Nat.le_max_right d.size e.size), same]

/-- Minimization is a canonical form: it depends on the responses alone, it changes nothing when it
is repeated, and the states it leaves respond differently. -/
theorem minimize_canonical :
    (∀ d e : Dfa, (∀ w, d.response w = e.response w) → d.minimize = e.minimize) ∧
    ∀ d : Dfa, d.minimize.entry = 0 ∧ d.minimize.minimize = d.minimize ∧
      ∀ i < d.minimize.size, ∀ j < d.minimize.size,
        (∀ w, d.minimize.responseFrom i w = d.minimize.responseFrom j w) → i = j := by
  refine ⟨fun d e same => minimize_eq_of_response_eq (funext same), fun d => ⟨?_, ?_, ?_⟩⟩
  · exact d.minimize.entry_eq_zero
  · exact minimize_eq_of_response_eq d.response_minimize
  · intro i hi j hj same
    exact responseFrom_minimize_injective hi hj (funext same)

/-- From every state the byte `a` alone leads on, and every state accepts the rule zero. -/
structure Ring (a : Automaton) : Prop where
  nonempty : a.isEmpty = false
  edges_eq : ∀ i < a.size, ∃ j < a.size, a.labelledTargets i = [(.byte 97, j)]
  accept_eq : ∀ i < a.size, a.accept i = some 0

theorem Ring.runs_iff {a : Automaton} (ring : Ring a) {w : List UInt8} (hi : i < a.size)
    {answer : Option Nat} :
    (∃ j, Run a.labelledTargets i w j ∧ a.accept j = answer) ↔
      (∀ b ∈ w, b = 97) ∧ answer = some 0 := by
  induction w generalizing i with
  | nil =>
      simp only [List.not_mem_nil, false_implies, implies_true, true_and]
      constructor
      · rintro ⟨j, run, rfl⟩
        obtain ⟨k, -, edges⟩ := ring.edges_eq i hi
        cases run with
        | stop => exact ring.accept_eq i hi
        | skip edge => simp [edges] at edge
      · rintro rfl
        exact ⟨i, .stop i, ring.accept_eq i hi⟩
  | cons b rest ih =>
      obtain ⟨k, hk, edges⟩ := ring.edges_eq i hi
      rw [List.forall_mem_cons, and_assoc, ← ih hk]
      constructor
      · rintro ⟨j, run, accepts⟩
        cases run with
        | skip edge => simp [edges] at edge
        | take edge run =>
            simp only [edges, List.mem_singleton, Prod.mk.injEq, Label.byte.injEq] at edge
            obtain ⟨rfl, rfl⟩ := edge
            exact ⟨rfl, j, run, accepts⟩
      · rintro ⟨rfl, j, run, accepts⟩
        exact ⟨j, .take (by simp [edges]) run, accepts⟩

theorem Ring.response_eq {a b : Automaton} (first : Ring a) (second : Ring b)
    {detA : a.isDeterministic = true} {detB : b.isDeterministic = true} (w : List UInt8) :
    (freeze a detA).response w = (freeze b detB).response w := by
  refine Option.ext fun answer => ?_
  rw [response_freeze_eq_some_iff, response_freeze_eq_some_iff, first.nonempty, second.nonempty,
    first.runs_iff (Automaton.entry_lt_size first.nonempty),
    second.runs_iff (Automaton.entry_lt_size second.nonempty)]

def loop : Automaton where
  states := #[⟨[⟨.byte 97, 0⟩], some 0⟩]
  entry := 0
  target_lt := by simp
  entry_lt := .inl rfl

def swing : Automaton where
  states := #[⟨[⟨.byte 97, 1⟩], some 0⟩, ⟨[⟨.byte 97, 0⟩], some 0⟩]
  entry := 0
  target_lt := by simp
  entry_lt := .inl rfl

theorem ring_loop : Ring loop := by
  refine ⟨rfl, fun i hi => ?_, fun i hi => ?_⟩
  all_goals
    obtain rfl : i = 0 := Nat.lt_one_iff.mp hi
  · exact ⟨0, hi, rfl⟩
  · rfl

theorem ring_swing : Ring swing := by
  refine ⟨rfl, fun i hi => ?_, fun i hi => ?_⟩
  all_goals
    have cases : i = 0 ∨ i = 1 := by
      have bound : i < 2 := hi
      omega
    rcases cases with rfl | rfl
  · exact ⟨1, by decide, rfl⟩
  · exact ⟨0, by decide, rfl⟩
  · rfl
  · rfl

theorem minimize_loop_eq_minimize_swing :
    (freeze loop (by decide)).size ≠ (freeze swing (by decide)).size ∧
    (freeze loop (by decide)).minimize = (freeze swing (by decide)).minimize := by
  refine ⟨by rw [size_freeze, size_freeze]; decide, ?_⟩
  exact minimize_canonical.1 _ _ (ring_loop.response_eq ring_swing)

end Munch.Dfa
