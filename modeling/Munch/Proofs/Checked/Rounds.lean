import Munch.Proofs.Checked.Reduce

/-!
The rounds in which a state takes over what its epsilon edges lead to.

A round removes the first epsilon edge of the state, and what it adds leads to states that have not been
absorbed.  So no round takes an edge to a state that an earlier one took an edge to (`Fresh`), and there
are no more rounds than states (`Rounds.fresh`).  The state comes to a round that finds no edge to take
(`exists_rounds`).  Then it has the byte edges of the states that its epsilon edges led to before anything
was changed, and the lowest of their markers (`absorb_rounds`).
-/

set_option autoImplicit false

namespace Munch

theorem State.nodup_addEdges {s : State} (distinct : s.edges.Nodup) (edges : List Edge) :
    (s.addEdges edges).edges.Nodup := by
  rw [addEdges_eq_foldl]
  refine List.foldlRecOn (motive := fun s : State => s.edges.Nodup) _ _ distinct fun s distinct e _ => ?_
  rw [addEdge]
  split
  · exact distinct
  · rename_i missing
    rw [← List.concat_eq_append]
    exact distinct.concat missing

namespace Checked

/-- Rounds of a state, each with the target of the edge that it takes: what is pending and the graph
before the first and behind the last. -/
inductive Rounds (i : Nat) : List Nat → Automaton → List Nat → List Nat → Automaton → Prop where
  | stop (pending : List Nat) (g : Automaton) : Rounds i pending g [] pending g
  | round {pending rest pending' : List Nat} {g h g' : Automaton} {t : Nat} {ts : List Nat}
      (first : (g.edges i).find? Edge.isEpsilon = some ⟨.epsilon, t⟩)
      (took : absorbRound i pending g = .ok (some (rest, h)))
      (later : Rounds i rest h ts pending' g') : Rounds i pending g (t :: ts) pending' g'

/-- A state has taken edges to different states, all of which are absorbed, and has no edge to any of
them left. -/
structure Fresh (n : Nat) (taken : List Nat) (x : Absorption) : Prop where
  pending_nodup : x.pending.Nodup
  edges_nodup : x.state.edges.Nodup
  taken_nodup : taken.Nodup
  taken_lt : ∀ t ∈ taken, t < n
  absorbed : ∀ t ∈ taken, t ∉ x.pending
  gone : ∀ t ∈ taken, (⟨.epsilon, t⟩ : Edge) ∉ x.state.edges

namespace Fresh

variable {n : Nat} {taken : List Nat} {x y : Absorption}

theorem length_le (fresh : Fresh n taken x) : taken.length ≤ n := by
  have listed : taken ⊆ List.range n := fun t mem => List.mem_range.mpr (fresh.taken_lt t mem)
  have bound := List.Nodup.length_le_of_subset fresh.taken_nodup listed
  rwa [List.length_range] at bound

theorem start {i : Nat} {s : State} (distinct : s.edges.Nodup) :
    Fresh n [] ⟨(List.range n).erase i, s⟩ where
  pending_nodup := List.nodup_range.erase i
  edges_nodup := distinct
  taken_nodup := List.nodup_nil
  taken_lt := nofun
  absorbed := nofun
  gone := nofun

/-- A step takes an edge to another state than those before it, for none of them has one left. -/
theorem step {look : Nat → State} {t : Nat} (fresh : Fresh n taken x)
    (first : x.state.edges.find? Edge.isEpsilon = some ⟨.epsilon, t⟩) (inside : t < n)
    (stepped : x.step look = some y) : Fresh n (taken ++ [t]) y := by
  have edge := List.mem_of_find?_eq_some first
  have nodup : (taken ++ [t]).Nodup := by
    rw [← List.concat_eq_append]
    exact fresh.taken_nodup.concat fun mem => fresh.gone t mem edge
  have bound : ∀ u ∈ taken ++ [t], u < n := by
    intro u mem
    rcases List.mem_append.mp mem with old | last
    · exact fresh.taken_lt u old
    · rwa [List.mem_singleton.mp last]
  have erased : ∀ u ∈ taken ++ [t],
      (⟨.epsilon, u⟩ : Edge) ∉ x.state.edges.erase ⟨.epsilon, t⟩ := by
    intro u mem left
    rcases List.mem_append.mp mem with old | last
    · exact fresh.gone u old (List.mem_of_mem_erase left)
    · rw [List.mem_singleton.mp last] at left
      exact fresh.edges_nodup.not_mem_erase left
  obtain ⟨t', found, ⟨waits, rfl⟩ | ⟨gone, rfl⟩⟩ := Absorption.step_cases stepped
  · rw [first] at found
    cases found
    have absorbed : ∀ u ∈ taken ++ [t], u ∉ x.pending.erase t := by
      intro u mem waiting
      rcases List.mem_append.mp mem with old | last
      · exact fresh.absorbed u old (List.mem_of_mem_erase waiting)
      · rw [List.mem_singleton.mp last] at waiting
        exact fresh.pending_nodup.not_mem_erase waiting
    refine ⟨fresh.pending_nodup.erase t, State.nodup_addEdges (fresh.edges_nodup.erase _) _, nodup,
      bound, absorbed, fun u mem added => ?_⟩
    rcases State.mem_addEdges.mp added with old | new
    · exact erased u mem old
    · -- an edge to an absorbed state is not added back
      have waiting : u ∈ x.pending.erase t := by
        simpa [Edge.isEpsilon] using (List.mem_filter.mp new).2
      exact absorbed u mem waiting
  · rw [first] at found
    cases found
    refine ⟨fresh.pending_nodup, fresh.edges_nodup.erase _, nodup, bound, fun u mem => ?_, erased⟩
    rcases List.mem_append.mp mem with old | last
    · exact fresh.absorbed u old
    · rwa [List.mem_singleton.mp last]

end Fresh

section Rounds

variable {a g : Automaton} {i : Nat} {x : Absorption} {pending taken ts : List Nat}

theorem Rounds.fresh {first : List Nat} {start : Automaton}
    (rounds : Rounds i first start ts pending g) (inside : i < a.size) (free : i ∉ x.pending)
    (targets : ∀ e ∈ x.state.edges, e.target < a.size) (fresh : Fresh a.size taken x)
    (same : first = x.pending) (begun : start = a.setState i x.state targets) :
    ∃ y targets', pending = y.pending ∧ g = a.setState i y.state targets' ∧
      Fresh a.size (taken ++ ts) y := by
  induction rounds generalizing x taken with
  | stop first start =>
      refine ⟨x, targets, same, begun, ?_⟩
      rwa [List.append_nil]
  | @round first rest _ start h _ t ts edge took later ih =>
      subst same begun
      cases stepped : x.step a.state with
      | none =>
          rw [absorbRound_eq_none inside stepped] at took
          cases took
      | some y =>
          rw [absorbRound_eq_some inside free stepped] at took
          cases took
          rw [Automaton.edges, Automaton.state_setState_self inside] at edge
          have next := fresh.step edge (targets _ (List.mem_of_find?_eq_some edge)) stepped
          have behind := ih (fun mem => free (pending_step stepped i mem)) _ next rfl rfl
          rwa [List.append_assoc] at behind

theorem exists_rounds (inside : i < a.size) (free : i ∉ x.pending)
    (targets : ∀ e ∈ x.state.edges, e.target < a.size) {s : State}
    (own : ∀ e ∈ s.edges, e.target < a.size) : x.run a.state = s →
      ∃ ts pending, Rounds i x.pending (a.setState i x.state targets) ts pending
          (a.setState i s own) ∧
        absorbRound i pending (a.setState i s own) = .ok none := by
  fun_induction Absorption.run a.state x with
  | case1 x ended =>
      intro same
      cases same
      exact ⟨[], x.pending, .stop _ _, absorbRound_eq_none inside ended⟩
  | case2 x y stepped ih =>
      intro same
      obtain ⟨t, edge, -⟩ := Absorption.step_cases stepped
      have first : ((a.setState i x.state targets).edges i).find? Edge.isEpsilon =
          some ⟨.epsilon, t⟩ := by
        rwa [Automaton.edges, Automaton.state_setState_self inside]
      obtain ⟨ts, pending, rounds, ended⟩ :=
        ih (fun mem => free (pending_step stepped i mem)) _ same
      exact ⟨t :: ts, pending, .round first (absorbRound_eq_some inside free stepped) rounds, ended⟩

theorem state_foldl_absorb {listed : List Nat} (other : i ∉ listed) :
    (listed.foldl Automaton.absorb a).state i = a.state i := by
  refine List.foldlRecOn (motive := fun g : Automaton => g.state i = a.state i) _ _ rfl ?_
  intro g same j mem
  have ne : i ≠ j := fun eq => other (eq ▸ mem)
  rw [Automaton.state_absorb_of_ne ne, same]

/-- The rounds of a state: no two take edges to the same state, no edge to a state that was absorbed
comes back, and there is a last one. -/
theorem rounds_absorb (inside : i < a.size) (distinct : (a.edges i).Nodup) :
    (∀ ts pending g, Rounds i ((List.range a.size).erase i) a ts pending g →
        ts.Nodup ∧ ts.length ≤ a.size ∧ (g.edges i).Nodup ∧
          ∀ t ∈ ts, t ∉ pending ∧ (⟨.epsilon, t⟩ : Edge) ∉ g.edges i) ∧
      ∃ ts pending, Rounds i ((List.range a.size).erase i) a ts pending (a.absorb i) ∧
        absorbRound i pending (a.absorb i) = .ok none := by
  have free : i ∉ (List.range a.size).erase i := List.nodup_range.not_mem_erase
  have own : ∀ e ∈ (a.state i).edges, e.target < a.size := fun _ => Automaton.edge_target_lt
  have looked : ∀ j, ∀ e ∈ (a.state j).edges, e.target < a.size :=
    fun _ _ => Automaton.edge_target_lt
  have begun : a = a.setState i (a.state i) own := Automaton.setState_self.symm
  constructor
  · intro ts pending g rounds
    obtain ⟨y, targets, rfl, rfl, fresh⟩ := rounds.fresh
      (x := ⟨(List.range a.size).erase i, a.state i⟩) inside free own (.start distinct) rfl begun
    rw [List.nil_append] at fresh
    rw [Automaton.edges, Automaton.state_setState_self inside]
    exact ⟨fresh.taken_nodup, fresh.length_le, fresh.edges_nodup,
      fun t mem => ⟨fresh.absorbed t mem, fresh.gone t mem⟩⟩
  · obtain ⟨ts, pending, rounds, ended⟩ := exists_rounds
      (x := ⟨(List.range a.size).erase i, a.state i⟩) inside free own
      (Absorption.run_target_lt looked own) rfl
    rw [← begun] at rounds
    exact ⟨ts, pending, rounds, ended⟩

end Rounds

/-- Let no state of an automaton have an edge twice.  When it is the turn of a reachable state to take
over what its epsilon edges lead to, no two rounds of it take edges to the same state, and no edge to a
state that was absorbed comes back.  So after at most as many rounds as there are states, one finds
nothing to take.  The state is left with the byte edges that the states of its closure, itself among
them, had in the beginning, each once, and with the lowest of their markers. -/
theorem absorb_rounds {a : Automaton} (distinct : ∀ j, (a.edges j).Nodup)
    {before after : List Nat} {i : Nat} (order : a.reachable = before ++ i :: after) :
    ∃ work complete : Automaton,
      before.foldlM absorb a = .ok work ∧ absorb work i = .ok complete ∧
      (∀ ts pending g, Rounds i ((List.range a.size).erase i) work ts pending g →
        ts.Nodup ∧ ts.length ≤ a.size ∧
          ∀ t ∈ ts, t ∉ pending ∧ (⟨.epsilon, t⟩ : Edge) ∉ g.edges i) ∧
      (∃ ts pending, Rounds i ((List.range a.size).erase i) work ts pending complete ∧
        absorbRound i pending complete = .ok none) ∧
      (∀ j, (⟨.epsilon, j⟩ : Edge) ∉ complete.edges i) ∧
      (complete.edges i).Nodup ∧
      (∀ b t, (⟨.byte b, t⟩ : Edge) ∈ complete.edges i ↔
        ∃ j, Run a.labelledTargets i [] j ∧ (⟨.byte b, t⟩ : Edge) ∈ a.edges j) ∧
      IsLowest (fun rule => ∃ j, Run a.labelledTargets i [] j ∧ a.accept j = some rule)
        (complete.accept i) := by
  have reached : ∀ j ∈ before ++ [i], j < a.size := by
    intro j mem
    apply Automaton.reachable_lt
    rw [order, List.append_cons]
    exact List.mem_append_left _ mem
  have earlier : ∀ j ∈ before, j < a.size := fun j mem => reached j (List.mem_append_left _ mem)
  have other : i ∉ before := by
    have nodup := a.nodup_reachable
    rw [order] at nodup
    exact fun mem => (List.nodup_append.mp nodup).2.2 i mem i List.mem_cons_self rfl
  obtain ⟨reduction, -⟩ := Automaton.reduction_foldl before a earlier
  have unchanged : (before.foldl Automaton.absorb a).state i = a.state i := state_foldl_absorb other
  have loaded := foldlM_absorb_eq earlier
  generalize before.foldl Automaton.absorb a = work at reduction unchanged loaded
  have size := reduction.size_eq
  have inside : i < work.size := by
    rw [size]
    exact reached i (List.mem_append_right _ List.mem_cons_self)
  have own : (work.edges i).Nodup := by
    rw [Automaton.edges, unchanged]
    exact distinct i
  have closed := Automaton.complete_absorb inside
  obtain ⟨each, last⟩ := rounds_absorb inside own
  rw [size] at each last
  refine ⟨work, work.absorb i, loaded, absorb_eq inside, fun ts pending g rounds => ?_, last,
    closed.noEpsilon, ?_, fun b t => ?_, ?_⟩
  · obtain ⟨nodup, bound, -, gone⟩ := each ts pending g rounds
    exact ⟨nodup, bound, gone⟩
  · obtain ⟨ts, pending, rounds, -⟩ := last
    exact (each ts pending _ rounds).2.2.1
  · apply ((closed.moves b t).trans (reduction.moves_iff i b t)).trans
    exact exists_congr fun j => and_congr_right' Automaton.mem_labelledTargets
  · exact closed.lowest.of_minorizes (reduction.yields_nil i)

/-- Edges that consume nothing lead round in a circle, and from the entry to itself. -/
def eddy : Automaton where
  states := #[⟨[⟨.epsilon, 0⟩, ⟨.epsilon, 1⟩, ⟨.byte 97, 1⟩], none⟩, ⟨[⟨.epsilon, 2⟩], some 3⟩,
    ⟨[⟨.epsilon, 0⟩, ⟨.byte 122, 2⟩], some 5⟩]
  entry := 0
  target_lt := by decide
  entry_lt := by decide

theorem absorb_rounds_eddy :
    (∀ j, (eddy.edges j).Nodup) ∧ eddy.reachable = [0] ++ 1 :: [2] ∧
      ∃ work complete, [0].foldlM absorb eddy = .ok work ∧ absorb work 1 = .ok complete ∧
        (∃ ts pending, Rounds 1 [0, 2] work ts pending complete ∧ ts.Nodup ∧ ts.length ≤ 3) ∧
        (⟨.byte 97, 1⟩ : Edge) ∈ complete.edges 1 ∧ (⟨.byte 122, 2⟩ : Edge) ∈ complete.edges 1 ∧
        complete.accept 1 = some 3 := by
  have distinct : ∀ j, (eddy.edges j).Nodup := by
    rintro (_ | _ | _ | j)
    · decide
    · decide
    · decide
    · exact List.nodup_nil
  have order : eddy.reachable = [0] ++ 1 :: [2] := by decide
  obtain ⟨work, complete, loaded, done, each, ⟨ts, pending, rounds, -⟩, -, -, bytes, lowest⟩ :=
    absorb_rounds distinct order
  obtain ⟨nodup, bound, -⟩ := each ts pending complete rounds
  have ahead : Run eddy.labelledTargets 1 [] 2 := .skip (y := 2) (by decide) (.stop 2)
  have back : Run eddy.labelledTargets 1 [] 0 := ahead.append (.skip (y := 0) (by decide) (.stop 0))
  refine ⟨distinct, order, work, complete, loaded, done, ⟨ts, pending, rounds, nodup, bound⟩,
    (bytes 97 1).mpr ⟨0, back, by decide⟩, (bytes 122 2).mpr ⟨2, ahead, by decide⟩, ?_⟩
  refine lowest.unique ⟨⟨1, .stop 1, by decide⟩, ?_⟩
  rintro rule ⟨j, -, accepts⟩
  have markers : ∀ j < eddy.size, ∀ least ∈ eddy.accept j, 3 ≤ least := by decide
  exact markers j (Automaton.lt_size_of_accept accepts) rule accepts

end Checked

end Munch
