import Munch.Automaton.EpsilonFree
import Munch.Proofs.Automaton.Absorption
import Munch.Proofs.Checked.Automaton
import Munch.Proofs.Dfa.Canonical

/-!
Removing the edges that consume nothing, checked.

A state takes over the targets of its epsilon edges while the graph changes: each round removes an
edge of the state from the graph, and adds edges and a marker to the state while it looks at another
one.  The rounds never look at the state that changes (it is not pending), so they do to the graph what
`Absorption.step` does to the state alone (`absorbRound_eq_some`), and the edge that a round removes is
there because it has just been found.
-/

set_option autoImplicit false

namespace Munch

theorem State.addEdges_eq_foldl (edges : List Edge) (s : State) :
    s.addEdges edges = edges.foldl State.addEdge s := by
  have folded : ∀ (seen : Std.HashSet Edge) (s : State), (∀ e, e ∈ seen ↔ e ∈ s.edges) →
      (⟨s.edges ++ unseenEdges seen edges, s.accept⟩ : State) = edges.foldl State.addEdge s := by
    induction edges with
    | nil => simp [unseenEdges]
    | cons e rest ih =>
        intro seen s same
        have known : seen.contains e = true ↔ e ∈ s.edges := by
          rw [Std.HashSet.contains_iff_mem]
          exact same e
        rw [List.foldl_cons, unseenEdges, addEdge]
        by_cases old : e ∈ s.edges
        · rw [if_pos (known.mpr old), if_pos old]
          exact ih seen s same
        · rw [if_neg fun had => old (known.mp had), if_neg old, ← ih (seen.insert e)]
          · simp
          · intro f
            simp only [Std.HashSet.mem_insert, beq_iff_eq, same, List.mem_append,
              List.mem_singleton]
            rw [or_comm, eq_comm]
  exact folded _ s fun e => by simp

namespace Automaton

variable {a : Automaton} {i : Nat} {s t : State} {targets : ∀ e ∈ s.edges, e.target < a.size}

theorem setState_setState {again : ∀ e ∈ t.edges, e.target < (a.setState i s targets).size} :
    (a.setState i s targets).setState i t again =
      a.setState i t fun e mem => by simpa using again e mem :=
  ext_of_states (by simp [setState]) rfl

theorem setState_self : a.setState i (a.state i) (fun _ => edge_target_lt) = a := by
  refine ext_of_states (Array.ext_getElem? fun j => ?_) rfl
  simp only [setState, Array.getElem?_setIfInBounds]
  split
  · rename_i same
    subst same
    split
    · rename_i inside
      simp [state, inside]
    · rename_i outside
      simp [outside]
  · rfl

theorem state_setState_self (inside : i < a.size) : (a.setState i s targets).state i = s := by
  rw [state_setState, if_pos ⟨rfl, inside⟩]

theorem state_setState_of_ne {j : Nat} (ne : j ≠ i) :
    (a.setState i s targets).state j = a.state j := by
  rw [state_setState, if_neg fun both => ne both.1]

theorem removeEdge_setState (inside : i < a.size) {e : Edge} (mem : e ∈ s.edges) :
    (a.setState i s targets).removeEdge i e =
      .ok (a.setState i ⟨s.edges.erase e, s.accept⟩ fun f kept =>
        targets f (List.mem_of_mem_erase kept)) := by
  have own : (a.setState i s targets).state i = s := state_setState_self inside
  have edge : e ∈ (a.setState i s targets).edges i := by rwa [edges, own]
  rw [removeEdge, if_pos edge, setState_setState]
  simp only [edges, accept, own]

theorem addEdge_setState (inside : i < a.size) {e : Edge} (target : e.target < a.size) :
    (a.setState i s targets).addEdge i e.label e.target =
      a.setState i (s.addEdge e) fun f mem =>
        (State.mem_addEdge.mp mem).elim (targets f) fun same => same ▸ target := by
  rw [addEdge, dif_pos (by simpa using target), setState_setState]
  congr 1
  rw [state_setState_self inside]

theorem mergeAccept_setState (inside : i < a.size) (rule : Option Nat) :
    (a.setState i s targets).mergeAccept i rule =
      a.setState i ⟨s.edges, minAccept s.accept rule⟩ targets := by
  rw [mergeAccept, setAccept, setState_setState]
  congr 1
  rw [edges, accept, state_setState_self inside]

end Automaton

namespace Checked

variable {a : Automaton} {i : Nat}

def removeEdge (a : Automaton) (source : Nat) (e : Edge) : Except Panic Automaton := do
  check source a.size
  (a.removeEdge source e).mapError .fault

def mergeAccept (a : Automaton) (i : Nat) (rule : Option Nat) : Except Panic Automaton := do
  check i a.size
  return a.mergeAccept i rule

/-- A round in which a state takes over what its first epsilon edge leads to, if it has one: the
states that it has not absorbed then, and the graph. -/
def absorbRound (i : Nat) (pending : List Nat) (a : Automaton) :
    Except Panic (Option (List Nat × Automaton)) := do
  let s ← state a i
  match s.edges.find? Edge.isEpsilon with
  | none => return none
  | some e =>
      let a ← removeEdge a i e
      if e.target ∈ pending then
        let rest := pending.erase e.target
        let target ← state a e.target
        let a ← mergeAccept a i target.accept
        let taken := target.edges.filter fun f => !f.isEpsilon || rest.contains f.target
        let a ← taken.foldlM (fun a f => addEdge a i f.label f.target) a
        return some (rest, a)
      else return some (pending, a)

theorem removeEdge_eq {b : Automaton} {e : Edge} (inside : i < a.size)
    (removed : a.removeEdge i e = .ok b) : removeEdge a i e = pure b := by
  rw [removeEdge, check_of_lt inside, pure_bind, removed]
  rfl

/-- A round absorbs a state, or leaves an edge less. -/
theorem absorbRound_shrinks {pending rest : List Nat} {b : Automaton}
    (round : absorbRound i pending a = .ok (some (rest, b))) :
    rest.length < pending.length ∨
      rest.length = pending.length ∧ (b.edges i).length < (a.edges i).length := by
  obtain ⟨s, looked, round⟩ := bind_eq_ok.mp round
  obtain ⟨_, _, same⟩ := bind_eq_ok.mp looked
  cases same
  split at round
  · cases round
  · rename_i e found
    -- the edge has been found in the graph, so it can be removed
    have mem := List.mem_of_find?_eq_some found
    have inside := Automaton.lt_size_of_mem_edges mem
    obtain ⟨g, removed, round⟩ := bind_eq_ok.mp round
    split at round
    · rename_i waits
      obtain ⟨_, _, round⟩ := bind_eq_ok.mp round
      obtain ⟨_, _, round⟩ := bind_eq_ok.mp round
      obtain ⟨_, _, round⟩ := bind_eq_ok.mp round
      cases round
      have := List.length_erase_of_mem waits
      have := List.length_pos_of_mem waits
      exact .inl (by omega)
    · rw [removeEdge_eq inside (if_pos mem)] at removed
      cases removed
      cases round
      have left := List.length_erase_of_mem mem
      have := List.length_pos_of_mem mem
      refine .inr ⟨rfl, ?_⟩
      rw [Automaton.edges, Automaton.state_setState_self inside]
      exact left.trans_lt (by simp only [Automaton.edges]; omega)

def absorbLoop (i : Nat) (pending : List Nat) (a : Automaton) : Except Panic Automaton :=
  match _round : absorbRound i pending a with
  | .error p => .error p
  | .ok none => .ok a
  | .ok (some (rest, b)) => absorbLoop i rest b
termination_by (pending.length, (a.edges i).length)
decreasing_by
  rcases absorbRound_shrinks _round with fewer | ⟨same, shorter⟩
  · exact Prod.Lex.left _ _ fewer
  · rw [same]
    exact Prod.Lex.right _ shorter

def absorb (a : Automaton) (i : Nat) : Except Panic Automaton :=
  absorbLoop i ((List.range a.size).erase i) a

def reduce (a : Automaton) : Except Panic Automaton := do
  let order ← reachable a
  let work ← order.foldlM absorb a
  compact work

theorem absorbLoop_unfold (i : Nat) (pending : List Nat) (a : Automaton) :
    absorbLoop i pending a = (do
      match ← absorbRound i pending a with
      | none => return a
      | some (rest, b) => absorbLoop i rest b) := by
  rw [absorbLoop]
  split
  · rename_i round
    rw [round]
    rfl
  · rename_i round
    rw [round]
    rfl
  · rename_i round
    rw [round]
    rfl

section Round

variable {x y : Absorption} {targets : ∀ e ∈ x.state.edges, e.target < a.size}

theorem absorbRound_eq_none (inside : i < a.size) (ended : x.step a.state = none) :
    absorbRound i x.pending (a.setState i x.state targets) = pure none := by
  have none : x.state.edges.find? Edge.isEpsilon = none := by
    rw [List.find?_eq_none]
    intro e mem
    exact Bool.eq_false_iff.mp (Absorption.not_epsilon_of_step_eq_none ended mem)
  rw [absorbRound, state_eq (by simpa), pure_bind, Automaton.state_setState_self inside, none]

theorem foldlM_addEdge (inside : i < a.size) (edges : List Edge)
    (inRange : ∀ e ∈ edges, e.target < a.size) {s : State}
    (own : ∀ e ∈ s.edges, e.target < a.size) :
    edges.foldlM (fun g e => addEdge g i e.label e.target) (a.setState i s own) =
      pure (a.setState i (s.addEdges edges) fun e mem =>
        (State.mem_addEdges.mp mem).elim (own e) (inRange e)) := by
  simp only [State.addEdges_eq_foldl]
  induction edges generalizing s with
  | nil => rfl
  | cons e rest ih =>
      obtain ⟨first, later⟩ := List.forall_mem_cons.mp inRange
      rw [List.foldlM_cons, addEdge_eq (by simpa) (by simpa), pure_bind,
        Automaton.addEdge_setState inside first, ih later]
      rfl

theorem absorbRound_eq_some (inside : i < a.size) (free : i ∉ x.pending)
    (stepped : x.step a.state = some y) :
    absorbRound i x.pending (a.setState i x.state targets) =
      pure (some (y.pending, a.setState i y.state
        (Absorption.step_target_lt (fun _ _ => Automaton.edge_target_lt) targets stepped))) := by
  have sized : i < (a.setState i x.state targets).size := by simpa
  unfold Absorption.step at stepped
  rw [absorbRound, state_eq sized, pure_bind, Automaton.state_setState_self inside]
  cases found : x.state.edges.find? Edge.isEpsilon with
  | none => simp [found] at stepped
  | some e =>
      have mem := List.mem_of_find?_eq_some found
      have removed := removeEdge_eq sized (Automaton.removeEdge_setState inside mem)
      simp only [removed, pure_bind]
      simp only [found] at stepped
      split at stepped
      · rename_i waits
        cases stepped
        -- the target is another state, so the graph has it as it was before the rounds
        have other : e.target ≠ i := fun same => free (same ▸ waits)
        rw [if_pos waits, state_eq (by simpa using targets e mem), pure_bind,
          Automaton.state_setState_of_ne other, mergeAccept, check_of_lt (by simpa), pure_bind,
          Automaton.mergeAccept_setState inside]
        rw [pure_bind, foldlM_addEdge inside, pure_bind]
        intro f mem
        exact Automaton.edge_target_lt (List.mem_filter.mp mem).1
      · rename_i gone
        cases stepped
        rw [if_neg gone]

theorem pending_step (stepped : x.step a.state = some y) : ∀ j ∈ y.pending, j ∈ x.pending := by
  intro j mem
  obtain ⟨t, -, ⟨-, rfl⟩ | ⟨-, rfl⟩⟩ := Absorption.step_cases stepped
  · exact List.mem_of_mem_erase mem
  · exact mem

theorem absorbLoop_eq (inside : i < a.size) (free : i ∉ x.pending)
    (targets : ∀ e ∈ x.state.edges, e.target < a.size) {s : State}
    (own : ∀ e ∈ s.edges, e.target < a.size) : x.run a.state = s →
      absorbLoop i x.pending (a.setState i x.state targets) = pure (a.setState i s own) := by
  fun_induction Absorption.run a.state x with
  | case1 x ended =>
      intro same
      cases same
      rw [absorbLoop_unfold, absorbRound_eq_none inside ended, pure_bind]
  | case2 x y stepped ih =>
      have later : i ∉ y.pending := fun mem => free (pending_step stepped i mem)
      rw [absorbLoop_unfold, absorbRound_eq_some inside free stepped, pure_bind]
      exact ih later _

end Round

theorem absorb_eq (inside : i < a.size) : absorb a i = pure (a.absorb i) := by
  have free : i ∉ (List.range a.size).erase i := List.nodup_range.not_mem_erase
  have own : ∀ e ∈ (a.state i).edges, e.target < a.size := fun _ => Automaton.edge_target_lt
  have looked : ∀ j, ∀ e ∈ (a.state j).edges, e.target < a.size :=
    fun _ _ => Automaton.edge_target_lt
  have looped := absorbLoop_eq (x := ⟨(List.range a.size).erase i, a.state i⟩) inside free own
    (Absorption.run_target_lt looked own) rfl
  rw [Automaton.setState_self] at looped
  exact looped

theorem foldlM_absorb_eq {listed : List Nat} (inside : ∀ i ∈ listed, i < a.size) :
    listed.foldlM absorb a = pure (listed.foldl Automaton.absorb a) := by
  apply foldlM_eq_pure fun g => g.size = a.size
  · rfl
  · intro g size i _
    rwa [Automaton.absorb, Automaton.size_setState]
  · intro g size i mem
    apply absorb_eq
    rw [size]
    exact inside i mem

theorem reduce_eq (a : Automaton) : reduce a = pure a.reduce := by
  rw [reduce, reachable_eq, pure_bind, foldlM_absorb_eq fun _ => Automaton.reachable_lt, pure_bind]
  exact compact_eq _

end Checked

end Munch
