import Munch.Automaton.Compact

/-!
Removing the edges that consume nothing.

A state takes over what its epsilon edges lead to: it removes its first epsilon edge, and if the
target has not been absorbed yet, adds the edges of the target to its own and keeps the lower of the
two rule markers.  Epsilon edges to absorbed states are not added, so cycles end.  The reachable
states do this one after the other in breadth-first order, each on the graph that those before it
left.
-/

set_option autoImplicit false

namespace Munch

/-- A state that is absorbing others: the states it has not absorbed, and what it has become. -/
structure Absorption where
  pending : List Nat
  state : State

namespace Absorption

/-- Takes over the first epsilon edge, if there is one. -/
def step (look : Nat → State) (x : Absorption) : Option Absorption :=
  match x.state.edges.find? Edge.isEpsilon with
  | none => none
  | some e =>
      let rest : State := ⟨x.state.edges.erase e, x.state.accept⟩
      if e.target ∈ x.pending then
        let pending := x.pending.erase e.target
        let taken := (look e.target).edges.filter fun f => !f.isEpsilon || pending.contains f.target
        some ⟨pending, (⟨rest.edges, minAccept rest.accept (look e.target).accept⟩ : State).addEdges
          taken⟩
      else some ⟨x.pending, rest⟩

theorem step_decreasing {look : Nat → State} {x y : Absorption} (stepped : x.step look = some y) :
    y.pending.length < x.pending.length ∨
      y.pending.length = x.pending.length ∧ y.state.edges.length < x.state.edges.length := by
  unfold step at stepped
  split at stepped
  · simp at stepped
  · rename_i e found
    have mem := List.mem_of_find?_eq_some found
    split at stepped
    · rename_i waits
      cases stepped
      left
      have := List.length_erase_of_mem waits
      have := List.length_pos_of_mem waits
      simp only
      omega
    · cases stepped
      right
      have := List.length_erase_of_mem mem
      have := List.length_pos_of_mem mem
      exact ⟨rfl, by simp only; omega⟩

def run (look : Nat → State) (x : Absorption) : State :=
  match _stepped : x.step look with
  | none => x.state
  | some y => y.run look
termination_by (x.pending.length, x.state.edges.length)
decreasing_by
  rcases step_decreasing _stepped with fewer | ⟨same, shorter⟩
  · exact Prod.Lex.left _ _ fewer
  · rw [same]
    exact Prod.Lex.right _ shorter

theorem step_target_lt {look : Nat → State} {x y : Absorption} {n : Nat}
    (looked : ∀ i, ∀ e ∈ (look i).edges, e.target < n) (own : ∀ e ∈ x.state.edges, e.target < n)
    (stepped : x.step look = some y) : ∀ e ∈ y.state.edges, e.target < n := by
  unfold step at stepped
  split at stepped
  · simp at stepped
  · split at stepped
    · cases stepped
      intro e mem
      rcases State.mem_addEdges.mp mem with old | taken
      · exact own e (List.mem_of_mem_erase old)
      · exact looked _ e (List.mem_filter.mp taken).1
    · cases stepped
      intro e mem
      exact own e (List.mem_of_mem_erase mem)

theorem run_target_lt {look : Nat → State} {x : Absorption} {n : Nat}
    (looked : ∀ i, ∀ e ∈ (look i).edges, e.target < n) (own : ∀ e ∈ x.state.edges, e.target < n) :
    ∀ e ∈ (x.run look).edges, e.target < n := by
  fun_induction run look x with
  | case1 => exact own
  | case2 _ _ stepped next => exact next (step_target_lt looked own stepped)

end Absorption

namespace Automaton

/-- Lets one state take over what its epsilon edges lead to. -/
def absorb (a : Automaton) (i : Nat) : Automaton :=
  a.setState i (Absorption.run a.state ⟨(List.range a.size).erase i, a.state i⟩)
    (Absorption.run_target_lt (fun _ _ => edge_target_lt) fun _ => edge_target_lt)

/-- An automaton without epsilon edges that takes the same strings to the same rules. -/
def reduce (a : Automaton) : Automaton :=
  (a.reachable.foldl absorb a).compact

end Automaton

end Munch
