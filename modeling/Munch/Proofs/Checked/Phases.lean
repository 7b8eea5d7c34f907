import Munch.Proofs.Checked.Minimize
import Munch.Proofs.Checked.Reduce
import Munch.Proofs.Dfa.Find
import Munch.Proofs.Dfa.Reached

/-!
What each phase of the compilation keeps.

A pattern is built beside the states that are there and has its own byte strings lead through it
(`build_isolated`).  `a.LowestRule w rule` says that `rule` is the lowest of the rules that the byte
string `w` leads to from the entry of `a`, edges that consume nothing being free.  Reduction keeps the
lowest rule of every byte string (`reduce_keeps_lowest`), the states of the automaton of sets are the
sets of states that byte strings lead to (`determinize_reached_sets`), and minimization keeps where
walks stop and what they arrive at (`minimize_keeps_response`).  Each phase runs through on every
automaton that it may be given: the checks on its way do not fail.
-/

set_option autoImplicit false

namespace Munch

namespace Automaton

variable {a : Automaton}

/-- The lowest of the rules of the states that a byte string leads to from the entry. -/
def LowestRule (a : Automaton) (w : List UInt8) : Option Nat → Prop :=
  IsLowest (Yields a.labelledTargets a.accept a.entry w)

theorem not_yields_of_isEmpty (bare : a.isEmpty = true) {i rule : Nat} {w : List UInt8} :
    ¬ Yields a.labelledTargets a.accept i w rule := by
  intro yields
  obtain ⟨j, -, accepts⟩ := yields
  have inside := lt_size_of_accept accepts
  have none := isEmpty_iff.mp bare
  omega

theorem isEmpty_reduce (bare : a.isEmpty = true) : a.reduce.isEmpty = true := by
  have bound := a.size_reduce_le
  rw [isEmpty_iff] at bare ⊢
  omega

theorem hasEpsilon_of_isEmpty (bare : a.isEmpty = true) : a.hasEpsilon = false := by
  rw [hasEpsilon_eq_false_iff]
  intro i inside
  rw [isEmpty_iff.mp bare] at inside
  cases inside

end Automaton

namespace Checked

/-- A fragment lets exactly those byte strings through that its pattern matches, and it is built of new
states: the old ones stay as they were, the new ones accept nothing, and no edge joins the two kinds. -/
theorem build_isolated (p : Pattern) (a : Automaton) :
    ∃ b f, build a p = .ok (b, f) ∧ a.build p = (b, f) ∧
      (∀ w, Run b.labelledTargets f.entry w f.exit ↔ p.Matches w) ∧
      (∀ i ∈ [f.entry, f.exit], a.size ≤ i ∧ i < b.size) ∧
      (∀ i < a.size, b.state i = a.state i) ∧
      (∀ i, a.size ≤ i → b.accept i = none) ∧
      ∀ i label j, (label, j) ∈ b.labelledTargets i → (i < a.size ↔ j < a.size) := by
  have built := Automaton.built_build p a
  refine ⟨(a.build p).1, (a.build p).2, build_eq p a, rfl, built.run_iff, ?_, built.old,
    built.plain, ?_⟩
  · simp [built.entry_le, built.entry_lt, built.exit_le, built.exit_lt]
  · intro i label j edge
    exact built.toExtends.lt_iff_of_edge edge

/-- Reduction leaves no epsilon edge, adds no state and keeps the lowest rule of every byte string. -/
theorem reduce_keeps_lowest (a : Automaton) :
    reduce a = .ok a.reduce ∧ a.reduce.hasEpsilon = false ∧ a.reduce.entry = 0 ∧
      a.reduce.size ≤ a.size ∧
      ∀ w, ∃ rule, a.reduce.LowestRule w rule ∧ a.LowestRule w rule := by
  refine ⟨reduce_eq a, ?_, rfl, a.size_reduce_le, ?_⟩
  · cases states : a.isEmpty with
    | true => exact Automaton.hasEpsilon_of_isEmpty (Automaton.isEmpty_reduce states)
    | false => exact Automaton.hasEpsilon_reduce states
  · intro w
    obtain ⟨rule, lowest⟩ :=
      exists_isLowest (Yields a.reduce.labelledTargets a.reduce.accept a.reduce.entry w)
    refine ⟨rule, lowest, ?_⟩
    cases states : a.isEmpty with
    | true =>
        apply lowest.congr
        intro r
        have bare := Automaton.isEmpty_reduce states
        exact iff_of_false (Automaton.not_yields_of_isEmpty bare)
          (Automaton.not_yields_of_isEmpty states)
    | false => exact lowest.of_minorizes (Automaton.reduce_minorizes states w)

/-- The states of the automaton of sets are the non-empty sets of states that byte strings lead to,
each once, and a walk arrives at the set that its byte string leads to. -/
theorem determinize_reached_sets {a : Automaton} (noEpsilon : a.hasEpsilon = false) :
    ∃ d, a.determinize = .ok d ∧ determinize a = .ok d ∧
      (∀ w, (d.arrival w).isSome = true ↔ (a.reached w).Nonempty) ∧
      (∀ w, ∀ k ∈ d.arrival w,
        IsLowest (fun rule => ∃ j ∈ a.reached w, a.accept j = some rule) (d.accept k)) ∧
      (d.size : ℕ∞) = {s | s.Nonempty ∧ ∃ w, a.reached w = s}.encard ∧
      (∀ u v, d.arrival u = d.arrival v ↔ a.reached u = a.reached v) ∧
      ∀ k < d.size, ∃ w, d.arrival w = some k := by
  have consumes : ∀ i j, (Label.epsilon, j) ∉ a.labelledTargets i :=
    Automaton.hasEpsilon_eq_false_iff_not_mem.mp noEpsilon
  refine ⟨a.subsetDfa, ?_, determinize_eq noEpsilon, ?_, ?_, ?_, ?_, ?_⟩
  · rw [Automaton.determinize, noEpsilon]
    rfl
  · exact fun w => Automaton.arrival_subsetDfa_isSome_iff consumes
  · exact fun w k arrives => Automaton.isLowest_accept_of_arrival consumes arrives
  · exact Automaton.size_subsetDfa consumes
  · exact fun u v => Automaton.arrival_subsetDfa_eq_iff consumes
  · exact fun k inside => a.subsetDfa.exists_arrival inside

def forked : Automaton where
  states := #[{ edges := [⟨.byte 97, 1⟩, ⟨.byte 97, 2⟩] }, { accept := some 5 },
    { edges := [⟨.byte 98, 0⟩], accept := some 3 }, { edges := [⟨.byte 97, 1⟩], accept := some 0 }]
  entry := 0
  target_lt := by decide
  entry_lt := .inl rfl

theorem determinize_forked :
    forked.hasEpsilon = false ∧
      ∃ d k, forked.determinize = .ok d ∧ d.arrival [97] = some k ∧ d.accept k = some 3 := by
  have noEpsilon : forked.hasEpsilon = false := by
    simp [forked, Automaton.hasEpsilon, Edge.isEpsilon]
  have consumes := Automaton.hasEpsilon_eq_false_iff_not_mem.mp noEpsilon
  obtain ⟨d, ok, -, defined, lowest, -⟩ := determinize_reached_sets noEpsilon
  have second : 2 ∈ forked.reached [97] :=
    ⟨by decide, .take (z := 2) (y := 2) (by decide) (.stop 2)⟩
  obtain ⟨k, arrives⟩ := Option.isSome_iff_exists.mp ((defined [97]).mpr ⟨2, second⟩)
  refine ⟨noEpsilon, d, k, ok, arrives, ?_⟩
  apply (lowest [97] k arrives).unique
  refine ⟨⟨2, second, by decide⟩, ?_⟩
  intro rule given
  obtain ⟨j, ⟨-, run⟩, accepts⟩ := given
  cases run with
  | skip edge => exact absurd edge (consumes _ _)
  | take edge rest =>
      cases rest with
      | skip edge => exact absurd edge (consumes _ _)
      | stop =>
          have targets : j = 1 ∨ j = 2 := by
            simpa [forked, Automaton.labelledTargets, Automaton.edges, Automaton.state] using edge
          rcases targets with rfl | rfl
          · cases accepts
            decide
          · cases accepts
            decide

/-- A minimal automaton walks as the given one does, as far as can be told from the markers of the
states, and so finds the same matches. -/
theorem minimize_keeps_response (d : Dfa) :
    minimize d = .ok d.minimize ∧
      (∀ w, (d.minimize.arrival w).isSome = (d.arrival w).isSome) ∧
      (∀ w, ∀ i ∈ d.minimize.arrival w, ∀ j ∈ d.arrival w, d.minimize.accept i = d.accept j) ∧
      (∀ input pos, d.minimize.find input pos = d.find input pos) ∧
      d.minimize.size ≤ d.size := by
  have same : ∀ w, (d.minimize.arrival w).map d.minimize.accept = (d.arrival w).map d.accept := by
    intro w
    rw [← Dfa.response_eq_map_arrival, ← Dfa.response_eq_map_arrival, Dfa.response_minimize]
  refine ⟨minimize_eq d, ?_, ?_, ?_, d.size_minimize_le⟩
  · intro w
    have defined := congrArg Option.isSome (same w)
    rwa [Option.isSome_map, Option.isSome_map] at defined
  · intro w i first j second
    have markers := same w
    rw [Option.mem_def.mp first, Option.mem_def.mp second] at markers
    exact Option.some.inj markers
  · intro input pos
    rw [Dfa.find_eq_of_response_eq d.response_minimize]

end Checked

end Munch
