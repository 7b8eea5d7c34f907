import Mathlib.Data.List.Induction
import Munch.Automaton.EpsilonFree
import Munch.Proofs.Automaton.Growth

/-!
Removing edges that consume nothing.

While a state absorbs others, it has the edges that consume a byte, and the lowest rule, of all the
states it has absorbed, and its other edges lead to those that it has still to absorb
(`Absorption.Sound`).  At the end it has what its epsilon closure has (`Absorption.Sound.run`).
Replacing a state so keeps the moves and the lowest rules of all states (`Reduction`), hence doing it
to every reachable state gives an automaton without epsilon edges that takes every byte string to the
same lowest rule (`reduce_minorizes`).
-/

set_option autoImplicit false

namespace Munch

namespace Absorption

def Absorbed (a : Automaton) (x : Absorption) (j : Nat) : Prop :=
  j < a.size ∧ j ∉ x.pending

/-- What a state that absorbs others has become, by the states it has absorbed. -/
structure Sound (a : Automaton) (i : Nat) (x : Absorption) : Prop where
  nodup : x.pending.Nodup
  source : Absorbed a x i
  closure : ∀ j, Absorbed a x j → Run a.labelledTargets i [] j
  ahead : ∀ j, (⟨.epsilon, j⟩ : Edge) ∈ x.state.edges → Run a.labelledTargets i [] j
  bytes : ∀ b t, (⟨.byte b, t⟩ : Edge) ∈ x.state.edges ↔
    ∃ j, Absorbed a x j ∧ (⟨.byte b, t⟩ : Edge) ∈ a.edges j
  frontier : ∀ j k, Absorbed a x j → (⟨.epsilon, k⟩ : Edge) ∈ a.edges j →
    Absorbed a x k ∨ (⟨.epsilon, k⟩ : Edge) ∈ x.state.edges
  lowest : IsLowest (fun rule => ∃ j, Absorbed a x j ∧ a.accept j = some rule) x.state.accept

variable {a : Automaton} {i : Nat} {x y : Absorption}

theorem absorbed_start {j : Nat} (inside : i < a.size) :
    Absorbed a ⟨(List.range a.size).erase i, a.state i⟩ j ↔ j = i := by
  unfold Absorbed
  rw [List.Nodup.mem_erase_iff List.nodup_range, List.mem_range]
  constructor
  · rintro ⟨lt, not⟩
    by_cases same : j = i
    · exact same
    · exact absurd ⟨same, lt⟩ not
  · rintro rfl
    exact ⟨inside, fun both => both.1 rfl⟩

theorem sound_start (inside : i < a.size) :
    Sound a i ⟨(List.range a.size).erase i, a.state i⟩ := by
  refine ⟨List.nodup_range.erase i, (absorbed_start inside).mpr rfl, ?_, ?_, ?_, ?_, ?_⟩
  · intro j absorbed
    rw [(absorbed_start inside).mp absorbed]
    exact .stop i
  · intro j edge
    exact .skip (Automaton.mem_labelledTargets.mpr edge) (.stop j)
  · intro b t
    simp only [absorbed_start inside, exists_eq_left]
    rfl
  · intro j k absorbed edge
    rw [(absorbed_start inside).mp absorbed] at edge
    exact .inr edge
  · simp only [absorbed_start inside, exists_eq_left]
    exact IsLowest.self _

/-- A step takes the first epsilon edge, and absorbs its target unless that has been done. -/
theorem step_cases {look : Nat → State} (stepped : x.step look = some y) :
    ∃ t, x.state.edges.find? Edge.isEpsilon = some ⟨.epsilon, t⟩ ∧
      (t ∈ x.pending ∧
          y = ⟨x.pending.erase t,
            (⟨x.state.edges.erase ⟨.epsilon, t⟩,
              minAccept x.state.accept (look t).accept⟩ : State).addEdges
              ((look t).edges.filter fun f =>
                !f.isEpsilon || (x.pending.erase t).contains f.target)⟩ ∨
        t ∉ x.pending ∧
          y = ⟨x.pending, ⟨x.state.edges.erase ⟨.epsilon, t⟩, x.state.accept⟩⟩) := by
  unfold step at stepped
  split at stepped
  · cases stepped
  · rename_i e found
    have label : e.label = .epsilon := by simpa [Edge.isEpsilon] using List.find?_some found
    obtain ⟨label', t⟩ := e
    cases label
    refine ⟨t, found, ?_⟩
    split at stepped
    · rename_i waits
      cases stepped
      exact .inl ⟨waits, rfl⟩
    · rename_i gone
      cases stepped
      exact .inr ⟨gone, rfl⟩

theorem absorbed_erase (nodup : x.pending.Nodup) {t j : Nat} (inside : t < a.size) {s : State} :
    Absorbed a ⟨x.pending.erase t, s⟩ j ↔ Absorbed a x j ∨ j = t := by
  unfold Absorbed
  rw [List.Nodup.mem_erase_iff nodup]
  constructor
  · rintro ⟨lt, not⟩
    by_cases same : j = t
    · exact .inr same
    · exact .inl ⟨lt, fun mem => not ⟨same, mem⟩⟩
  · rintro (⟨lt, not⟩ | rfl)
    · exact ⟨lt, fun both => not both.2⟩
    · exact ⟨inside, fun both => both.1 rfl⟩

theorem Sound.absorb (sound : Sound a i x) {t : Nat}
    (edge : (⟨.epsilon, t⟩ : Edge) ∈ x.state.edges) (waits : t ∈ x.pending) (inside : t < a.size) :
    Sound a i ⟨x.pending.erase t,
      (⟨x.state.edges.erase ⟨.epsilon, t⟩,
        minAccept x.state.accept (a.accept t)⟩ : State).addEdges
        ((a.edges t).filter fun f => !f.isEpsilon || (x.pending.erase t).contains f.target)⟩ := by
  have reached := sound.ahead t edge
  have grown : ∀ {j s}, Absorbed a ⟨x.pending.erase t, s⟩ j ↔ Absorbed a x j ∨ j = t :=
    absorbed_erase sound.nodup inside
  refine ⟨sound.nodup.erase t, grown.mpr (.inl sound.source), ?_, ?_, ?_, ?_, ?_⟩
  · intro j absorbed
    rcases grown.mp absorbed with old | rfl
    · exact sound.closure j old
    · exact reached
  · intro j mem
    rcases State.mem_addEdges.mp mem with old | new
    · exact sound.ahead j (List.mem_of_mem_erase old)
    · exact reached.append (.skip (Automaton.mem_labelledTargets.mpr (List.mem_filter.mp new).1)
        (.stop j))
  · intro b u
    rw [State.mem_addEdges, List.mem_erase_of_ne (by simp), sound.bytes, List.mem_filter]
    simp only [Edge.isEpsilon, grown]
    constructor
    · rintro (⟨j, absorbed, own⟩ | ⟨own, -⟩)
      · exact ⟨j, .inl absorbed, own⟩
      · exact ⟨t, .inr rfl, own⟩
    · rintro ⟨j, absorbed | rfl, own⟩
      · exact .inl ⟨j, absorbed, own⟩
      · exact .inr ⟨own, by simp⟩
  · intro j k absorbed own
    rw [grown, State.mem_addEdges]
    by_cases done : Absorbed a x k ∨ k = t
    · exact .inl done
    · refine .inr ?_
      rcases grown.mp absorbed with old | rfl
      · rcases sound.frontier j k old own with seen | mem
        · exact absurd (.inl seen) done
        · refine .inl ((List.mem_erase_of_ne ?_).mpr mem)
          intro same
          exact done (.inr (Edge.mk.inj same).2)
      · refine .inr (List.mem_filter.mpr ⟨own, ?_⟩)
        have pending : k ∈ x.pending.erase j := by
          refine (List.Nodup.mem_erase_iff sound.nodup).mpr ⟨fun same => done (.inr same), ?_⟩
          by_cases mem : k ∈ x.pending
          · exact mem
          · exact absurd (.inl ⟨Automaton.edge_target_lt own, mem⟩) done
        simp [pending]
  · refine (sound.lowest.minAccept (IsLowest.self (a.accept t))).congr fun rule => ?_
    constructor
    · rintro (⟨j, absorbed, own⟩ | own)
      · exact ⟨j, grown.mpr (.inl absorbed), own⟩
      · exact ⟨t, grown.mpr (.inr rfl), own⟩
    · rintro ⟨j, absorbed, own⟩
      rcases grown.mp absorbed with old | rfl
      · exact .inl ⟨j, old, own⟩
      · exact .inr own

theorem Sound.drop (sound : Sound a i x) {t : Nat} (gone : t ∉ x.pending) (inside : t < a.size) :
    Sound a i ⟨x.pending, ⟨x.state.edges.erase ⟨.epsilon, t⟩, x.state.accept⟩⟩ := by
  refine ⟨sound.nodup, sound.source, sound.closure, ?_, ?_, ?_, sound.lowest⟩
  · intro j mem
    exact sound.ahead j (List.mem_of_mem_erase mem)
  · intro b u
    rw [List.mem_erase_of_ne (by simp)]
    exact sound.bytes b u
  · intro j k absorbed own
    rcases sound.frontier j k absorbed own with seen | mem
    · exact .inl seen
    · by_cases same : k = t
      · exact .inl ⟨same ▸ inside, same ▸ gone⟩
      · exact .inr ((List.mem_erase_of_ne fun eq => same (Edge.mk.inj eq).2).mpr mem)

theorem Sound.step (sound : Sound a i x) (targets : ∀ e ∈ x.state.edges, e.target < a.size)
    (stepped : x.step a.state = some y) : Sound a i y := by
  obtain ⟨t, found, ⟨waits, rfl⟩ | ⟨gone, rfl⟩⟩ := step_cases stepped
  · have edge := List.mem_of_find?_eq_some found
    exact sound.absorb edge waits (targets _ edge)
  · exact sound.drop gone (targets _ (List.mem_of_find?_eq_some found))

theorem not_epsilon_of_step_eq_none {look : Nat → State} (ended : x.step look = none) {e : Edge}
    (mem : e ∈ x.state.edges) : e.isEpsilon = false := by
  unfold Absorption.step at ended
  split at ended
  · rename_i none
    exact Bool.eq_false_iff.mpr (List.find?_eq_none.mp none e mem)
  · split at ended <;> cases ended

/-- What a state is once it has absorbed all that it can: its edges are the moves of the state, and
its marker is the lowest that edges consuming nothing lead to. -/
structure Complete (a : Automaton) (i : Nat) (s : State) : Prop where
  noEpsilon : ∀ j, (⟨.epsilon, j⟩ : Edge) ∉ s.edges
  moves : ∀ b t, (⟨.byte b, t⟩ : Edge) ∈ s.edges ↔ Moves a.labelledTargets i b t
  lowest : IsLowest (Yields a.labelledTargets a.accept i []) s.accept

theorem Sound.complete (sound : Sound a i x) (ended : x.step a.state = none) :
    Complete a i x.state := by
  have free : ∀ k, (⟨.epsilon, k⟩ : Edge) ∉ x.state.edges := fun k mem => by
    have consumes := not_epsilon_of_step_eq_none ended mem
    simp [Edge.isEpsilon] at consumes
  -- without edges to follow, what has been absorbed is closed and hence the closure
  have whole : ∀ j, Absorbed a x j ↔ Run a.labelledTargets i [] j := by
    refine fun j => ⟨sound.closure j, fun run => ?_⟩
    have leads := Run.nil_iff.mp run
    induction leads with
    | refl => exact sound.source
    | tail before edge ih =>
        have own := Automaton.mem_labelledTargets.mp edge
        rcases sound.frontier _ _ (ih (Run.nil_iff.mpr before)) own with absorbed | mem
        · exact absorbed
        · exact absurd mem (free _)
  refine ⟨free, fun b t => ?_, sound.lowest.congr fun rule => ?_⟩
  · rw [sound.bytes]
    exact exists_congr fun j => and_congr (whole j) Automaton.mem_labelledTargets.symm
  · exact exists_congr fun j => and_congr_left' (whole j)

theorem Sound.run (sound : Sound a i x) (targets : ∀ e ∈ x.state.edges, e.target < a.size) :
    Complete a i (x.run a.state) := by
  fun_induction Absorption.run a.state x with
  | case1 x ended => exact sound.complete ended
  | case2 x y stepped ih =>
      exact ih (sound.step targets stepped)
        (step_target_lt (fun _ _ => Automaton.edge_target_lt) targets stepped)

end Absorption

namespace Automaton

theorem state_absorb (a : Automaton) (i j : Nat) :
    (a.absorb i).state j = if j = i ∧ i < a.size
      then Absorption.run a.state ⟨(List.range a.size).erase i, a.state i⟩ else a.state j :=
  state_setState

theorem complete_absorb {a : Automaton} {i : Nat} (inside : i < a.size) :
    Absorption.Complete a i ((a.absorb i).state i) := by
  rw [state_absorb, if_pos ⟨rfl, inside⟩]
  exact (Absorption.sound_start inside).run fun _ => edge_target_lt

theorem state_absorb_of_ne {a : Automaton} {i j : Nat} (ne : j ≠ i) :
    (a.absorb i).state j = a.state j := by
  rw [state_absorb, if_neg fun both => ne both.1]

/-- Another automaton on the same states leads by nothing and by single bytes to no others, and has
the lowest of the rules that are met without consuming a byte. -/
structure Reduction (a b : Automaton) : Prop where
  entry_eq : b.entry = a.entry
  size_eq : b.size = a.size
  run_nil : ∀ i j, Run b.labelledTargets i [] j → Run a.labelledTargets i [] j
  moves_iff : ∀ i c j, Moves b.labelledTargets i c j ↔ Moves a.labelledTargets i c j
  yields_nil : ∀ i, Minorizes (Yields b.labelledTargets b.accept i [])
    (Yields a.labelledTargets a.accept i [])

namespace Reduction

variable {a b c : Automaton}

theorem refl (a : Automaton) : Reduction a a :=
  ⟨rfl, rfl, fun _ _ => id, fun _ _ _ => Iff.rfl, fun _ => .refl _⟩

theorem trans (first : Reduction a b) (second : Reduction b c) : Reduction a c where
  entry_eq := second.entry_eq.trans first.entry_eq
  size_eq := second.size_eq.trans first.size_eq
  run_nil i j run := first.run_nil i j (second.run_nil i j run)
  moves_iff i x j := (second.moves_iff i x j).trans (first.moves_iff i x j)
  yields_nil i := (second.yields_nil i).trans (first.yields_nil i)

theorem run (reduction : Reduction a b) {i j : Nat} {w : List UInt8}
    (run : Run b.labelledTargets i w j) : Run a.labelledTargets i w j := by
  induction w generalizing i with
  | nil => exact reduction.run_nil i j run
  | cons x rest ih =>
      obtain ⟨k, moves, further⟩ := Run.cons_iff.mp run
      exact Run.cons_iff.mpr ⟨k, (reduction.moves_iff i x k).mp moves, ih further⟩

theorem minorizes (reduction : Reduction a b) (i : Nat) (w : List UInt8) :
    Minorizes (Yields b.labelledTargets b.accept i w) (Yields a.labelledTargets a.accept i w) := by
  induction w generalizing i with
  | nil => exact reduction.yields_nil i
  | cons x rest ih =>
      constructor
      · intro rule yields
        obtain ⟨k, moves, further⟩ := Yields.cons_iff.mp yields
        exact Yields.cons_iff.mpr ⟨k, (reduction.moves_iff i x k).mp moves, (ih k).sub rule further⟩
      · intro rule yields
        obtain ⟨k, moves, further⟩ := Yields.cons_iff.mp yields
        obtain ⟨least, le, found⟩ := (ih k).lower rule further
        exact ⟨least, le, Yields.cons_iff.mpr ⟨k, (reduction.moves_iff i x k).mpr moves, found⟩⟩

end Reduction

section Absorb

variable {a : Automaton} {i j k : Nat}

theorem mem_labelledTargets_absorb_of_ne (ne : j ≠ i) {e : Label × Nat} :
    e ∈ (a.absorb i).labelledTargets j ↔ e ∈ a.labelledTargets j := by
  rw [labelledTargets, labelledTargets, edges, edges, state_absorb_of_ne ne]

theorem run_nil_of_absorb (inside : i < a.size) (run : Run (a.absorb i).labelledTargets j [] k) :
    Run a.labelledTargets j [] k := by
  have leads := Run.nil_iff.mp run
  refine Run.nil_iff.mpr (Relation.ReflTransGen.mono ?_ j k leads)
  intro x y edge
  by_cases same : x = i
  · subst same
    exact absurd (mem_labelledTargets.mp edge) ((complete_absorb inside).noEpsilon y)
  · exact (mem_labelledTargets_absorb_of_ne same).mp edge

theorem run_nil_absorb (run : Run a.labelledTargets j [] k) :
    Run (a.absorb i).labelledTargets j [] k ∨
      Run (a.absorb i).labelledTargets j [] i ∧ Run a.labelledTargets i [] k := by
  have leads := Run.nil_iff.mp run
  clear run
  induction leads using Relation.ReflTransGen.head_induction_on with
  | refl => exact .inl (.stop k)
  | @head x y edge rest ih =>
      by_cases same : x = i
      · subst same
        exact .inr ⟨.stop x, .skip edge (Run.nil_iff.mpr rest)⟩
      · have kept := (mem_labelledTargets_absorb_of_ne same).mpr edge
        rcases ih with run | ⟨run, further⟩
        · exact .inl (.skip kept run)
        · exact .inr ⟨.skip kept run, further⟩

theorem reduction_absorb (inside : i < a.size) : Reduction a (a.absorb i) := by
  have complete := complete_absorb inside
  have own : ∀ b t, (Label.byte b, t) ∈ (a.absorb i).labelledTargets i ↔
      Moves a.labelledTargets i b t := fun b t => mem_labelledTargets.trans (complete.moves b t)
  have lowest : Minorizes (fun rule => (a.absorb i).accept i = some rule)
      (Yields a.labelledTargets a.accept i []) := complete.lowest.minorizes
  have other : ∀ {k}, k ≠ i → (a.absorb i).accept k = a.accept k :=
    fun ne => congrArg State.accept (state_absorb_of_ne ne)
  refine ⟨rfl, size_setState, fun _ _ => run_nil_of_absorb inside, fun j c t => ⟨?_, ?_⟩,
    fun j => ⟨?_, ?_⟩⟩
  · rintro ⟨k, run, edge⟩
    have original := run_nil_of_absorb inside run
    by_cases same : k = i
    · subst same
      obtain ⟨m, further, byte⟩ := (own c t).mp edge
      exact ⟨m, original.append further, byte⟩
    · exact ⟨k, original, (mem_labelledTargets_absorb_of_ne same).mp edge⟩
  · rintro ⟨k, run, edge⟩
    rcases run_nil_absorb (i := i) run with kept | ⟨kept, further⟩
    · by_cases same : k = i
      · subst same
        exact ⟨k, kept, (own c t).mpr ⟨k, .stop k, edge⟩⟩
      · exact ⟨k, kept, (mem_labelledTargets_absorb_of_ne same).mpr edge⟩
    · exact ⟨i, kept, (own c t).mpr ⟨k, further, edge⟩⟩
  · rintro rule ⟨k, run, accepts⟩
    have original := run_nil_of_absorb inside run
    by_cases same : k = i
    · subst same
      obtain ⟨m, further, found⟩ := lowest.sub rule accepts
      exact ⟨m, original.append further, found⟩
    · exact ⟨k, original, (other same).symm.trans accepts⟩
  · rintro rule ⟨k, run, accepts⟩
    rcases run_nil_absorb (i := i) run with kept | ⟨kept, further⟩
    · by_cases same : k = i
      · subst same
        obtain ⟨least, le, found⟩ := lowest.lower rule ⟨k, .stop k, accepts⟩
        exact ⟨least, le, k, kept, found⟩
      · exact ⟨rule, Nat.le_refl _, k, kept, (other same).trans accepts⟩
    · obtain ⟨least, le, found⟩ := lowest.lower rule ⟨k, further, accepts⟩
      exact ⟨least, le, i, kept, found⟩

end Absorb

section Reduce

variable {a : Automaton} {i j : Nat}

theorem reduction_foldl (listed : List Nat) (a : Automaton) (inside : ∀ i ∈ listed, i < a.size) :
    Reduction a (listed.foldl absorb a) ∧
      ∀ i ∈ listed, ∀ j, (Label.epsilon, j) ∉ (listed.foldl absorb a).labelledTargets i := by
  induction listed using List.reverseRecOn with
  | nil => exact ⟨.refl a, by simp⟩
  | append_singleton before i ih =>
      obtain ⟨reduction, free⟩ := ih fun k mem => inside k (List.mem_append_left _ mem)
      rw [List.foldl_append, List.foldl_cons, List.foldl_nil]
      have last : i < (before.foldl absorb a).size :=
        reduction.size_eq ▸ inside i (List.mem_append_right _ List.mem_cons_self)
      refine ⟨reduction.trans (reduction_absorb last), ?_⟩
      intro k mem j edge
      by_cases same : k = i
      · subst same
        exact (complete_absorb last).noEpsilon j (mem_labelledTargets.mp edge)
      · have old : k ∈ before := by simpa [same] using mem
        exact free k old j ((mem_labelledTargets_absorb_of_ne same).mp edge)

theorem nonempty_of_size_eq {a b : Automaton} (same : b.size = a.size)
    (nonempty : a.isEmpty = false) : b.isEmpty = false := by
  rw [isEmpty_eq_false_iff] at nonempty ⊢
  rwa [same]

theorem reduce_noEpsilon (nonempty : a.isEmpty = false) :
    (Label.epsilon, j) ∉ a.reduce.labelledTargets i := by
  obtain ⟨reduction, free⟩ := reduction_foldl a.reachable a fun _ => reachable_lt
  have states := nonempty_of_size_eq reduction.size_eq nonempty
  intro edge
  have inside := lt_size_of_mem_edges (mem_labelledTargets.mp edge)
  rw [reduce, compact, size_ofNodes] at inside
  obtain ⟨k, found⟩ : ∃ k, (a.reachable.foldl absorb a).reachable[i]? = some k :=
    ⟨_, List.getElem?_eq_getElem inside⟩
  obtain ⟨target, -, edge'⟩ := (mem_labelledTargets_ofNodes (nodup_reachable _) found).mp edge
  -- a state that is reached at the end was reached at first, so it has absorbed its closure
  obtain ⟨w, run⟩ := (mem_reachable_iff states).mp (List.mem_of_getElem? found)
  rw [reduction.entry_eq] at run
  exact free k ((mem_reachable_iff nonempty).mpr ⟨w, reduction.run run⟩) target edge'

/-- A reduced automaton takes every byte string to the same lowest rule. -/
theorem reduce_minorizes (nonempty : a.isEmpty = false) (w : List UInt8) :
    Minorizes (Yields a.reduce.labelledTargets a.reduce.accept 0 w)
      (Yields a.labelledTargets a.accept a.entry w) := by
  obtain ⟨reduction, -⟩ := reduction_foldl a.reachable a fun _ => reachable_lt
  have states := nonempty_of_size_eq reduction.size_eq nonempty
  have same : ∀ rule, Yields a.reduce.labelledTargets a.reduce.accept 0 w rule ↔
      Yields (a.reachable.foldl absorb a).labelledTargets (a.reachable.foldl absorb a).accept
        a.entry w rule := by
    intro rule
    rw [← reduction.entry_eq]
    exact yields_compact states
  have minorizes := reduction.minorizes a.entry w
  constructor
  · intro rule yields
    exact minorizes.sub rule ((same rule).mp yields)
  · intro rule yields
    obtain ⟨least, le, found⟩ := minorizes.lower rule yields
    exact ⟨least, le, (same least).mpr found⟩

theorem reduce_nonempty (nonempty : a.isEmpty = false) : a.reduce.isEmpty = false := by
  obtain ⟨reduction, -⟩ := reduction_foldl a.reachable a fun _ => reachable_lt
  have first := reachable_zero (nonempty_of_size_eq reduction.size_eq nonempty)
  obtain ⟨inside, -⟩ := List.getElem?_eq_some_iff.mp first
  rw [isEmpty_eq_false_iff, reduce, size_compact]
  exact inside

theorem size_reduce_le (a : Automaton) : a.reduce.size ≤ a.size := by
  obtain ⟨reduction, -⟩ := reduction_foldl a.reachable a fun _ => reachable_lt
  have bound := length_reachable_le (a.reachable.foldl absorb a)
  rw [reduction.size_eq] at bound
  rw [reduce, size_compact]
  exact bound

end Reduce

end Automaton

end Munch
