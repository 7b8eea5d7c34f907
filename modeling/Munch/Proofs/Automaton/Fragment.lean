import Mathlib.Tactic.Tauto
import Munch.Proofs.Automaton.Growth
import Munch.Proofs.Pattern.Language

/-!
Fragments and the strings that lead through them.

`Built a b f L` says that `b` extends `a` by a fragment `f` through which exactly the strings in `L`
lead.  Each way of putting fragments together has a lemma that gives the strings of the whole from
those of its parts; in all of them the runs that enter a fragment are followed edge by edge, and what
a state was reached by is described by the part that the state belongs to.  `built_build` puts them
together for patterns.
-/

set_option autoImplicit false

namespace Munch.Automaton

/-- An automaton grew by a fragment through which the given strings lead, and no others. -/
structure Built (a b : Automaton) (f : Fragment) (L : List UInt8 → Prop) : Prop
    extends Extends a b where
  entry_le : a.size ≤ f.entry
  entry_lt : f.entry < b.size
  exit_le : a.size ≤ f.exit
  exit_lt : f.exit < b.size
  run_iff : ∀ w, Run b.labelledTargets f.entry w f.exit ↔ L w

/-- No edge leads to the entry of the fragment and none leaves its exit. -/
structure Sealed (b : Automaton) (f : Fragment) : Prop where
  ne : f.entry ≠ f.exit
  entry_fresh : ∀ i label, (label, f.entry) ∉ b.labelledTargets i
  exit_last : b.labelledTargets f.exit = []

theorem Sealed.eq_nil_of_run {b : Automaton} {f : Fragment} (isSealed : Sealed b f)
    {w : List UInt8} (run : Run b.labelledTargets f.entry w f.entry) : w = [] :=
  run.eq_nil_of_fresh isSealed.entry_fresh

namespace Built

variable {a b c g : Automaton} {f n : Fragment} {L M : List UInt8 → Prop}
  {new : Nat → Label → Nat → Prop}

theorem congr (same : ∀ w, L w ↔ M w) (built : Built a b f L) : Built a b f M :=
  { built with run_iff := fun w => (built.run_iff w).trans (same w) }

theorem single (a : Automaton) : Built a a.addState.1 ⟨a.size, a.size⟩ fun w => w = [] where
  toExtends := (Extends.refl a).addState
  entry_le := Nat.le_refl _
  entry_lt := by simp
  exit_le := Nat.le_refl _
  exit_lt := by simp
  run_iff w := by
    constructor
    · intro run
      refine (run.eq_of_no_edges ?_).2
      rw [labelledTargets_addState]
      exact labelledTargets_beyond (Nat.le_refl _)
    · rintro rfl
      exact .stop _

theorem extend (built : Built a b f L) (byte : UInt8) :
    Built a (b.addState.1.addEdge f.exit (.byte byte) b.size) ⟨f.entry, b.size⟩
      fun w => ∃ u, L u ∧ w = u ++ [byte] := by
  have before : f.exit < b.addState.1.size := by
    rw [size_addState]
    exact Nat.lt_succ_of_lt built.exit_lt
  have behind : b.size < b.addState.1.size := by
    rw [size_addState]
    exact Nat.lt_succ_self _
  have joined := (Joined.refl b.addState.1).addEdge before behind (.byte byte)
  have sizeEq := joined.size_eq
  rw [size_addState] at sizeEq
  have entryLt := built.entry_lt
  have exitLt := built.exit_lt
  have sizeLe := built.size_le
  refine ⟨built.toExtends.addState.join joined ?_, built.entry_le, ?_, sizeLe, ?_, ?_⟩
  · rintro i label j (absurdity | ⟨rfl, -, rfl⟩)
    · exact absurdity.elim
    · exact ⟨built.exit_le, sizeLe⟩
  · simp only
    omega
  · simp only
    omega
  · intro w
    have old : ∀ {u i}, Run b.labelledTargets f.entry u i →
        Run (b.addState.1.addEdge f.exit (.byte byte) b.size).labelledTargets f.entry u i :=
      fun run => joined.run (((Extends.refl b).addState).run run)
    constructor
    · intro run
      -- the new state is reached by the byte alone, all others as before
      have followed := run.invariant (u := [])
        (P := fun i w => if i = b.size then ∃ u, L u ∧ w = u ++ [byte]
          else Run b.labelledTargets f.entry w i)
        (by
          intro i w label j reached edge
          rw [joined.edge_iff, labelledTargets_addState] at edge
          rcases edge with edge | absurdity | ⟨rfl, rfl, rfl⟩
          · have inside := lt_size_of_mem_edges (mem_labelledTargets.mp edge)
            have target := labelledTarget_lt edge
            rw [if_neg (by omega)] at reached
            rw [if_neg (by omega)]
            exact reached.snoc edge
          · exact absurdity.elim
          · rw [if_neg (by omega)] at reached
            rw [if_pos rfl]
            exact ⟨w, (built.run_iff w).mp reached, rfl⟩)
        (by
          rw [if_neg (by simp only; omega)]
          exact .stop _)
      simpa using followed
    · rintro ⟨u, mem, rfl⟩
      have edge := (joined.edge_iff f.exit (.byte byte) b.size).mpr (.inr (.inr ⟨rfl, rfl, rfl⟩))
      exact (old ((built.run_iff u).mpr mem)).snoc edge

theorem sequence (front : Built a b f L) (next : Built b c n M)
    (joined : Joined c g fun i label j => i = f.exit ∧ label = .epsilon ∧ j = n.entry) :
    Built a g ⟨f.entry, n.exit⟩ fun w => ∃ u v, w = u ++ v ∧ L u ∧ M v := by
  have frontLt := front.exit_lt
  have nextLe := next.entry_le
  have extension : Extends a g := by
    refine (front.toExtends.trans next.toExtends).join joined ?_
    rintro i label j ⟨rfl, -, rfl⟩
    exact ⟨front.exit_le, Nat.le_trans front.size_le nextLe⟩
  have sizeEq := joined.size_eq
  refine ⟨extension, front.entry_le, ?_, Nat.le_trans front.size_le next.exit_le, ?_, ?_⟩
  · rw [sizeEq]
    exact Nat.lt_of_lt_of_le front.entry_lt next.size_le
  · rw [sizeEq]
    exact next.exit_lt
  · intro w
    constructor
    · intro run
      have followed := run.invariant (u := [])
        (P := fun i w => if i < b.size then Run b.labelledTargets f.entry w i
          else ∃ u v, w = u ++ v ∧ L u ∧ Run c.labelledTargets n.entry v i)
        (by
          intro i w label j reached edge
          rcases (joined.edge_iff i label j).mp edge with edge | ⟨rfl, rfl, rfl⟩
          · split at reached
            · rename_i inside
              rw [next.labelledTargets_old inside] at edge
              rw [if_pos (labelledTarget_lt edge)]
              exact reached.snoc edge
            · rename_i outside
              obtain ⟨u, v, rfl, mem, rest⟩ := reached
              have beyond := next.apart i label j edge (Nat.le_of_not_lt outside)
              rw [if_neg (Nat.not_lt.mpr beyond)]
              exact ⟨u, v ++ label.bytes, by rw [List.append_assoc], mem, rest.snoc edge⟩
          · rw [if_pos frontLt] at reached
            rw [if_neg (Nat.not_lt.mpr nextLe)]
            exact ⟨w, [], rfl, (front.run_iff w).mp reached, .stop _⟩)
        (by
          rw [if_pos front.entry_lt]
          exact .stop _)
      rw [if_neg (Nat.not_lt.mpr next.exit_le)] at followed
      obtain ⟨u, v, rfl, mem, rest⟩ := followed
      exact ⟨u, v, rfl, mem, (next.run_iff v).mp rest⟩
    · rintro ⟨u, v, rfl, left, right⟩
      have first := joined.run (next.toExtends.run ((front.run_iff u).mpr left))
      have second := joined.run ((next.run_iff v).mpr right)
      exact first.append
        (.skip ((joined.edge_iff _ _ _).mpr (.inr ⟨rfl, rfl, rfl⟩)) second)

theorem loop (built : Built a b f L)
    (joined : Joined b g fun i label j => i = f.exit ∧ label = .epsilon ∧ j = f.entry) :
    Built a g f (Plus L) := by
  have sizeEq := joined.size_eq
  refine ⟨built.toExtends.join joined ?_, built.entry_le, sizeEq ▸ built.entry_lt, built.exit_le,
    sizeEq ▸ built.exit_lt, ?_⟩
  · rintro i label j ⟨rfl, -, rfl⟩
    exact ⟨built.exit_le, built.entry_le⟩
  · intro w
    constructor
    · intro run
      -- some rounds were completed before the one that is under way
      have followed := run.invariant (u := [])
        (P := fun i w => ∃ u v, w = u ++ v ∧ (u = [] ∨ Plus L u) ∧
          Run b.labelledTargets f.entry v i)
        (by
          rintro i w label j ⟨u, v, rfl, rounds, reached⟩ edge
          rcases (joined.edge_iff i label j).mp edge with edge | ⟨rfl, rfl, rfl⟩
          · exact ⟨u, v ++ label.bytes, by rw [List.append_assoc], rounds, reached.snoc edge⟩
          · have mem := (built.run_iff v).mp reached
            refine ⟨u ++ v, [], by simp [Label.bytes], .inr ?_, .stop _⟩
            rcases rounds with rfl | rounds
            · exact .once mem
            · exact rounds.snoc mem)
        ⟨[], [], rfl, .inl rfl, .stop _⟩
      obtain ⟨u, v, eq, rounds, reached⟩ := followed
      rw [List.nil_append] at eq
      rw [eq]
      have mem := (built.run_iff v).mp reached
      rcases rounds with rfl | rounds
      · exact .once mem
      · exact rounds.snoc mem
    · intro rounds
      induction rounds with
      | once mem => exact joined.run ((built.run_iff _).mpr mem)
      | more mem _ ih =>
          exact (joined.run ((built.run_iff _).mpr mem)).append
            (.skip ((joined.edge_iff _ _ _).mpr (.inr ⟨rfl, rfl, rfl⟩)) ih)

/-- The edges that put a part between the entry and the exit of a fragment, and possibly one that
leads past it. -/
def Between (f n : Fragment) (skip : Prop) (i : Nat) (label : Label) (j : Nat) : Prop :=
  label = .epsilon ∧
    (i = f.entry ∧ j = n.entry ∨ i = n.exit ∧ j = f.exit ∨ skip ∧ i = f.entry ∧ j = f.exit)

section Branch

variable {skip : Prop}

theorem sealed_branch (outer : Built a b f L) (isSealed : Sealed b f) (inner : Built b c n M)
    (joined : Joined c g (Between f n skip)) : Sealed g f := by
  have entryLt := outer.entry_lt
  have innerEntry := inner.entry_le
  have innerExit := inner.exit_le
  have exitLt := outer.exit_lt
  refine ⟨isSealed.ne, ?_, ?_⟩
  · intro i label edge
    rcases (joined.edge_iff i label f.entry).mp edge with edge |
        ⟨-, ⟨-, same⟩ | ⟨-, same⟩ | ⟨-, -, same⟩⟩
    · by_cases inside : i < b.size
      · rw [inner.labelledTargets_old inside] at edge
        exact isSealed.entry_fresh i label edge
      · have beyond := inner.apart i label _ edge (Nat.le_of_not_lt inside)
        omega
    · omega
    · exact isSealed.ne same
    · exact isSealed.ne same
  · refine List.eq_nil_iff_forall_not_mem.mpr ?_
    rintro ⟨label, j⟩ edge
    rcases (joined.edge_iff f.exit label j).mp edge with edge |
        ⟨-, ⟨same, -⟩ | ⟨same, -⟩ | ⟨-, same, -⟩⟩
    · rw [inner.labelledTargets_old exitLt, isSealed.exit_last] at edge
      cases edge
    · exact isSealed.ne same.symm
    · omega
    · exact isSealed.ne same.symm

theorem mem_of_run_branch (outer : Built a b f L) (isSealed : Sealed b f) (inner : Built b c n M)
    (joined : Joined c g (Between f n skip)) {w : List UInt8}
    (run : Run g.labelledTargets f.entry w f.exit) : L w ∨ M w ∨ skip ∧ w = [] := by
  have entryLt := outer.entry_lt
  have exitLt := outer.exit_lt
  have innerEntry := inner.entry_le
  have innerExit := inner.exit_le
  -- the exit is reached through a part or past all of them, every other state as in its part
  have followed := run.invariant (u := [])
    (P := fun i w =>
      if i = f.exit then L w ∨ M w ∨ skip ∧ w = []
      else if i < b.size then Run b.labelledTargets f.entry w i
      else Run c.labelledTargets n.entry w i)
    (by
      intro i w label j reached edge
      rcases (joined.edge_iff i label j).mp edge with edge |
          ⟨rfl, ⟨rfl, rfl⟩ | ⟨rfl, rfl⟩ | ⟨past, rfl, rfl⟩⟩
      · by_cases inside : i < b.size
        · rw [inner.labelledTargets_old inside] at edge
          have ne : i ≠ f.exit := by
            rintro rfl
            rw [isSealed.exit_last] at edge
            cases edge
          rw [if_neg ne, if_pos inside] at reached
          have further := reached.snoc edge
          split
          · rename_i same
            exact .inl ((outer.run_iff _).mp (same ▸ further))
          · rw [if_pos (labelledTarget_lt edge)]
            exact further
        · have beyond := inner.apart i label j edge (Nat.le_of_not_lt inside)
          rw [if_neg (by omega), if_neg inside] at reached
          rw [if_neg (by omega), if_neg (by omega)]
          exact reached.snoc edge
      · rw [if_neg isSealed.ne, if_pos entryLt] at reached
        rw [if_neg (by omega), if_neg (by omega), isSealed.eq_nil_of_run reached]
        exact .stop _
      · rw [if_neg (by omega), if_neg (by omega)] at reached
        rw [if_pos rfl, Label.bytes, List.append_nil]
        exact .inr (.inl ((inner.run_iff _).mp reached))
      · rw [if_neg isSealed.ne, if_pos entryLt] at reached
        rw [if_pos rfl, isSealed.eq_nil_of_run reached]
        exact .inr (.inr ⟨past, rfl⟩))
    (by
      rw [if_neg isSealed.ne, if_pos entryLt]
      exact .stop _)
  rwa [if_pos rfl] at followed

theorem run_branch_of_mem (outer : Built a b f L) (inner : Built b c n M)
    (joined : Joined c g (Between f n skip)) {w : List UInt8} (mem : L w ∨ M w ∨ skip ∧ w = []) :
    Run g.labelledTargets f.entry w f.exit := by
  have edge : ∀ {i j}, (i = f.entry ∧ j = n.entry ∨ i = n.exit ∧ j = f.exit ∨
      skip ∧ i = f.entry ∧ j = f.exit) → (Label.epsilon, j) ∈ g.labelledTargets i :=
    fun between => (joined.edge_iff _ _ _).mpr (.inr ⟨rfl, between⟩)
  rcases mem with mem | mem | ⟨past, rfl⟩
  · exact joined.run (inner.toExtends.run ((outer.run_iff w).mpr mem))
  · have through := joined.run ((inner.run_iff w).mpr mem)
    have arrived := through.snoc (edge (.inr (.inl ⟨rfl, rfl⟩)))
    rw [Label.bytes, List.append_nil] at arrived
    exact .skip (edge (.inl ⟨rfl, rfl⟩)) arrived
  · exact .skip (edge (.inr (.inr ⟨past, rfl, rfl⟩))) (.stop _)

theorem branch (outer : Built a b f L) (isSealed : Sealed b f) (inner : Built b c n M)
    (joined : Joined c g (Between f n skip)) :
    Built a g f (fun w => L w ∨ M w ∨ skip ∧ w = []) := by
  have entryLe := outer.entry_le
  have exitLe := outer.exit_le
  have innerEntry := inner.entry_le
  have innerExit := inner.exit_le
  have sizeLe := outer.size_le
  refine ⟨(outer.toExtends.trans inner.toExtends).join joined ?_, entryLe, ?_, exitLe, ?_,
    fun w => ⟨mem_of_run_branch outer isSealed inner joined,
      run_branch_of_mem outer inner joined⟩⟩
  · rintro i label j ⟨-, ⟨rfl, rfl⟩ | ⟨rfl, rfl⟩ | ⟨-, rfl, rfl⟩⟩ <;> omega
  · rw [joined.size_eq]
    exact Nat.lt_of_lt_of_le outer.entry_lt inner.size_le
  · rw [joined.size_eq]
    exact Nat.lt_of_lt_of_le outer.exit_lt inner.size_le

end Branch

theorem pair (a : Automaton) :
    Built a a.addState.1.addState.1 ⟨a.size, a.addState.1.size⟩ (fun _ => False) ∧
      Sealed a.addState.1.addState.1 ⟨a.size, a.addState.1.size⟩ := by
  have same : ∀ i, a.addState.1.addState.1.labelledTargets i = a.labelledTargets i := fun i => by
    rw [labelledTargets_addState, labelledTargets_addState]
  have bare : a.labelledTargets a.size = [] := labelledTargets_beyond (Nat.le_refl _)
  have ne : a.size ≠ a.addState.1.size := by simp
  refine ⟨⟨(Extends.refl a).addState.addState, Nat.le_refl _, ?_, by simp, by simp, ?_⟩,
    ne, ?_, ?_⟩
  · simp only [size_addState]
    omega
  · intro w
    refine ⟨fun run => ?_, False.elim⟩
    exact ne (run.eq_of_no_edges ((same a.size).trans bare)).1.symm
  · intro i label edge
    rw [same] at edge
    exact Nat.lt_irrefl _ (labelledTarget_lt edge)
  · rw [same]
    exact labelledTargets_beyond (by simp)

theorem range (outer : Built a b f fun _ => False) (isSealed : Sealed b f) {bytes : List UInt8}
    (joined : Joined b g fun i label j => i = f.entry ∧ (∃ x ∈ bytes, label = .byte x) ∧ j = f.exit) :
    Built a g f (fun w => ∃ x ∈ bytes, w = [x]) := by
  refine ⟨outer.toExtends.join joined ?_, outer.entry_le, joined.size_eq ▸ outer.entry_lt,
    outer.exit_le, joined.size_eq ▸ outer.exit_lt, ?_⟩
  · rintro i label j ⟨rfl, -, rfl⟩
    exact ⟨outer.entry_le, outer.exit_le⟩
  · intro w
    constructor
    · intro run
      -- nothing but the new edges leads to the exit, and only the empty string to the entry
      have followed := run.invariant (u := [])
        (P := fun i w => if i = f.exit then ∃ x ∈ bytes, w = [x] else
          Run b.labelledTargets f.entry w i)
        (by
          intro i w label j reached edge
          rcases (joined.edge_iff i label j).mp edge with edge | ⟨rfl, ⟨x, mem, rfl⟩, rfl⟩
          · have ne : i ≠ f.exit := by
              rintro rfl
              rw [isSealed.exit_last] at edge
              cases edge
            rw [if_neg ne] at reached
            have further := reached.snoc edge
            split
            · rename_i same
              exact ((outer.run_iff _).mp (same ▸ further)).elim
            · exact further
          · rw [if_neg isSealed.ne] at reached
            rw [if_pos rfl, isSealed.eq_nil_of_run reached]
            exact ⟨x, mem, rfl⟩)
        (by
          rw [if_neg isSealed.ne]
          exact .stop _)
      rwa [if_pos rfl] at followed
    · rintro ⟨x, mem, rfl⟩
      exact .take ((joined.edge_iff _ _ _).mpr (.inr ⟨rfl, ⟨x, mem, rfl⟩, rfl⟩)) (.stop _)

end Built

section Patterns

variable {a b : Automaton} {f : Fragment} {L : List UInt8 → Prop}

theorem built_buildChain (built : Built a b f L) (bytes : List UInt8) :
    Built a (b.buildChain f.exit bytes).1 ⟨f.entry, (b.buildChain f.exit bytes).2⟩
      fun w => ∃ u, L u ∧ w = u ++ bytes := by
  induction bytes generalizing b f L with
  | nil =>
      refine built.congr fun w => ?_
      simp
  | cons x rest ih =>
      refine (ih (built.extend x)).congr fun w => ?_
      constructor
      · rintro ⟨-, ⟨u, mem, rfl⟩, rfl⟩
        exact ⟨u, mem, by simp⟩
      · rintro ⟨u, mem, rfl⟩
        exact ⟨u ++ [x], ⟨u, mem, rfl⟩, by simp⟩

theorem built_buildLiteral (a : Automaton) (bytes : List UInt8) :
    Built a (a.buildLiteral bytes).1 (a.buildLiteral bytes).2 fun w => w = bytes := by
  refine (built_buildChain (Built.single a) bytes).congr fun w => ?_
  simp

theorem joined_foldl_addEdge (a : Automaton) {source target : Nat} (sourceInside : source < a.size)
    (targetInside : target < a.size) (bytes : List UInt8) {new : Nat → Label → Nat → Prop}
    (joined : Joined a b new) :
    Joined a (bytes.foldl (fun a x => a.addEdge source (.byte x) target) b)
      fun i label j => new i label j ∨
        i = source ∧ (∃ x ∈ bytes, label = .byte x) ∧ j = target := by
  induction bytes generalizing b new with
  | nil =>
      refine joined.congr fun i label j => ?_
      simp
  | cons x rest ih =>
      refine (ih (joined.addEdge sourceInside targetInside (.byte x))).congr fun i label j => ?_
      simp only [List.mem_cons, exists_eq_or_imp]
      tauto

theorem built_buildRange (a : Automaton) (bytes : List UInt8) :
    Built a (a.buildRange bytes).1 (a.buildRange bytes).2 fun w => ∃ x ∈ bytes, w = [x] := by
  obtain ⟨bare, isSealed⟩ := Built.pair a
  refine bare.range isSealed ?_
  refine (joined_foldl_addEdge _ bare.entry_lt bare.exit_lt bytes (Joined.refl _)).congr
    fun i label j => ?_
  simp

theorem built_loop (built : Built a b f L) :
    Built a (loop (b, f)).1 (loop (b, f)).2 (Plus L) := by
  refine built.loop (((Joined.refl b).link built.exit_lt built.entry_lt).congr fun i label j => ?_)
  simp

theorem built_bypass {c : Automaton} {n : Fragment} {M : List UInt8 → Prop}
    (outer : Built a b f fun _ => False) (isSealed : Sealed b f) (inner : Built b c n M) :
    Built a (bypass (c, n) f.entry f.exit).1 (bypass (c, n) f.entry f.exit).2
      fun w => M w ∨ w = [] := by
  have entryLt := Nat.lt_of_lt_of_le outer.entry_lt inner.size_le
  have exitLt := Nat.lt_of_lt_of_le outer.exit_lt inner.size_le
  have joined := (((Joined.refl c).link entryLt inner.entry_lt).link entryLt exitLt).link
    inner.exit_lt exitLt
  have between : Joined c (bypass (c, n) f.entry f.exit).1 (Built.Between f n True) := by
    refine joined.congr fun i label j => ?_
    unfold Built.Between
    tauto
  refine (outer.branch isSealed inner between).congr fun w => ?_
  simp

mutual

/-- The fragment that is added for a pattern lets exactly those strings through which the pattern
matches. -/
theorem built_build : ∀ (p : Pattern) (a : Automaton),
    Built a (a.build p).1 (a.build p).2 p.Matches
  | .literal bytes, a =>
      (built_buildLiteral a bytes).congr fun _ => Pattern.matches_literal_iff.symm
  | .sequence [], a =>
      (built_buildLiteral a []).congr fun _ => Pattern.matches_sequence_nil_iff.symm
  | .sequence (p :: ps), a => by
      refine (built_buildSequence ps (built_build p a)).congr fun w => ?_
      exact Pattern.matches_sequence_cons_iff.symm
  | .alternation ps, a => by
      obtain ⟨bare, isSealed⟩ := Built.pair a
      refine (built_buildAlternatives ps bare isSealed).congr fun w => ?_
      rw [Pattern.matches_alternation_iff, false_or]
  | .optional p, a => by
      obtain ⟨bare, isSealed⟩ := Built.pair a
      refine (built_bypass bare isSealed (built_build p _)).congr fun w => ?_
      exact Pattern.matches_optional_iff.symm
  | .repetition p, a =>
      (built_loop (built_build p a)).congr fun _ => Pattern.matches_repetition_iff.symm
  | .zeroOrMore p, a => by
      obtain ⟨bare, isSealed⟩ := Built.pair a
      refine (built_bypass bare isSealed (built_loop (built_build p _))).congr fun w => ?_
      exact Pattern.matches_zeroOrMore_iff.symm
  | .range s, a => by
      refine (built_buildRange a s.toList).congr fun w => ?_
      rw [Pattern.matches_range_iff]
      exact exists_congr fun x => and_congr_left' ByteSet.mem_toList

theorem built_buildSequence : ∀ (ps : List Pattern) {a b : Automaton} {f : Fragment}
    {L : List UInt8 → Prop}, Built a b f L →
      Built a (b.buildSequence f ps).1 (b.buildSequence f ps).2
        fun w => ∃ u v, w = u ++ v ∧ L u ∧ (Pattern.sequence ps).Matches v
  | [], _, _, _, _, front => front.congr fun w => by
      simp [Pattern.matches_sequence_nil_iff]
  | p :: ps, _, b, f, _, front => by
      have next := built_build p b
      have joined := (Joined.refl (b.build p).1).link
        (Nat.lt_of_lt_of_le front.exit_lt next.size_le) next.entry_lt
      have both := front.sequence next (joined.congr fun i label j => by simp)
      refine (built_buildSequence ps both).congr fun w => ?_
      constructor
      · rintro ⟨-, v, rfl, ⟨u, x, rfl, left, middle⟩, right⟩
        exact ⟨u, x ++ v, by simp, left, .sequenceCons middle right⟩
      · rintro ⟨u, v, rfl, left, right⟩
        obtain ⟨x, y, rfl, middle, last⟩ := Pattern.matches_sequence_cons_iff.mp right
        exact ⟨u ++ x, y, by simp, ⟨u, x, rfl, left, middle⟩, last⟩

theorem built_buildAlternatives : ∀ (ps : List Pattern) {a b : Automaton} {f : Fragment}
    {L : List UInt8 → Prop}, Built a b f L → Sealed b f →
      Built a (b.buildAlternatives f ps) f fun w => L w ∨ ∃ p ∈ ps, p.Matches w
  | [], _, _, _, _, outer, _ => outer.congr fun w => by simp
  | p :: ps, _, b, f, _, outer, isSealed => by
      have inner := built_build p b
      have entryLt := Nat.lt_of_lt_of_le outer.entry_lt inner.size_le
      have exitLt := Nat.lt_of_lt_of_le outer.exit_lt inner.size_le
      have linked := ((Joined.refl (b.build p).1).link entryLt inner.entry_lt).link inner.exit_lt
        exitLt
      have joined : Joined (b.build p).1
          (((b.build p).1.link f.entry (b.build p).2.entry).link (b.build p).2.exit f.exit)
          (Built.Between f (b.build p).2 False) := by
        refine linked.congr fun i label j => ?_
        unfold Built.Between
        tauto
      have more := built_buildAlternatives ps (outer.branch isSealed inner joined)
        (Built.sealed_branch outer isSealed inner joined)
      refine more.congr fun w => ?_
      simp [or_assoc]

end

end Patterns

end Munch.Automaton
