import Munch.Proofs.Automaton.Absorption
import Munch.Proofs.Automaton.Fragment

/-!
Automata that hold rules.

A rule hangs off the entry by an edge that consumes nothing, so no edge leads to the entry
(`HasRoot`), and the rules that a byte string yields from there are those that it yielded before
and the new one, if its pattern matches (`yields_attach`).  One state more accepts a rule, the exit of
the fragment (`accept_attach`).
-/

set_option autoImplicit false

namespace Munch.Automaton

variable {a : Automaton}

structure HasRoot (a : Automaton) : Prop where
  entry_lt : a.entry < a.size
  fresh : ∀ i label, (label, a.entry) ∉ a.labelledTargets i

theorem HasRoot.nonempty (rooted : HasRoot a) : a.isEmpty = false := by
  have states := rooted.entry_lt
  apply isEmpty_eq_false_iff.mpr
  omega

theorem hasRoot_root : HasRoot root where
  entry_lt := by decide
  fresh i label edge := by
    rw [root, labelledTargets_addState, labelledTargets_beyond (Nat.zero_le i)] at edge
    cases edge

structure Attached (a b : Automaton) (rule : Nat) (L : List UInt8 → Prop) : Prop where
  root : HasRoot b
  yields_iff : ∀ w r, Yields b.labelledTargets b.accept b.entry w r ↔
    Yields a.labelledTargets a.accept a.entry w r ∨ r = rule ∧ L w

theorem labelledTargets_setAccept (b : Automaton) (i j : Nat) (rule : Option Nat) :
    (b.setAccept i rule).labelledTargets j = b.labelledTargets j := by
  rw [labelledTargets, edges, setAccept, state_setState]
  split
  · rename_i same
    rw [same.1]
    rfl
  · rfl

theorem accept_setAccept {b : Automaton} {i : Nat} (inside : i < b.size) (j : Nat)
    (rule : Option Nat) : (b.setAccept i rule).accept j = if j = i then rule else b.accept j := by
  rw [accept, setAccept, state_setState]
  by_cases same : j = i
  · rw [if_pos ⟨same, inside⟩, if_pos same]
  · rw [if_neg fun both => same both.1, if_neg same]
    rfl

/-- An automaton that grew by a fragment, with an edge to it from the entry and a rule at its exit. -/
structure Hung (a b c : Automaton) (f : Fragment) (rule : Nat) : Prop where
  entry_eq : c.entry = a.entry
  size_eq : c.size = b.size
  accept_eq : ∀ i, c.accept i = if i = f.exit then some rule else b.accept i
  edge_iff : ∀ i label j, (label, j) ∈ c.labelledTargets i ↔
    (label, j) ∈ b.labelledTargets i ∨ i = a.entry ∧ label = .epsilon ∧ j = f.entry

section Attach

variable {b c : Automaton} {f : Fragment} {L : List UInt8 → Prop} {rule : Nat}

theorem Built.hung (built : Built a b f L) (rooted : HasRoot a) (rule : Nat) :
    Hung a b ((b.setAccept f.exit (some rule)).link a.entry f.entry) f rule := by
  have sizeEq : (b.setAccept f.exit (some rule)).size = b.size := size_setState
  have sourceLt : a.entry < (b.setAccept f.exit (some rule)).size := by
    rw [sizeEq]
    exact Nat.lt_of_lt_of_le rooted.entry_lt built.size_le
  have targetLt : f.entry < (b.setAccept f.exit (some rule)).size := by
    rw [sizeEq]
    exact built.entry_lt
  have joined := (Joined.refl (b.setAccept f.exit (some rule))).link sourceLt targetLt
  refine ⟨joined.entry_eq.trans built.entry_eq, joined.size_eq.trans sizeEq, fun i => ?_,
    fun i label j => ?_⟩
  · exact (joined.accept_eq i).trans (accept_setAccept built.exit_lt i (some rule))
  · rw [joined.edge_iff, labelledTargets_setAccept, false_or]

namespace Hung

theorem run (hung : Hung a b c f rule) {i j : Nat} {w : List UInt8}
    (run : Run b.labelledTargets i w j) : Run c.labelledTargets i w j :=
  run.mono fun i e edge => (hung.edge_iff i e.1 e.2).mpr (.inl edge)

theorem reached (hung : Hung a b c f rule) (built : Built a b f L) (rooted : HasRoot a) {j : Nat}
    {w : List UInt8} (run : Run c.labelledTargets a.entry w j) :
    j < a.size ∧ Run a.labelledTargets a.entry w j ∨
      a.size ≤ j ∧ Run b.labelledTargets f.entry w j := by
  refine run.invariant (u := []) (P := fun j w => j < a.size ∧ Run a.labelledTargets a.entry w j ∨
    a.size ≤ j ∧ Run b.labelledTargets f.entry w j) ?_ (.inl ⟨rooted.entry_lt, .stop _⟩)
  rintro i w label j (⟨inside, before⟩ | ⟨beyond, before⟩) edge
  · rcases (hung.edge_iff i label j).mp edge with old | ⟨rfl, rfl, rfl⟩
    · rw [built.labelledTargets_old inside] at old
      exact .inl ⟨labelledTarget_lt old, before.snoc old⟩
    · rw [before.eq_nil_of_fresh rooted.fresh]
      exact .inr ⟨built.entry_le, .stop _⟩
  · rcases (hung.edge_iff i label j).mp edge with old | ⟨rfl, rfl, rfl⟩
    · exact .inr ⟨built.apart i label j old beyond, before.snoc old⟩
    · exact absurd rooted.entry_lt (Nat.not_lt.mpr beyond)

theorem hasRoot (hung : Hung a b c f rule) (built : Built a b f L) (rooted : HasRoot a) :
    HasRoot c := by
  have entryLt := rooted.entry_lt
  refine ⟨?_, fun i label edge => ?_⟩
  · rw [hung.entry_eq, hung.size_eq]
    exact Nat.lt_of_lt_of_le entryLt built.size_le
  · rw [hung.entry_eq] at edge
    rcases (hung.edge_iff i label a.entry).mp edge with old | ⟨-, -, same⟩
    · by_cases inside : i < a.size
      · rw [built.labelledTargets_old inside] at old
        exact rooted.fresh i label old
      · have target := built.apart i label _ old (Nat.le_of_not_lt inside)
        omega
    · have firstLe := built.entry_le
      omega

theorem yields_iff (hung : Hung a b c f rule) (built : Built a b f L) (rooted : HasRoot a)
    (w : List UInt8) (r : Nat) :
    Yields c.labelledTargets c.accept a.entry w r ↔
      Yields a.labelledTargets a.accept a.entry w r ∨ r = rule ∧ L w := by
  have lastLe := built.exit_le
  constructor
  · rintro ⟨j, run, accepts⟩
    rw [hung.accept_eq] at accepts
    rcases hung.reached built rooted run with ⟨inside, before⟩ | ⟨beyond, through⟩
    · rw [if_neg (by omega), built.accept_old inside] at accepts
      exact .inl ⟨j, before, accepts⟩
    · split at accepts
      · rename_i same
        rw [same] at through
        exact .inr ⟨(Option.some.inj accepts).symm, (built.run_iff w).mp through⟩
      · rw [built.plain j beyond] at accepts
        cases accepts
  · rintro (⟨j, run, accepts⟩ | ⟨rfl, mem⟩)
    · have inside : j < a.size := by
        refine Nat.lt_of_not_le fun beyond => ?_
        rw [accept, state_eq_default beyond] at accepts
        cases accepts
      refine ⟨j, hung.run (built.run run), ?_⟩
      rw [hung.accept_eq, if_neg (by omega), built.accept_old inside]
      exact accepts
    · refine ⟨f.exit, .skip ?_ (hung.run ((built.run_iff w).mpr mem)), ?_⟩
      · exact (hung.edge_iff _ _ _).mpr (.inr ⟨rfl, rfl, rfl⟩)
      · rw [hung.accept_eq, if_pos rfl]

/-- The states that accept a rule, after a fragment was hung in. -/
theorem accept_iff (hung : Hung a b c f rule) (built : Built a b f L) (j r : Nat) :
    c.accept j = some r ↔ a.accept j = some r ∨ j = f.exit ∧ r = rule := by
  have exitLe := built.exit_le
  have inside : a.accept j = some r → j < a.size := by
    intro accepts
    refine Nat.lt_of_not_le fun beyond => ?_
    rw [accept, state_eq_default beyond] at accepts
    cases accepts
  rw [hung.accept_eq]
  by_cases exit : j = f.exit
  · rw [if_pos exit, Option.some.injEq]
    constructor
    · intro same
      exact .inr ⟨exit, same.symm⟩
    · intro either
      rcases either with old | new
      · have before := inside old
        omega
      · exact new.2.symm
  · rw [if_neg exit, or_iff_left fun both => exit both.1]
    by_cases before : j < a.size
    · rw [built.accept_old before]
    · have blank : a.accept j ≠ some r := fun accepts => before (inside accepts)
      rw [built.plain j (Nat.le_of_not_lt before), iff_false_right blank]
      exact Option.some_ne_none r ∘ Eq.symm

end Hung

theorem Built.attached (built : Built a b f L) (rooted : HasRoot a) (rule : Nat) :
    Attached a ((b.setAccept f.exit (some rule)).link a.entry f.entry) rule L := by
  have hung := built.hung rooted rule
  refine ⟨hung.hasRoot built rooted, fun w r => ?_⟩
  rw [hung.entry_eq]
  exact hung.yields_iff built rooted w r

end Attach

/-- Attaching a rule adds the strings that its pattern matches. -/
theorem yields_attach (rooted : HasRoot a) (p : Pattern) (rule : Nat) :
    Attached a (a.attach p rule).1 rule p.Matches := by
  have entryEq : (a.build p).1.entry = a.entry := (built_build p a).entry_eq
  have attached := (built_build p a).attached rooted rule
  rw [← entryEq] at attached
  exact attached

theorem accept_attach (rooted : HasRoot a) (p : Pattern) (rule j r : Nat) :
    (a.attach p rule).1.accept j = some r ↔
      a.accept j = some r ∨ j = (a.attach p rule).2.exit ∧ r = rule := by
  have built := built_build p a
  have hung := built.hung rooted rule
  have entryEq : (a.build p).1.entry = a.entry := built.entry_eq
  rw [← entryEq] at hung
  exact hung.accept_iff built j r

end Munch.Automaton
