import Mathlib.Combinatorics.Enumerative.DoubleCounting
import Munch.Proofs.Dfa.Minimal

/-!
How few states minimization leaves.

Two automata meet at a pair of states if one byte string leads to both.  If the automata respond alike
as far as one looks, then so do the two states (`Meets.observe`).  So if no two states of an automaton
look alike, any automaton that looks like it has at least as many states (`size_le_of_meets`).  The
states of a minimized automaton respond differently, which makes it the smallest with its responses.

It takes less to recognize the same rules than to respond alike.  A state is live if a rule can be
reached from it.  A walk that comes to a state that is not live may as well stop there: leaving out
such states changes no rule (`recognized_trim`).  Minimization leaves none of them out.  What it makes
is the smallest automaton that recognizes the rules exactly if every state is live or responds as the
entry does (`minimize_least`).
-/

set_option autoImplicit false

namespace Munch.Dfa

variable {d e : Dfa} {i j k : Nat} {w : List UInt8}

/-- Some byte string leads to the one state in the one automaton and to the other in the other. -/
def Meets (d e : Dfa) (i k : Nat) : Prop :=
  ∃ w, d.arrival w = some i ∧ e.arrival w = some k

theorem exists_meets {v : List UInt8} (arrives : d.arrival w = some i)
    (goesOn : (e.response (w ++ v)).isSome = true) : ∃ k, Meets d e i k := by
  rw [response_eq_map_arrival, Option.isSome_map, arrival_append] at goesOn
  obtain ⟨j, arrived⟩ := Option.isSome_iff_exists.mp goesOn
  obtain ⟨k, other, -⟩ := Option.bind_eq_some_iff.mp arrived
  exact ⟨k, w, arrives, other⟩

theorem Meets.lt (meets : Meets d e i k) : i < d.size ∧ k < e.size := by
  obtain ⟨w, atI, atK⟩ := meets
  exact ⟨arrival_lt atI, arrival_lt atK⟩

theorem Meets.observe {α : Type} (observed : Option (Option Nat) → α) (meets : Meets d e i k)
    (same : ∀ w, observed (d.response w) = observed (e.response w)) (v : List UInt8) :
    observed (d.responseFrom i v) = observed (e.responseFrom k v) := by
  obtain ⟨u, atI, atK⟩ := meets
  rw [← response_append atI, ← response_append atK]
  exact same (u ++ v)

/-- If every state meets a state of the other automaton, and no two meet the same, then the other
automaton is not smaller. -/
theorem size_le_of_meets (total : ∀ i < d.size, ∃ k, Meets d e i k)
    (apart : ∀ i < d.size, ∀ j < d.size, ∀ k, Meets d e i k → Meets d e j k → i = j) :
    d.size ≤ e.size := by
  have counted : (Finset.range d.size).card ≤ (Finset.range e.size).card := by
    apply Finset.card_le_card_of_forall_subsingleton (Meets d e)
    · intro i mem
      obtain ⟨k, meets⟩ := total i (Finset.mem_range.mp mem)
      exact ⟨k, Finset.mem_range.mpr meets.lt.2, meets⟩
    · intro k _ i atI j atJ
      exact apart i (Finset.mem_range.mp atI.1) j (Finset.mem_range.mp atJ.1) k atI.2 atJ.2
  rwa [Finset.card_range, Finset.card_range] at counted

section Alike

variable (same : ∀ w, d.response w = e.response w)

include same

theorem Meets.responseFrom_eq (meets : Meets d e i k) : d.responseFrom i = e.responseFrom k :=
  funext (meets.observe id same)

theorem exists_meets_of_alike (inside : i < d.size) : ∃ k, Meets d e i k := by
  obtain ⟨w, arrives⟩ := d.exists_arrival inside
  have goesOn : (e.response (w ++ [])).isSome = true := by
    rw [← same, response_append arrives, responseFrom_nil]
    rfl
  exact exists_meets arrives goesOn

theorem size_le_of_alike
    (distinct : ∀ i < d.size, ∀ j < d.size, d.responseFrom i = d.responseFrom j → i = j) :
    d.size ≤ e.size := by
  apply size_le_of_meets
  · intro i inside
    exact exists_meets_of_alike same inside
  · intro i hi j hj k first second
    apply distinct i hi j hj
    rw [first.responseFrom_eq same, second.responseFrom_eq same]

end Alike

/-- The rule with which a byte string is accepted, if it is. -/
def recognized (d : Dfa) (w : List UInt8) : Option Nat :=
  (d.response w).join

theorem recognized_eq_some_iff {rule : Nat} :
    d.recognized w = some rule ↔ d.response w = some (some rule) :=
  Option.join_eq_some_iff

/-- A rule can be reached from the state. -/
def Live (d : Dfa) (i : Nat) : Prop :=
  ∃ w rule, d.responseFrom i w = some (some rule)

theorem response_eq_responseFrom_zero (inside : i < d.size) : d.response = d.responseFrom 0 := by
  have states : d.isEmpty = false := decide_eq_false (Nat.ne_zero_of_lt inside)
  rw [response_eq_responseFrom states, entry_eq_zero]

theorem Live.entry (inside : i < d.size) (live : Live d i) : Live d 0 := by
  obtain ⟨v, rule, reached⟩ := live
  obtain ⟨u, arrives⟩ := d.exists_arrival inside
  refine ⟨u ++ v, rule, ?_⟩
  rw [← response_eq_responseFrom_zero inside, response_append arrives, reached]

theorem eq_of_join_eq {answer other : Option (Option Nat)} (joined : answer.join = other.join)
    (goesOn : answer.isSome = other.isSome) : answer = other := by
  cases answer <;> cases other <;> simp_all

section LiveStates

variable (live : ∀ i < d.size, Live d i)

include live

theorem isSome_of_join_eq (hj : j < d.size)
    (same : ∀ v, (d.responseFrom i v).join = (d.responseFrom j v).join) (v : List UInt8)
    (goesOn : (d.responseFrom j v).isSome = true) : (d.responseFrom i v).isSome = true := by
  rw [responseFrom, Option.isSome_map] at goesOn ⊢
  obtain ⟨k, walked⟩ := Option.isSome_iff_exists.mp goesOn
  obtain ⟨u, rule, reached⟩ := live k (walk_lt hj walked)
  have joined : (d.responseFrom i (v ++ u)).join = some rule := by
    rw [same, responseFrom_append walked, reached]
    rfl
  cases stops : d.walk i v with
  | some l => rfl
  | none =>
      rw [responseFrom, walk_append, stops] at joined
      cases joined

theorem responseFrom_eq_of_join_eq (hi : i < d.size) (hj : j < d.size)
    (same : ∀ v, (d.responseFrom i v).join = (d.responseFrom j v).join) :
    d.responseFrom i = d.responseFrom j := by
  funext v
  apply eq_of_join_eq (same v)
  rw [Bool.eq_iff_iff]
  constructor
  · exact isSome_of_join_eq live hi (fun v => (same v).symm) v
  · exact isSome_of_join_eq live hj same v

/-- An automaton all of whose states are live and respond differently is the smallest that recognizes
its rules. -/
theorem size_le_of_live
    (distinct : ∀ i < d.size, ∀ j < d.size, d.responseFrom i = d.responseFrom j → i = j)
    (same : ∀ w, d.recognized w = e.recognized w) : d.size ≤ e.size := by
  apply size_le_of_meets
  · intro i inside
    obtain ⟨u, arrives⟩ := d.exists_arrival inside
    obtain ⟨v, rule, reached⟩ := live i inside
    have recognizes : e.response (u ++ v) = some (some rule) := by
      rw [← recognized_eq_some_iff, ← same, recognized_eq_some_iff, response_append arrives, reached]
    exact exists_meets arrives (Option.isSome_of_eq_some recognizes)
  · intro i hi j hj k first second
    apply distinct i hi j hj
    apply responseFrom_eq_of_join_eq live hi hj
    intro v
    exact (first.observe Option.join same v).trans (second.observe Option.join same v).symm

end LiveStates

theorem size_le_of_live_or_entry (live : ∀ i < d.size, i = 0 ∨ Live d i)
    (distinct : ∀ i < d.size, ∀ j < d.size, d.responseFrom i = d.responseFrom j → i = j)
    (states : e.isEmpty = false) (same : ∀ w, d.recognized w = e.recognized w) :
    d.size ≤ e.size := by
  by_cases entry : Live d 0
  · apply size_le_of_live _ distinct same
    intro i inside
    rcases live i inside with rfl | reaches
    · exact entry
    · exact reaches
  · have single : d.size ≤ 1 := by
      by_contra more
      have second : 1 < d.size := Nat.lt_of_not_le more
      rcases live 1 second with zero | reaches
      · cases zero
      · exact entry (reaches.entry second)
    exact Nat.le_trans single (Automaton.isEmpty_eq_false_iff.mp states)

section Trim

open Classical in
noncomputable def kept (d : Dfa) : List Nat :=
  (List.range d.size).filter fun i => i = 0 ∨ Live d i

theorem mem_kept : i ∈ d.kept ↔ i < d.size ∧ (i = 0 ∨ Live d i) := by
  simp [kept]

theorem nodup_kept (d : Dfa) : d.kept.Nodup :=
  List.nodup_range.filter _

theorem kept_zero (positive : 0 < d.size) : d.kept[0]? = some 0 := by
  obtain ⟨n, size⟩ := Nat.exists_eq_add_of_lt positive
  simp [kept, size, List.range_succ_eq_map]

open Classical in
theorem length_kept_lt (inside : i < d.size) (dropped : ¬ (i = 0 ∨ Live d i)) :
    d.kept.length < d.size := by
  have fewer : d.kept.length < (List.range d.size).length := by
    apply List.length_filter_lt_length_iff_exists.mpr
    exact ⟨i, List.mem_range.mpr inside, mt of_decide_eq_true dropped⟩
  rwa [List.length_range] at fewer

noncomputable def trimGraph (d : Dfa) : Automaton :=
  .ofNodes d.kept d.graph.labelledTargets d.accept

theorem trimGraph_isDeterministic (d : Dfa) : d.trimGraph.isDeterministic = true := by
  apply Automaton.Unambiguous.isDeterministic
  apply Automaton.ofNodes_unambiguous
  intro i _
  rw [Automaton.labelledTargets_labels]
  exact d.graph_unambiguous i

/-- The automaton without the states, except for the entry, from which no rule can be reached. -/
noncomputable def trim (d : Dfa) : Dfa :=
  .freeze d.trimGraph d.trimGraph_isDeterministic

theorem size_trim_le (d : Dfa) : d.trim.size ≤ d.kept.length := by
  have bound := d.trimGraph.length_reachable_le
  rw [trimGraph, Automaton.size_ofNodes] at bound
  rw [trim, size_freeze]
  exact bound

theorem size_trim_lt (inside : i < d.size) (dropped : ¬ (i = 0 ∨ Live d i)) :
    d.trim.size < d.size :=
  Nat.lt_of_le_of_lt d.size_trim_le (length_kept_lt inside dropped)

theorem isEmpty_trimGraph (positive : 0 < d.size) : d.trimGraph.isEmpty = false := by
  rw [Automaton.isEmpty_eq_false_iff, trimGraph, Automaton.size_ofNodes]
  exact (List.getElem?_eq_some_iff.mp (kept_zero positive)).1

theorem isEmpty_trim (positive : 0 < d.size) : d.trim.isEmpty = false := by
  rw [trim, isEmpty_freeze]
  exact isEmpty_trimGraph positive

theorem recognized_trim (positive : 0 < d.size) (w : List UInt8) :
    d.trim.recognized w = d.recognized w := by
  have listed : ∀ i ∈ d.kept, ∀ e ∈ d.graph.labelledTargets i, ∀ v rule,
      Yields d.graph.labelledTargets d.accept e.2 v rule → e.2 ∈ d.kept := by
    intro i _ e edge v rule yields
    have inside : e.2 < d.size := Automaton.edge_target_lt (Automaton.mem_labelledTargets.mp edge)
    have live : Live d e.2 := ⟨v, rule, responseFrom_eq_some_iff.mpr yields⟩
    exact mem_kept.mpr ⟨inside, .inr live⟩
  refine Option.ext fun rule => ?_
  have same : (∃ j, Run d.trimGraph.labelledTargets 0 w j ∧ d.trimGraph.accept j = some rule) ↔
      Yields d.graph.labelledTargets d.accept 0 w rule :=
    Automaton.yields_ofNodes_of_kept d.nodup_kept listed (kept_zero positive)
  rw [recognized_eq_some_iff, recognized_eq_some_iff, response_eq_responseFrom_zero positive,
    responseFrom_eq_some_iff, trim, response_freeze_eq_some_iff]
  simp only [isEmpty_trimGraph positive, true_and]
  exact same

end Trim

/-- If no smaller automaton recognizes the rules, then no state but the entry can be left out. -/
theorem live_of_least (least : ∀ e : Dfa, e.isEmpty = false →
    (∀ w, e.recognized w = d.recognized w) → d.size ≤ e.size) (inside : i < d.size) :
    i = 0 ∨ Live d i := by
  have positive : 0 < d.size := Nat.zero_lt_of_lt inside
  have bound := least d.trim (isEmpty_trim positive) (recognized_trim positive)
  by_contra dropped
  exact Nat.not_lt_of_le bound (size_trim_lt inside dropped)

theorem live_minimize_iff (d : Dfa) :
    (∀ k < d.minimize.size, k = 0 ∨ Live d.minimize k) ↔
      ∀ i < d.size, Live d i ∨ d.responseFrom i = d.response := by
  have alike : ∀ w, d.minimize.response w = d.response w := by
    intro w
    rw [response_minimize]
  constructor
  · intro live i inside
    obtain ⟨k, meets⟩ := exists_meets_of_alike (fun w => (alike w).symm) inside
    have same := meets.responseFrom_eq fun w => (alike w).symm
    rcases live k meets.lt.2 with rfl | reaches
    · right
      rw [same, ← response_eq_responseFrom_zero meets.lt.2, response_minimize]
    · left
      rwa [Live, same]
  · intro live k inside
    obtain ⟨i, meets⟩ := exists_meets_of_alike alike inside
    have same := meets.responseFrom_eq alike
    rcases live i meets.lt.2 with reaches | entry
    · right
      rwa [Live, same]
    · left
      apply responseFrom_minimize_injective inside (Nat.zero_lt_of_lt inside)
      rw [same, entry, ← response_eq_responseFrom_zero inside, response_minimize]

/-- No automaton that responds as a given one has fewer states than minimization leaves of it.  One that
recognizes the same rules may, exactly if there is a state from which no rule can be reached and which
does not respond as the entry does. -/
theorem minimize_least (d : Dfa) :
    (∀ e : Dfa, (∀ w, e.response w = d.response w) → d.minimize.size ≤ e.size) ∧
    ((∀ e : Dfa, e.isEmpty = false → (∀ w, e.recognized w = d.recognized w) →
        d.minimize.size ≤ e.size) ↔
      ∀ i < d.size, Live d i ∨ d.responseFrom i = d.response) := by
  have kept : ∀ w, d.minimize.recognized w = d.recognized w := by
    intro w
    rw [recognized, response_minimize, recognized]
  have distinct : ∀ i < d.minimize.size, ∀ j < d.minimize.size,
      d.minimize.responseFrom i = d.minimize.responseFrom j → i = j := by
    intro i hi j hj
    exact responseFrom_minimize_injective hi hj
  constructor
  · intro e same
    apply size_le_of_alike _ distinct
    intro w
    rw [response_minimize, same]
  · rw [← live_minimize_iff]
    constructor
    · intro least k inside
      apply live_of_least _ inside
      intro e states same
      apply least e states
      intro w
      rw [same, kept]
    · intro live e states same
      apply size_le_of_live_or_entry live distinct states
      intro w
      rw [kept, same]

/-- The byte `a` leads to a rule, and a second one to a state from which nothing leads on. -/
def twig : Automaton where
  states := #[⟨[⟨.byte 97, 1⟩], none⟩, ⟨[⟨.byte 97, 2⟩], some 0⟩, ⟨[], none⟩]
  entry := 0
  target_lt := by decide
  entry_lt := by decide

def twigDfa : Dfa :=
  .freeze twig (by decide)

theorem responseFrom_twigDfa_injective : ∀ i < twigDfa.size, ∀ j < twigDfa.size,
    twigDfa.responseFrom i = twigDfa.responseFrom j → i = j := by
  have apart : ∀ i < twigDfa.size, ∀ j < twigDfa.size,
      twigDfa.responseFrom i [] = twigDfa.responseFrom j [] →
        twigDfa.responseFrom i [97] = twigDfa.responseFrom j [97] → i = j := by
    decide +kernel
  intro i hi j hj same
  exact apart i hi j hj (congrFun same []) (congrFun same [97])

theorem not_live_twigDfa : ¬ Live twigDfa 2 := by
  have edges : twigDfa.graph.edges 2 = [] := by decide +kernel
  have accept : twigDfa.accept 2 = none := by decide +kernel
  intro live
  obtain ⟨w, rule, reached⟩ := live
  cases w with
  | nil =>
      rw [responseFrom_nil, accept] at reached
      cases reached
  | cons b rest =>
      rw [responseFrom_cons, next_eq_find?, edges] at reached
      cases reached

/-- Without the state that is not live, two states are enough. -/
theorem not_minimize_least_recognized :
    ¬ ∀ d e : Dfa, d.isEmpty = false → e.isEmpty = false →
      (∀ w, d.recognized w = e.recognized w) → d.minimize.size ≤ e.size := by
  intro least
  have third : 2 < twigDfa.size := by decide +kernel
  have positive : 0 < twigDfa.size := Nat.zero_lt_of_lt third
  have smaller : twigDfa.trim.size < twigDfa.size :=
    size_trim_lt third (not_or.mpr ⟨Nat.succ_ne_zero 1, not_live_twigDfa⟩)
  have minimized : twigDfa.size ≤ twigDfa.minimize.size := by
    apply size_le_of_alike _ responseFrom_twigDfa_injective
    intro w
    rw [response_minimize]
  have bound : twigDfa.minimize.size ≤ twigDfa.trim.size := by
    apply least
    · decide +kernel
    · exact isEmpty_trim positive
    · intro w
      rw [recognized_trim positive]
  omega

end Munch.Dfa
