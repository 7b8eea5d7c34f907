import Munch.Proofs.Dfa.Find
import Munch.Proofs.Dfa.Markers
import Munch.Tables.Basic

/-!
What dense tables find.

A row has the target of the edge for a byte, or else the number of states, which no edge leads to
(`next_ofDfa`).  A rule number is kept in a signed word of 32 bits.  A word holds the numbers below
`2 ^ 31`; a larger number that fits into the word is read back as no rule at all (`heldRule_high`).  So
tables search as their automaton would if it had the markers that the words hold (`find_ofDfa_held`).
If the rules of all matches are small, that is what the automaton finds (`find_ofDfa`).  In general the
search agrees with the automaton where the rule that the automaton accepts is small, and it finds the
longest match among those with a small rule (`find_ofDfa_spec`).
-/

set_option autoImplicit false

namespace Munch

theorem Automaton.getElem?_states {a : Automaton} {i : Nat} (inside : i < a.size) :
    a.states[i]? = some (a.state i) := by
  rw [state, Array.getElem?_eq_getElem inside]
  rfl

namespace Tables

section Word

variable {marker : Option Nat} {rule : Nat}

theorem ruleWord_nonneg (small : rule < Nat.pow 2 31) : ¬ ruleWord (some rule) < 0 := by
  rw [ruleWord, Int32.lt_iff_toInt_lt, Int32.toInt_ofNat_of_lt small]
  exact Int.not_lt.mpr (Int.natCast_nonneg rule)

theorem toNat_ruleWord (small : rule < Nat.pow 2 31) :
    (ruleWord (some rule)).toInt.toNat = rule := by
  rw [ruleWord, Int32.toInt_ofNat_of_lt small, Int.toNat_natCast]

/-- What is read back from the word for a marker. -/
def heldRule (marker : Option Nat) : Option Nat :=
  if ruleWord marker < 0 then none else some (ruleWord marker).toInt.toNat

theorem heldRule_none : heldRule none = none := by
  decide

theorem heldRule_low (small : rule < Nat.pow 2 31) : heldRule (some rule) = some rule := by
  rw [heldRule, if_neg (ruleWord_nonneg small), toNat_ruleWord small]

theorem heldRule_high (large : Nat.pow 2 31 ≤ rule) (word : rule < Nat.pow 2 32) :
    heldRule (some rule) = none := by
  have size : Int32.size = 2 ^ 32 := rfl
  have zero : Int32.toInt 0 = 0 := rfl
  apply if_pos
  rw [ruleWord, Int32.lt_iff_toInt_lt, Int32.toInt_ofNat', zero, size, Int.bmod_def]
  simp only [Nat.pow_eq] at large word
  omega

theorem lt_of_heldRule (held : heldRule marker = some rule) : rule < Nat.pow 2 31 := by
  rw [heldRule] at held
  split at held
  · cases held
  · cases held
    have bound := (ruleWord marker).toInt_lt
    simp only [Nat.pow_eq]
    omega

end Word

def held (d : Dfa) : Dfa :=
  d.mapAccept heldRule heldRule_none

theorem count_ofDfa (d : Dfa) : (ofDfa d).count = d.size := by
  rw [count, ofDfa, Array.size_map]
  rfl

theorem accept_ofDfa {d : Dfa} {i : Nat} (inside : i < d.size) :
    (ofDfa d).accept i = .ok ((held d).accept i) := by
  have state : (ofDfa d).rules[i]? = some (ruleWord (d.accept i)) := by
    rw [ofDfa, Array.getElem?_map, Automaton.getElem?_states inside]
    rfl
  rw [accept, state, held, Dfa.accept_mapAccept]
  rfl

theorem get_set (row : Vector Nat 256) (c b : UInt8) (target : Nat) :
    (row.set (column c) target (column c).isLt).get (column b) =
      if c = b then target else row.get (column b) := by
  by_cases same : c = b
  · subst same
    rw [if_pos rfl]
    exact Vector.getElem_set_self _
  · rw [if_neg same]
    exact Vector.getElem_set_ne _ _ fun eq => same (UInt8.toNat_inj.mp eq)

theorem get_foldl_set {f : Vector Nat 256 → Edge → Vector Nat 256}
    (epsilon : ∀ row target, f row ⟨.epsilon, target⟩ = row)
    (byte : ∀ row c target, f row ⟨.byte c, target⟩ = row.set (column c) target (column c).isLt)
    {edges : List Edge} (nodup : (edges.map Edge.label).Nodup) (row : Vector Nat 256) (b : UInt8) :
    (edges.foldl f row).get (column b) =
      ((edges.find? fun e => e.label = .byte b).map Edge.target).getD (row.get (column b)) := by
  induction edges generalizing row with
  | nil => rfl
  | cons e rest ih =>
      rw [List.map_cons, List.nodup_cons] at nodup
      rw [List.foldl_cons, ih nodup.2]
      obtain ⟨label, target⟩ := e
      cases label with
      | epsilon =>
          rw [epsilon]
          simp
      | byte c =>
          rw [byte, get_set]
          by_cases same : c = b
          · -- no later edge is for this byte, so the target stays
            subst same
            have last : (rest.find? fun e => e.label = .byte c) = none := by
              refine List.find?_eq_none.mpr fun e mem => ?_
              have other : e.label ≠ .byte c :=
                fun label => nodup.1 (List.mem_map.mpr ⟨e, mem, label⟩)
              simpa using other
            rw [last]
            simp
          · simp [same]

theorem get_rowOf (sentinel : Nat) {edges : List Edge} (nodup : (edges.map Edge.label).Nodup)
    (b : UInt8) :
    (rowOf sentinel edges).get (column b) =
      ((edges.find? fun e => e.label = .byte b).map Edge.target).getD sentinel := by
  have blank : (Vector.replicate 256 sentinel).get (column b) = sentinel :=
    Vector.getElem_replicate _
  rw [rowOf]
  apply (get_foldl_set ?_ ?_ nodup _ b).trans
  · rw [blank]
  · exact fun _ _ => rfl
  · exact fun _ _ _ => rfl

theorem next_ofDfa {d : Dfa} {i : Nat} (inside : i < d.size) (b : UInt8) :
    (ofDfa d).next i b = .ok (d.next i b) := by
  have row : (ofDfa d).rows[i]? = some (rowOf d.size (d.graph.edges i)) := by
    rw [ofDfa, Array.getElem?_map, Automaton.getElem?_states inside]
    rfl
  have cell : (rowOf d.size (d.graph.edges i))[column b] = (d.next i b).getD d.size := by
    rw [d.next_eq_find?]
    exact get_rowOf d.size (d.graph_unambiguous i).2 b
  simp only [next, row, cell, sentinel, count_ofDfa]
  cases target : d.next i b with
  | none => simp
  | some j =>
      have before := Dfa.next_lt target
      rw [Option.getD_some, if_neg (by omega)]

theorem next_held (d : Dfa) (i : Nat) (b : UInt8) : (held d).next i b = d.next i b :=
  d.next_mapAccept i b

theorem longest_ofDfa {d : Dfa} (rest : List UInt8) {i : Nat} (inside : i < d.size) (pos : Nat)
    (best : Verdict) :
    (ofDfa d).longest i pos best rest = .ok ((held d).longest i pos best rest) := by
  induction rest generalizing i pos best with
  | nil => rfl
  | cons b rest ih =>
      rw [longest, next_ofDfa inside, ← next_held]
      cases next : (held d).next i b with
      | none => simp only [Dfa.longest, next]
      | some j =>
          have within : j < d.size := by
            rw [next_held] at next
            exact Dfa.next_lt next
          simp only [accept_ofDfa within, Dfa.longest_of_next next]
          cases (held d).accept j with
          | none => exact ih within _ _
          | some rule => exact ih within _ _

/-- Tables find what their automaton would with the markers that words hold. -/
theorem find_ofDfa_held (d : Dfa) (input : List UInt8) (pos : Nat) :
    (ofDfa d).find input pos = .ok ((held d).find input pos) := by
  rw [find, Dfa.find, count_ofDfa, held, Dfa.isEmpty_mapAccept]
  split
  · rfl
  · cases states : d.isEmpty with
    | true =>
        have none : d.size = 0 := by simpa [Dfa.isEmpty, Automaton.isEmpty, Dfa.size] using states
        rw [if_pos none]
        rfl
    | false =>
        have some : d.size ≠ 0 := by simpa [Dfa.isEmpty, Automaton.isEmpty, Dfa.size] using states
        rw [if_neg some, Dfa.entry_eq_zero]
        exact longest_ofDfa _ (Nat.pos_of_ne_zero some) pos .noMatch

theorem find_ofDfa {d : Dfa} (fits : ∀ w rule, d.response w = some (some rule) → rule < Nat.pow 2 31)
    (input : List UInt8) (pos : Nat) : (ofDfa d).find input pos = .ok (d.find input pos) := by
  have same : (held d).response = d.response := by
    funext w
    rw [held, Dfa.response_mapAccept]
    cases answer : d.response w with
    | none => rfl
    | some marker =>
        cases marker with
        | none => rfl
        | some rule => exact congrArg some (heldRule_low (fits w rule answer))
  rw [find_ofDfa_held, Dfa.find_eq_of_response_eq same]

/-- A rule for a slice, no longer slice of which has a rule below the bound. -/
structure LongestBelow (d : Dfa) (bound : Nat) (input : List UInt8) (pos rule stop : Nat) : Prop where
  after : pos < stop
  within : stop ≤ input.length
  small : rule < bound
  found : d.response (slice input pos stop) = some (some rule)
  last : ∀ later, stop < later → later ≤ input.length → ∀ other,
    d.response (slice input pos later) = some (some other) → bound ≤ other

section Words

variable {d : Dfa} {input w : List UInt8} {pos rule stop : Nat}

theorem response_held_iff (words : ∀ i rule, d.accept i = some rule → rule < Nat.pow 2 32) :
    (held d).response w = some (some rule) ↔
      d.response w = some (some rule) ∧ rule < Nat.pow 2 31 := by
  rw [held, Dfa.response_mapAccept]
  constructor
  · intro found
    obtain ⟨marker, answer, kept⟩ := Option.map_eq_some_iff.mp found
    have small := lt_of_heldRule kept
    cases marker with
    | none =>
        rw [heldRule_none] at kept
        cases kept
    | some other =>
        have word : other < Nat.pow 2 32 := by
          rw [Dfa.response_eq_map_arrival, Option.map_eq_some_iff] at answer
          obtain ⟨i, -, accepts⟩ := answer
          exact words i other accepts
        rcases Nat.lt_or_ge other (Nat.pow 2 31) with low | high
        · rw [heldRule_low low] at kept
          rw [answer, kept]
          exact ⟨rfl, small⟩
        · rw [heldRule_high high word] at kept
          cases kept
  · intro found
    rw [found.1, Option.map_some, heldRule_low found.2]

theorem find_held_eq_accept_iff (words : ∀ i rule, d.accept i = some rule → rule < Nat.pow 2 32) :
    (held d).find input pos = .accept rule stop ↔
      LongestBelow d (Nat.pow 2 31) input pos rule stop := by
  rw [Dfa.find_eq_accept_iff]
  simp only [ne_eq, response_held_iff words, not_and, Nat.not_lt]
  constructor
  · intro longest
    obtain ⟨after, within, ⟨found, small⟩, last⟩ := longest
    exact ⟨after, within, small, found, last⟩
  · intro longest
    exact ⟨longest.after, longest.within, ⟨longest.found, longest.small⟩, longest.last⟩

/-- The words make a difference to a search only if the automaton accepts a large rule. -/
theorem find_held_eq_iff (words : ∀ i rule, d.accept i = some rule → rule < Nat.pow 2 32) :
    (held d).find input pos = d.find input pos ↔
      ∀ rule stop, d.find input pos = .accept rule stop → rule < Nat.pow 2 31 := by
  constructor
  · intro same rule stop accepted
    rw [← same] at accepted
    exact ((find_held_eq_accept_iff words).mp accepted).small
  · intro small
    rcases Nat.lt_or_ge pos input.length with before | beyond
    · rcases d.find_cases before with ⟨stop, rule, after, le, found, last, verdict⟩ | ⟨none, verdict⟩
      · rw [verdict, find_held_eq_accept_iff words]
        refine ⟨after, le, small rule stop verdict, found, ?_⟩
        intro later above le' other answer
        have missed := last later above le'
        rw [answer] at missed
        cases missed
      · rcases (held d).find_cases before with ⟨stop, rule, after, le, found, -⟩ | ⟨-, noMatch⟩
        · have missed := none stop after le
          rw [((response_held_iff words).mp found).1] at missed
          cases missed
        · rw [noMatch, verdict]
    · rw [(Dfa.find_eq_endOfInput_iff _ _ _).mpr beyond, (Dfa.find_eq_endOfInput_iff _ _ _).mpr beyond]

/-- Where the automaton accepts a rule whose number a signed word cannot hold, the tables find
something else, and everywhere else they find what the automaton does.  In any case they find the
longest slice that has a small rule. -/
theorem find_ofDfa_spec (words : ∀ i rule, d.accept i = some rule → rule < Nat.pow 2 32)
    (input : List UInt8) (pos : Nat) :
    ∃ verdict, (ofDfa d).find input pos = .ok verdict ∧
      (verdict = d.find input pos ↔
        ∀ rule stop, d.find input pos = .accept rule stop → rule < Nat.pow 2 31) ∧
      (verdict = .endOfInput ↔ input.length ≤ pos) ∧
      ∀ rule stop, verdict = .accept rule stop ↔
        LongestBelow d (Nat.pow 2 31) input pos rule stop := by
  refine ⟨_, find_ofDfa_held d input pos, find_held_eq_iff words, ?_, ?_⟩
  · exact Dfa.find_eq_endOfInput_iff _ input pos
  · intro rule stop
    exact find_held_eq_accept_iff words

end Words

/-- Two steps, the second of which ends at a rule number that wraps around in a signed word. -/
def steep : Automaton where
  states := #[⟨[⟨.byte 97, 1⟩], none⟩, ⟨[⟨.byte 97, 2⟩], some 7⟩, ⟨[], some 2147483648⟩]
  entry := 0
  target_lt := by decide
  entry_lt := by decide

def steepDfa : Dfa :=
  .freeze steep (by decide)

theorem lt_of_accept_steepDfa (i rule : Nat) (accepts : steepDfa.accept i = some rule) :
    rule < Nat.pow 2 32 := by
  have each : ∀ i < steepDfa.size, ∀ rule ∈ steepDfa.accept i, rule < Nat.pow 2 32 := by
    decide +kernel
  exact each i (Automaton.lt_size_of_accept accepts) rule accepts

theorem find_ofDfa_steepDfa :
    (∀ i rule, steepDfa.accept i = some rule → rule < Nat.pow 2 32) ∧
      LongestBelow steepDfa (Nat.pow 2 31) [97, 97] 0 7 1 := by
  obtain ⟨verdict, found, -, -, longest⟩ := find_ofDfa_spec lt_of_accept_steepDfa [97, 97] 0
  have computed : (ofDfa steepDfa).find [97, 97] 0 = .ok (.accept 7 1) := by
    decide +kernel
  rw [computed, Except.ok.injEq] at found
  exact ⟨lt_of_accept_steepDfa, (longest 7 1).mp found.symm⟩

/-- The tables pass over the longest match, whose rule they do not hold. -/
theorem find_ofDfa_ne_find :
    ¬ ∀ (d : Dfa) (input : List UInt8) (pos : Nat),
      (∀ i rule, d.accept i = some rule → rule < Nat.pow 2 32) →
        (ofDfa d).find input pos = .ok (d.find input pos) := by
  intro agree
  have differ : (ofDfa steepDfa).find [97, 97] 0 ≠ .ok (steepDfa.find [97, 97] 0) := by
    decide +kernel
  exact differ (agree steepDfa [97, 97] 0 lt_of_accept_steepDfa)

end Tables

end Munch
