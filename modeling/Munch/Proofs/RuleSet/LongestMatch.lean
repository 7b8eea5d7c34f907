import Mathlib.Order.Bounds.Basic
import Munch.RuleSet
import Munch.Proofs.Automaton.Rules
import Munch.Proofs.Dfa.Find
import Munch.Proofs.Dfa.Minimal
import Munch.Proofs.Dfa.Subset

/-!
The longest match, and the earliest rule that has it.

Each phase of the compilation keeps the lowest rule that a byte string yields: removing epsilon edges
keeps a lowest one (`Automaton.reduce_minorizes`), a set of states accepts the lowest
(`Automaton.isLowest_response_subsetDfa`), and minimization keeps the responses
(`Dfa.response_minimize`).  So the response of the compiled automaton is the lowest of the rules whose
patterns match (`isLowest_response_build`), and the search returns the longest slice that has one
(`find_ofList_spec`).
-/

set_option autoImplicit false

namespace Munch

theorem Automaton.isLowest_response_compile {a : Automaton} (nonempty : a.isEmpty = false)
    (w : List UInt8) :
    IsLowest (Yields a.labelledTargets a.accept a.entry w) (a.compile.minimal.response w).join := by
  have noEpsilon : ∀ i j, (Label.epsilon, j) ∉ a.reduce.labelledTargets i :=
    fun _ _ => Automaton.reduce_noEpsilon nonempty
  have states := Automaton.reduce_nonempty nonempty
  have minimal : a.compile.minimal.response = a.reduce.subsetDfa.response :=
    Dfa.response_minimize a.reduce.subsetDfa
  rw [minimal]
  refine IsLowest.of_minorizes (Automaton.reduce_minorizes nonempty w) ?_
  cases found : a.reduce.subsetDfa.response w with
  | some answer => exact Automaton.isLowest_response_subsetDfa states noEpsilon found
  | none =>
      rintro rule ⟨j, run, -⟩
      exact (Automaton.response_subsetDfa_eq_none_iff states noEpsilon).mp found j run

namespace RuleSet

structure Source where
  name : String
  pattern : Pattern
  action : Option String

/-- The set of the given rules, which are registered in order. -/
def ofList (sources : List Source) : RuleSet :=
  sources.foldl (fun s source => s.register source.name source.pattern source.action) .empty

structure Holds (s : RuleSet) (sources : List Source) : Prop where
  root : s.graph.HasRoot
  yields_iff : ∀ w index, Yields s.graph.labelledTargets s.graph.accept s.graph.entry w index ↔
    ∃ source, sources[index]? = some source ∧ source.pattern.Matches w
  names : s.rules.toList.map Rule.name = sources.map Source.name
  compiled : s.compiled = none ∨ s.compiled = some s.build

def search (s : RuleSet) (searches : List (List UInt8 × Nat)) : RuleSet :=
  searches.foldl (fun s given => (s.find given.1 given.2).2) s

namespace Holds

variable {s : RuleSet} {sources : List Source}

theorem empty : Holds .empty [] where
  root := Automaton.hasRoot_root
  yields_iff w index := by
    constructor
    · rintro ⟨j, -, accepts⟩
      have bare : Automaton.root.accept j = none :=
        ((Automaton.Extends.refl .empty).addState).plain j (Nat.zero_le j)
      rw [RuleSet.empty, bare] at accepts
      cases accepts
    · rintro ⟨source, found, -⟩
      cases found
  names := rfl
  compiled := .inl rfl

theorem size_eq (holds : Holds s sources) : s.rules.size = sources.length := by
  have lengths := congrArg List.length holds.names
  rwa [List.length_map, List.length_map, Array.length_toList] at lengths

theorem register (holds : Holds s sources) (source : Source) :
    Holds (s.register source.name source.pattern source.action) (sources ++ [source]) where
  root := (Automaton.yields_attach holds.root source.pattern s.rules.size).root
  yields_iff w index := by
    refine ((Automaton.yields_attach holds.root source.pattern s.rules.size).yields_iff w index).trans
      ?_
    rw [holds.yields_iff, holds.size_eq]
    constructor
    · rintro (⟨old, found, mem⟩ | ⟨rfl, mem⟩)
      · exact ⟨old, List.getElem?_append_left (List.getElem?_eq_some_iff.mp found).1 ▸ found, mem⟩
      · exact ⟨source, List.getElem?_concat_length, mem⟩
    · rintro ⟨given, found, mem⟩
      rw [List.getElem?_append] at found
      split at found
      · exact .inl ⟨given, found, mem⟩
      · obtain ⟨inside, same⟩ := List.getElem?_eq_some_iff.mp found
        rw [List.length_singleton] at inside
        rw [List.getElem_singleton] at same
        exact .inr ⟨by omega, same ▸ mem⟩
  names := by
    rw [RuleSet.register, Array.toList_push, List.map_append, holds.names, List.map_append]
    rfl
  compiled := .inl rfl

theorem ofList (sources : List Source) : Holds (ofList sources) sources := by
  have folded : ∀ (rest before : List Source) (s : RuleSet), Holds s before →
      Holds (rest.foldl (fun s source => s.register source.name source.pattern source.action) s)
        (before ++ rest) := by
    intro rest
    induction rest with
    | nil =>
        intro before s holds
        rwa [List.append_nil]
    | cons source rest ih =>
        intro before s holds
        have next := ih (before ++ [source]) _ (holds.register source)
        rwa [List.append_assoc, List.singleton_append] at next
  exact folded sources [] .empty .empty

theorem compile_eq (holds : Holds s sources) : s.compile.1 = s.build := by
  rw [compile]
  rcases holds.compiled with none | some
  · rw [none]
  · rw [some]

theorem afterFind (holds : Holds s sources) (input : List UInt8) (pos : Nat) :
    Holds (s.find input pos).2 sources := by
  have kept : (s.find input pos).2 = { s with compiled := some s.build } := by
    obtain ⟨rules, graph, compiled⟩ := s
    rcases holds.compiled with fresh | cached
    · cases fresh
      rfl
    · have same : compiled = some graph.compile.minimal := cached
      subst same
      rfl
  rw [kept]
  exact ⟨holds.root, holds.yields_iff, holds.names, .inr rfl⟩

theorem afterSearch (holds : Holds s sources) (searches : List (List UInt8 × Nat)) :
    Holds (s.search searches) sources :=
  List.foldlRecOn (motive := fun s => Holds s sources) searches _ holds
    fun _ holds given _ => holds.afterFind given.1 given.2

/-- The response of the compiled automaton is the lowest of the rules whose patterns match. -/
theorem isLowest_response_build (holds : Holds s sources) (w : List UInt8) :
    IsLowest (fun index => ∃ source, sources[index]? = some source ∧ source.pattern.Matches w)
      (s.build.response w).join :=
  (Automaton.isLowest_response_compile holds.root.nonempty w).congr (holds.yields_iff w)

end Holds

section Find

variable (sources : List Source) (input : List UInt8)

def MatchesSlice (start stop index : Nat) : Prop :=
  start < stop ∧ stop ≤ input.length ∧
    ∃ source, sources[index]? = some source ∧ source.pattern.Matches (slice input start stop)

/-- The token is the longest match at a position, of the earliest rule that has it. -/
structure IsLongestMatch (pos : Nat) (token : Token) : Prop where
  start_eq : token.start = pos
  bytes_eq : token.bytes = slice input pos token.stop
  greatest : IsGreatest {stop | ∃ index, MatchesSlice sources input pos stop index} token.stop
  least : IsLeast {index | MatchesSlice sources input pos token.stop index} token.index
  named : ∃ source, sources[token.index]? = some source ∧ token.rule = source.name

variable {sources input} {pos : Nat}

theorem IsLongestMatch.before_end {token : Token}
    (longest : IsLongestMatch sources input pos token) : pos < input.length := by
  obtain ⟨index, after, le, -⟩ := longest.greatest.1
  exact Nat.lt_of_lt_of_le after le

theorem IsLongestMatch.unique {token other : Token}
    (first : IsLongestMatch sources input pos token)
    (second : IsLongestMatch sources input pos other) : token = other := by
  have stops : token.stop = other.stop := first.greatest.unique second.greatest
  have leastToo := second.least
  rw [← stops] at leastToo
  have indices : token.index = other.index := first.least.unique leastToo
  obtain ⟨source, found, name⟩ := first.named
  obtain ⟨source', found', name'⟩ := second.named
  rw [indices, found', Option.some.injEq] at found
  have rules : token.rule = other.rule := by rw [name, name', found]
  have bytes : token.bytes = other.bytes := by rw [first.bytes_eq, second.bytes_eq, stops]
  have starts : token.start = other.start := first.start_eq.trans second.start_eq.symm
  cases token
  cases other
  cases stops
  cases indices
  cases rules
  cases bytes
  cases starts
  rfl

variable {s : RuleSet}

theorem Holds.outcome_accept (holds : Holds s sources) {index stop : Nat} {source : Source}
    (found : sources[index]? = some source) :
    s.outcome input pos (.accept index stop) =
      .matched ⟨source.name, index, slice input pos stop, pos, stop⟩ := by
  have name : s.rules[index]?.map Rule.name = some source.name := by
    rw [← Array.getElem?_toList, ← List.getElem?_map, holds.names, List.getElem?_map, found]
    rfl
  obtain ⟨rule, listed, same⟩ := Option.map_eq_some_iff.mp name
  rw [outcome, listed, ← same]
  rfl

theorem Holds.find_eq (holds : Holds s sources) (input : List UInt8) (pos : Nat) :
    (s.find input pos).1 = s.outcome input pos (s.build.find input pos) := by
  rw [← holds.compile_eq, find]
  simp only [compile]
  split <;> rfl

theorem Holds.find_cases (holds : Holds s sources) (before : pos < input.length) :
    (∃ token, IsLongestMatch sources input pos token ∧ (s.find input pos).1 = .matched token) ∨
    ((∀ stop index, ¬ MatchesSlice sources input pos stop index) ∧
      (s.find input pos).1 = .noMatch) := by
  have unmatched : ∀ {stop}, (s.build.response (slice input pos stop)).join = none →
      ∀ index, ¬ MatchesSlice sources input pos stop index := by
    rintro stop none index ⟨-, -, matched⟩
    have lowest := holds.isLowest_response_build (slice input pos stop)
    rw [none] at lowest
    exact lowest index matched
  rw [holds.find_eq]
  rcases s.build.find_cases before with ⟨stop, index, after, le, found, last, verdict⟩ |
    ⟨none, verdict⟩
  · have lowest := holds.isLowest_response_build (slice input pos stop)
    rw [found] at lowest
    obtain ⟨⟨source, listed, mem⟩, least⟩ := lowest
    refine .inl ⟨⟨source.name, index, slice input pos stop, pos, stop⟩, ?_, ?_⟩
    · refine ⟨rfl, rfl, ⟨⟨index, after, le, source, listed, mem⟩, ?_⟩,
        ⟨⟨after, le, source, listed, mem⟩, ?_⟩, source, listed, rfl⟩
      · rintro later ⟨other, matched⟩
        refine Nat.le_of_not_lt fun above => ?_
        exact unmatched (last later above matched.2.1) other matched
      · rintro other ⟨-, -, matched⟩
        exact least other matched
    · rw [verdict, holds.outcome_accept listed]
  · refine .inr ⟨fun stop index matched => ?_, by rw [verdict]; rfl⟩
    exact unmatched (none stop matched.1 matched.2.1) index matched

theorem Holds.find_eq_endOfInput_iff (holds : Holds s sources) :
    (s.find input pos).1 = .endOfInput ↔ input.length ≤ pos := by
  constructor
  · intro ended
    refine Nat.le_of_not_lt fun before => ?_
    rcases holds.find_cases before with ⟨token, -, found⟩ | ⟨-, found⟩
    all_goals
      rw [found] at ended
      cases ended
  · intro beyond
    rw [holds.find_eq, (Dfa.find_eq_endOfInput_iff _ input pos).mpr beyond]
    rfl

theorem Holds.before_end (holds : Holds s sources) (going : (s.find input pos).1 ≠ .endOfInput) :
    pos < input.length :=
  Nat.lt_of_not_le fun beyond => going (holds.find_eq_endOfInput_iff.mpr beyond)

theorem Holds.find_eq_matched_iff (holds : Holds s sources) {token : Token} :
    (s.find input pos).1 = .matched token ↔ IsLongestMatch sources input pos token := by
  constructor
  · intro matched
    have going : (s.find input pos).1 ≠ .endOfInput := by simp [matched]
    rcases holds.find_cases (holds.before_end going) with ⟨other, longest, found⟩ | ⟨-, found⟩
    · rw [found] at matched
      cases matched
      exact longest
    · rw [found] at matched
      cases matched
  · intro longest
    rcases holds.find_cases longest.before_end with ⟨other, again, found⟩ | ⟨none, -⟩
    · rw [found, longest.unique again]
    · obtain ⟨index, matched⟩ := longest.greatest.1
      exact absurd matched (none token.stop index)

theorem Holds.find_eq_noMatch_iff (holds : Holds s sources) :
    (s.find input pos).1 = .noMatch ↔
      pos < input.length ∧ ∀ stop index, ¬ MatchesSlice sources input pos stop index := by
  constructor
  · intro missed
    have going : (s.find input pos).1 ≠ .endOfInput := by simp [missed]
    have before := holds.before_end going
    rcases holds.find_cases before with ⟨token, -, found⟩ | ⟨none, -⟩
    · rw [found] at missed
      cases missed
    · exact ⟨before, none⟩
  · rintro ⟨before, none⟩
    rcases holds.find_cases before with ⟨token, longest, -⟩ | ⟨-, found⟩
    · obtain ⟨index, matched⟩ := longest.greatest.1
      exact absurd matched (none token.stop index)
    · exact found

end Find

/-- What a set of rules finds, whatever it was searched for before: nothing but the end of the input
at or after it, and before it the longest match of the earliest rule that has it, if any rule
matches. -/
theorem find_ofList_spec (sources : List Source) (searches : List (List UInt8 × Nat))
    (input : List UInt8) (pos : Nat) :
    ((((ofList sources).search searches).find input pos).1 = .endOfInput ↔ input.length ≤ pos) ∧
    (∀ token, (((ofList sources).search searches).find input pos).1 = .matched token ↔
      IsLongestMatch sources input pos token) ∧
    ((((ofList sources).search searches).find input pos).1 = .noMatch ↔
      pos < input.length ∧ ∀ stop index, ¬ MatchesSlice sources input pos stop index) := by
  have holds := (Holds.ofList sources).afterSearch searches
  exact ⟨holds.find_eq_endOfInput_iff, fun token => holds.find_eq_matched_iff,
    holds.find_eq_noMatch_iff⟩

end RuleSet

end Munch
