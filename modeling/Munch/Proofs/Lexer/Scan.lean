import Munch.Proofs.Lexer.Tiling

/-!
Runs of a stream in which no mode is switched.

Such a run gives tokens that tile the input up to a position, each of them what the lexer finds where
it starts, and then stops there (`Stops`): at the end of the input, or with the failure for the byte at
which nothing is found (`runFor_tiles`).  If the active mode holds given rules, the tokens are their
longest matches up to where none of them matches (`run_start_spec`), and no other tokens are
(`Tokenizes.unique`).
-/

set_option autoImplicit false

namespace Munch.TokenStream

/-- Where a run stops, and what it gives there. -/
inductive Stops (l : Lexer) (input : List UInt8) : Nat → List Item → Prop where
  | atEnd : Stops l input input.length []
  | unmatched {pos : Nat} {byte : UInt8} (here : input[pos]? = some byte)
      (missed : l.found input pos = .ok .noMatch) :
      Stops l input pos [.failure (.unexpectedByte byte pos)]
  | refused {pos : Nat} {e : Lexer.Error} (answer : l.found input pos = .error e) :
      Stops l input pos [.failure (.lexer e)]

theorem runFor_of_done {s : TokenStream} (done : s.done = true) (switching : Switching)
    (steps : Nat) : runFor switching steps s = ([], s) := by
  cases steps with
  | zero => rfl
  | succ steps => rw [runFor, next_of_done done]

/-- A run from behind some tokens gives more of them and stops behind these. -/
theorem runFor_tiles {l : Lexer} {steps : Nat} {s : TokenStream} {before : List Token}
    (alike : s.lexer.Alike l) (going : s.done = false) (tiles : Tiles s.input before s.pos)
    (enough : s.input.length < s.pos + steps) :
    ∃ more items pos, (runFor (fun _ => none) steps s).1 = more.map Item.token ++ items ∧
      Tiles s.input (before ++ more) pos ∧
      (∀ token ∈ more, l.found s.input token.start = .ok (.matched token)) ∧
      Stops l s.input pos items := by
  -- on the steps; a token joins the ones before it, as tiles are counted from the beginning
  induction steps generalizing s before with
  | zero =>
      have le := tiles.pos_le
      omega
  | succ steps ih =>
      have advance := advance_next going
      rw [runFor]
      generalize s.next = answer at advance
      obtain ⟨first, after⟩ := answer
      have still : Tiles s.input (before ++ []) s.pos := by rwa [List.append_nil]
      cases advance with
      | @token kept token near answer start after le bytes =>
          have room : s.input.length < token.stop + steps := by omega
          obtain ⟨more, items, pos, given, tiled, found, stops⟩ :=
            ih (s := { s with lexer := kept, pos := token.stop }) (near.trans alike) going
              (tiles.snoc token start after le bytes) room
          rw [alike.found_eq] at answer
          refine ⟨token :: more, items, pos, ?_, ?_, ?_, stops⟩
          · simp only [afterToken, given, List.nil_append, List.map_cons, List.cons_append]
          · rwa [List.append_assoc, List.singleton_append] at tiled
          · refine List.forall_mem_cons.mpr ⟨?_, found⟩
            rwa [start]
      | atEnd _ beyond =>
          have atEnd : s.pos = s.input.length := Nat.le_antisymm tiles.pos_le beyond
          refine ⟨[], [], s.pos, rfl, still, nofun, ?_⟩
          rw [atEnd]
          exact .atEnd
      | unmatched _ answer here =>
          rw [alike.found_eq] at answer
          refine ⟨[], _, s.pos, ?_, still, nofun, .unmatched here answer⟩
          simp only [runFor_of_done, List.map_nil, List.nil_append]
      | refused answer =>
          rw [alike.found_eq] at answer
          refine ⟨[], _, s.pos, ?_, still, nofun, .refused answer⟩
          simp only [runFor_of_done, List.map_nil, List.nil_append]

section Rules

open RuleSet (Source IsLongestMatch MatchesSlice)

variable {l : Lexer} {name : String} {set : RuleSet} {sources : List Source} {input : List UInt8}
  {tokens others : List Token} {pos place : Nat}

/-- The tokens are the longest matches of some rules, one against the other from the beginning of the
input on, up to a position where none of the rules matches. -/
structure Tokenizes (sources : List Source) (input : List UInt8) (tokens : List Token) (pos : Nat) :
    Prop where
  tiles : Tiles input tokens pos
  longest : ∀ token ∈ tokens, IsLongestMatch sources input token.start token
  ended : ∀ stop index, ¬ MatchesSlice sources input pos stop index

namespace Tokenizes

/-- Nothing can be added to tokens behind which no rule matches. -/
theorem eq_of_append {rest : List Token} (first : Tokenizes sources input tokens pos)
    (second : Tokenizes sources input (tokens ++ rest) place) : rest = [] := by
  cases rest with
  | nil => rfl
  | cons token rest =>
      have tiles := second.tiles
      rw [List.append_cons] at tiles
      obtain ⟨_, upTo⟩ := tiles.of_append
      have here : token.start = pos := upTo.of_concat.1.pos_unique first.tiles
      have longest := second.longest token (List.mem_append_right _ List.mem_cons_self)
      obtain ⟨index, matched⟩ := longest.greatest.1
      exact absurd (here ▸ matched) (first.ended token.stop index)

theorem prefix_or_prefix (tiles : Tiles input tokens pos)
    (longest : ∀ token ∈ tokens, IsLongestMatch sources input token.start token)
    (second : Tokenizes sources input others place) : tokens <+: others ∨ others <+: tokens := by
  induction tiles with
  | none => exact .inl List.nil_prefix
  | @snoc tokens pos before token start_eq after le bytes_eq ih =>
      obtain ⟨own, last⟩ := List.forall_mem_append.mp longest
      rcases ih own with ⟨rest, rfl⟩ | shorter
      · cases rest with
        | nil => exact .inr (by simp)
        | cons other rest =>
            -- both go on with the longest match at the same position
            have tiles := second.tiles
            rw [List.append_cons] at tiles
            obtain ⟨_, upTo⟩ := tiles.of_append
            have here : other.start = token.start :=
              (upTo.of_concat.1.pos_unique before).trans start_eq.symm
            have best := second.longest other (List.mem_append_right _ List.mem_cons_self)
            rw [here] at best
            rw [(last token List.mem_cons_self).unique best]
            exact .inl ⟨rest, List.append_assoc _ _ _⟩
      · exact .inr (shorter.trans (List.prefix_append _ _))

/-- There is one way to tokenize an input by given rules. -/
theorem unique (first : Tokenizes sources input tokens pos)
    (second : Tokenizes sources input others place) : tokens = others ∧ pos = place := by
  have same : tokens = others := by
    rcases prefix_or_prefix first.tiles first.longest second with ⟨rest, rfl⟩ | ⟨rest, rfl⟩
    · rw [first.eq_of_append second, List.append_nil]
    · rw [second.eq_of_append first, List.append_nil]
  subst same
  exact ⟨rfl, first.tiles.pos_unique second.tiles⟩

end Tokenizes

theorem not_matchesSlice_length (stop index : Nat) :
    ¬ MatchesSlice sources input input.length stop index := by
  rintro ⟨after, le, -⟩
  omega

/-- What a run without switches gives when the active mode holds some rules. -/
theorem run_start_spec (active : l.active = some name) (present : l.mode? name = some set)
    (holds : set.Holds sources) (input : List UInt8) :
    ∃ tokens items pos, ((start l input).run fun _ => none).1 = tokens.map Item.token ++ items ∧
      Tokenizes sources input tokens pos ∧
      (items = [] ∧ pos = input.length ∨
        ∃ byte, items = [.failure (.unexpectedByte byte pos)] ∧ input[pos]? = some byte) := by
  have search : ∀ pos, l.found input pos = .ok (set.find input pos).1 := by
    intro pos
    rw [Lexer.found, Lexer.find_of_active active present]
    rfl
  have enough : input.length < 0 + (start l input).steps := by
    simp only [steps, start]
    omega
  obtain ⟨tokens, items, pos, given, tiles, found, stops⟩ :=
    runFor_tiles (s := start l input) (.refl l) rfl .none enough
  have longest : ∀ token ∈ tokens, IsLongestMatch sources input token.start token := by
    intro token mem
    have matched := found token mem
    simp only [start, search] at matched
    exact holds.find_eq_matched_iff.mp (Except.ok.inj matched)
  refine ⟨tokens, items, pos, given, ?_⟩
  cases stops with
  | atEnd => exact ⟨⟨tiles, longest, not_matchesSlice_length⟩, .inl ⟨rfl, rfl⟩⟩
  | unmatched here missed =>
      simp only [start, search] at missed
      have unmatched := (holds.find_eq_noMatch_iff.mp (Except.ok.inj missed)).2
      exact ⟨⟨tiles, longest, unmatched⟩, .inr ⟨_, rfl, here⟩⟩
  | refused answer =>
      simp only [start, search] at answer
      cases answer

end Rules

end Munch.TokenStream
