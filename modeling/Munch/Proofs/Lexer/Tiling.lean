import Munch.Lexer.TokenStream
import Munch.Proofs.Lexer.Alike

/-!
Token streams, whatever is called between tokens.

A caller asks for the next token or switches the mode, in any order.  A stream that has not ended gives
the token that is found where it stands, nothing at the end of the input, or a failure
(`advance_next`).  So every token lies against the one before it (`Tiles`), and a stream ends once:
with the input, or with an error where the last token ended (`Ending`).  Every call keeps this (`Scanned.call`), and so does a sequence
of calls (`Scanned.calls`).
-/

set_option autoImplicit false

namespace Munch

namespace RuleSet

/-- A match is not empty and lies in the input from the position on, whatever is kept compiled. -/
theorem find_matched {s : RuleSet} {input : List UInt8} {pos : Nat} {token : Token}
    (matched : (s.find input pos).1 = .matched token) :
    token.start = pos ∧ pos < token.stop ∧ token.stop ≤ input.length ∧
      token.bytes = slice input pos token.stop := by
  simp only [find] at matched
  by_cases before : pos < input.length
  · rcases s.compile.1.find_cases before with ⟨stop, index, after, le, -, -, verdict⟩ | ⟨-, verdict⟩
    · simp only [verdict, outcome] at matched
      split at matched
      · cases matched
      · cases matched
        exact ⟨rfl, after, le, rfl⟩
    · simp only [verdict, outcome] at matched
      cases matched
  · have ended := (Dfa.find_eq_endOfInput_iff s.compile.1 input pos).mpr (Nat.le_of_not_lt before)
    simp only [ended, outcome] at matched
    cases matched

theorem find_endOfInput_iff (s : RuleSet) (input : List UInt8) (pos : Nat) :
    (s.find input pos).1 = .endOfInput ↔ input.length ≤ pos := by
  rw [← Dfa.find_eq_endOfInput_iff s.compile.1]
  simp only [find]
  cases s.compile.1.find input pos with
  | accept index stop =>
      simp only [outcome]
      split <;> simp
  | noMatch => simp [outcome]
  | endOfInput => simp [outcome]

end RuleSet

namespace Lexer

theorem found_matched {l : Lexer} {input : List UInt8} {pos : Nat} {token : Token}
    (matched : l.found input pos = .ok (.matched token)) :
    token.start = pos ∧ pos < token.stop ∧ token.stop ≤ input.length ∧
      token.bytes = slice input pos token.stop := by
  rw [found] at matched
  rcases l.active_cases with inactive | ⟨name, rules, active, present⟩
  · rw [find_of_inactive inactive] at matched
    cases matched
  · rw [find_of_active active present] at matched
    exact RuleSet.find_matched (Except.ok.inj matched)

theorem found_endOfInput {l : Lexer} {input : List UInt8} {pos : Nat} {outcome : Outcome}
    (given : l.found input pos = .ok outcome) : outcome = .endOfInput ↔ input.length ≤ pos := by
  rw [found] at given
  rcases l.active_cases with inactive | ⟨name, rules, active, present⟩
  · rw [find_of_inactive inactive] at given
    cases given
  · rw [find_of_active active present] at given
    rw [← Except.ok.inj given]
    exact RuleSet.find_endOfInput_iff rules input pos

end Lexer

namespace TokenStream

inductive Call where
  | next
  | setMode (name : String)

abbrev Given :=
  Option (Except ScanError Token)

/-- What a call gives, if it asks for a token, and the stream after it; a switch to a mode that is not
there leaves the stream as it is. -/
def call (s : TokenStream) : Call → List Given × TokenStream
  | .next => ([s.next.1], s.next.2)
  | .setMode name =>
      match s.setMode name with
      | .ok switched => ([], switched)
      | .error _ => ([], s)

def calls (s : TokenStream) : List Call → List Given × TokenStream
  | [] => ([], s)
  | c :: rest => ((s.call c).1 ++ ((s.call c).2.calls rest).1, ((s.call c).2.calls rest).2)

theorem calls_append (s : TokenStream) (cs more : List Call) :
    s.calls (cs ++ more) =
      ((s.calls cs).1 ++ ((s.calls cs).2.calls more).1, ((s.calls cs).2.calls more).2) := by
  induction cs generalizing s with
  | nil => rfl
  | cons c rest ih =>
      rw [List.cons_append, calls, ih, calls]
      simp only [List.append_assoc]

/-- The lexer after the switches among some calls. -/
def lexerAfter (l : Lexer) (calls : List Call) : Lexer :=
  calls.foldl (fun l c => match c with
    | .next => l
    | .setMode name => l.switched name) l

/-- The tokens lie against each other from the beginning of the input up to a position, and none is
empty. -/
inductive Tiles (input : List UInt8) : List Token → Nat → Prop where
  | none : Tiles input [] 0
  | snoc {tokens : List Token} {pos : Nat} (before : Tiles input tokens pos) (token : Token)
      (start_eq : token.start = pos) (after : pos < token.stop) (le : token.stop ≤ input.length)
      (bytes_eq : token.bytes = slice input pos token.stop) :
      Tiles input (tokens ++ [token]) token.stop

namespace Tiles

variable {input : List UInt8} {tokens : List Token} {pos : Nat}

theorem pos_le (tiles : Tiles input tokens pos) : pos ≤ input.length := by
  cases tiles with
  | none => exact Nat.zero_le _
  | snoc _ _ _ _ le _ => exact le

theorem length_le (tiles : Tiles input tokens pos) : tokens.length ≤ pos := by
  induction tiles with
  | none => exact Nat.le_refl _
  | snoc _ token _ after _ _ ih =>
      rw [List.length_append, List.length_singleton]
      omega

theorem flatMap_bytes (tiles : Tiles input tokens pos) :
    tokens.flatMap Token.bytes = input.take pos := by
  induction tiles with
  | none => rfl
  | @snoc tokens pos _ token _ after _ bytes ih =>
      rw [List.flatMap_append, ih, List.flatMap_singleton, bytes, slice, ← List.take_add,
        Nat.add_sub_cancel' (Nat.le_of_lt after)]

theorem bytes_ne_nil (tiles : Tiles input tokens pos) : ∀ token ∈ tokens, token.bytes ≠ [] := by
  induction tiles with
  | none => exact nofun
  | snoc before token start_eq after le bytes_eq ih =>
      intro other mem
      rcases List.mem_append.mp mem with old | last
      · exact ih other old
      · rw [List.mem_singleton.mp last, bytes_eq, slice, ← List.length_pos_iff, List.length_take,
          List.length_drop]
        omega

theorem of_concat {token : Token} (tiles : Tiles input (tokens ++ [token]) pos) :
    Tiles input tokens token.start ∧ token.stop = pos := by
  generalize whole : tokens ++ [token] = all at tiles
  cases tiles with
  | none => simp at whole
  | snoc before last start_eq =>
      obtain ⟨rfl, same⟩ := List.append_inj' whole rfl
      cases same
      exact ⟨start_eq ▸ before, rfl⟩

theorem of_append {rest : List Token} (tiles : Tiles input (tokens ++ rest) pos) :
    ∃ place, Tiles input tokens place := by
  induction rest using List.reverseRecOn generalizing pos with
  | nil => exact ⟨pos, by simpa using tiles⟩
  | append_singleton rest token ih =>
      rw [← List.append_assoc] at tiles
      exact ih tiles.of_concat.1

theorem pos_unique (tiles : Tiles input tokens pos) {place : Nat}
    (again : Tiles input tokens place) :
    pos = place := by
  cases tiles with
  | none =>
      generalize nothing : ([] : List Token) = tokens at again
      cases again with
      | none => rfl
      | snoc => simp at nothing
  | snoc before token => exact again.of_concat.2

end Tiles

/-- What a stream gave behind its tokens and where it stands: nothing yet; nothing, at the end of the
input; or one failure, for a byte if it is the one at the position.  From then on it gives nothing. -/
inductive Ending (input : List UInt8) : (done : Bool) → Nat → List Given → Prop where
  | going {pos : Nat} : Ending input false pos []
  | atEnd (more : Nat) : Ending input true input.length (List.replicate (more + 1) none)
  | failed {pos : Nat} (error : ScanError) (more : Nat)
      (here : ∀ byte place, error = .unexpectedByte byte place →
        place = pos ∧ input[pos]? = some byte) :
      Ending input true pos (some (.error error) :: List.replicate more none)

theorem Ending.more {input : List UInt8} {pos : Nat} {ending : List Given}
    (ended : Ending input true pos ending) : Ending input true pos (ending ++ [none]) := by
  cases ended with
  | atEnd more =>
      rw [← List.replicate_succ']
      exact .atEnd (more + 1)
  | failed error more here =>
      rw [List.cons_append, ← List.replicate_succ']
      exact .failed error (more + 1) here

theorem next_of_going {s : TokenStream} (going : s.done = false) :
    (∃ e, s.lexer.found s.input s.pos = .error e ∧
      s.next = (some (.error (.lexer e)), { s with done := true })) ∨
    ∃ outcome lexer, s.lexer.found s.input s.pos = .ok outcome ∧ lexer.Alike s.lexer ∧
      s.next = match outcome with
        | .matched token => (some (.ok token), { s with lexer, pos := token.stop })
        | .endOfInput => (none, { s with lexer, done := true })
        | .noMatch =>
            (some (.error (.unexpectedByte (s.input[s.pos]?.getD 0) s.pos)),
              { s with lexer, done := true }) := by
  rw [next, Lexer.found, if_neg (by simp [going])]
  cases given : s.lexer.find s.input s.pos with
  | error e => exact .inl ⟨e, rfl, rfl⟩
  | ok answer =>
      obtain ⟨outcome, lexer⟩ := answer
      refine .inr ⟨outcome, lexer, rfl, Lexer.alike_find given, ?_⟩
      cases outcome <;> rfl

theorem next_of_done {s : TokenStream} (done : s.done = true) : s.next = (none, s) := by
  rw [next, if_pos done]

/-- What a stream that has not ended gives when it is asked for the next token, and the stream after
it: a token that is found where it stands, nothing at the end of the input, or a failure. -/
inductive Advance (s : TokenStream) : Given → TokenStream → Prop where
  | token {lexer : Lexer} {token : Token} (alike : lexer.Alike s.lexer)
      (answer : s.lexer.found s.input s.pos = .ok (.matched token)) (start_eq : token.start = s.pos)
      (after : s.pos < token.stop) (le : token.stop ≤ s.input.length)
      (bytes_eq : token.bytes = slice s.input s.pos token.stop) :
      Advance s (some (.ok token)) { s with lexer, pos := token.stop }
  | atEnd {lexer : Lexer} (alike : lexer.Alike s.lexer) (beyond : s.input.length ≤ s.pos) :
      Advance s none { s with lexer, done := true }
  | unmatched {lexer : Lexer} {byte : UInt8} (alike : lexer.Alike s.lexer)
      (answer : s.lexer.found s.input s.pos = .ok .noMatch) (here : s.input[s.pos]? = some byte) :
      Advance s (some (.error (.unexpectedByte byte s.pos))) { s with lexer, done := true }
  | refused {e : Lexer.Error} (answer : s.lexer.found s.input s.pos = .error e) :
      Advance s (some (.error (.lexer e))) { s with done := true }

theorem advance_next {s : TokenStream} (going : s.done = false) : Advance s s.next.1 s.next.2 := by
  rcases next_of_going going with ⟨e, answer, next⟩ | ⟨outcome, lexer, answer, alike, next⟩
  · rw [next]
    exact .refused answer
  · have ends := Lexer.found_endOfInput answer
    rw [next]
    cases outcome with
    | matched token =>
        obtain ⟨start, after, le, bytes⟩ := Lexer.found_matched answer
        exact .token alike answer start after le bytes
    | endOfInput => exact .atEnd alike (ends.mp rfl)
    | noMatch =>
        have before : s.pos < s.input.length :=
          Nat.lt_of_not_le fun beyond => nomatch ends.mpr beyond
        have here := List.getElem?_eq_getElem before
        rw [here]
        exact .unmatched alike answer here

/-- A stream of an input gave what was given: tokens that tile the input up to its position, and an
ending.  Its lexer is alike to the given one. -/
structure Scanned (l : Lexer) (input : List UInt8) (given : List Given) (s : TokenStream) : Prop where
  lexer : s.lexer.Alike l
  input_eq : s.input = input
  run : ∃ tokens ending, given = tokens.map (fun token => some (.ok token)) ++ ending ∧
    Tiles input tokens s.pos ∧ Ending input s.done s.pos ending

namespace Scanned

variable {l : Lexer} {input : List UInt8} {given : List Given} {s : TokenStream}

theorem start (l : Lexer) (input : List UInt8) : Scanned l input [] (.start l input) where
  lexer := .refl l
  input_eq := rfl
  run := ⟨[], [], rfl, .none, .going⟩

theorem next_eq_ok_iff (scanned : Scanned l input given s) (going : s.done = false)
    (token : Token) :
    s.next.1 = some (.ok token) ↔ l.found input s.pos = .ok (.matched token) := by
  rw [← scanned.lexer.found_eq, ← scanned.input_eq]
  rcases next_of_going going with ⟨e, answer, next⟩ | ⟨outcome, lexer, answer, -, next⟩
  · rw [next, answer]
    simp
  · rw [next, answer]
    cases outcome <;> simp

/-- Asking for the next token gives one more, or ends the stream, or nothing if it has ended. -/
theorem next (scanned : Scanned l input given s) :
    Scanned l input (given ++ [s.next.1]) s.next.2 := by
  obtain ⟨lexer, inputEq, tokens, ending, rfl, tiles, ended⟩ := scanned
  subst inputEq
  cases done : s.done with
  | true =>
      rw [next_of_done done]
      rw [done] at ended
      refine ⟨lexer, rfl, tokens, ending ++ [none], List.append_assoc _ _ _, tiles, ?_⟩
      rw [done]
      exact ended.more
  | false =>
      -- nothing stands behind the tokens yet, so what is given now is a token or an ending
      rw [done] at ended
      cases ended
      have advance := advance_next done
      generalize s.next.1 = answer, s.next.2 = after at advance
      rw [List.append_nil]
      cases advance with
      | @token _ token alike _ start after le bytes =>
          refine ⟨alike.trans lexer, rfl, tokens ++ [token], [], by simp, ?_, done ▸ .going⟩
          exact tiles.snoc token start after le bytes
      | atEnd alike beyond =>
          -- the tokens do not reach over the end
          have atEnd : s.pos = s.input.length := Nat.le_antisymm tiles.pos_le beyond
          refine ⟨alike.trans lexer, rfl, tokens, [none], rfl, tiles, ?_⟩
          simp only [atEnd]
          exact .atEnd 0
      | unmatched alike _ here =>
          refine ⟨alike.trans lexer, rfl, tokens, _, rfl, tiles, .failed _ 0 ?_⟩
          intro byte place same
          cases same
          exact ⟨rfl, here⟩
      | refused => exact ⟨lexer, rfl, tokens, _, rfl, tiles, .failed _ 0 nofun⟩

theorem setMode (scanned : Scanned l input given s) (name : String) :
    (s.call (.setMode name)).1 = [] ∧
      Scanned (l.switched name) input given (s.call (.setMode name)).2 := by
  obtain ⟨lexer, inputEq, run⟩ := scanned
  have next := lexer.switched name
  rw [Lexer.switched] at next
  rw [call, TokenStream.setMode]
  cases set : s.lexer.setMode name with
  | ok switched =>
      rw [set] at next
      exact ⟨rfl, next, inputEq, run⟩
  | error e =>
      rw [set] at next
      exact ⟨rfl, next, inputEq, run⟩

theorem call (scanned : Scanned l input given s) (c : Call) :
    Scanned (lexerAfter l [c]) input (given ++ (s.call c).1) (s.call c).2 := by
  cases c with
  | next => exact scanned.next
  | setMode name =>
      obtain ⟨nothing, next⟩ := scanned.setMode name
      rw [nothing, List.append_nil]
      exact next

theorem calls (scanned : Scanned l input given s) (cs : List Call) :
    Scanned (lexerAfter l cs) input (given ++ (s.calls cs).1) (s.calls cs).2 := by
  induction cs generalizing l given s with
  | nil =>
      rw [TokenStream.calls, List.append_nil]
      exact scanned
  | cons c rest ih =>
      rw [TokenStream.calls, ← List.append_assoc]
      exact ih (scanned.call c)

end Scanned

theorem call_of_done {s : TokenStream} (done : s.done = true) (c : Call) :
    (∀ given ∈ (s.call c).1, given = none) ∧ (s.call c).2.done = true ∧
      (s.call c).2.pos = s.pos := by
  cases c with
  | next =>
      rw [call, next_of_done done]
      exact ⟨by simp, done, rfl⟩
  | setMode name =>
      rw [call, TokenStream.setMode]
      cases s.lexer.setMode name <;> exact ⟨nofun, done, rfl⟩

theorem calls_of_done {s : TokenStream} (done : s.done = true) (cs : List Call) :
    (∀ given ∈ (s.calls cs).1, given = none) ∧ (s.calls cs).2.pos = s.pos := by
  induction cs generalizing s with
  | nil => exact ⟨nofun, rfl⟩
  | cons c rest ih =>
      obtain ⟨nothing, ended, stays⟩ := call_of_done done c
      obtain ⟨later, final⟩ := ih ended
      refine ⟨fun given mem => ?_, final.trans stays⟩
      rcases List.mem_append.mp mem with here | behind
      · exact nothing given here
      · exact later given behind

/-- A stream of an input, after any calls.  What it gave is tokens that tile the input up to where it
stands, no more of them than there are bytes, and then an ending.  What it gives next is a token if
the lexer, with the modes switched, finds that token there.  Once it has ended it gives nothing,
whatever is called, and it has ended when it was asked more often than there are bytes. -/
theorem calls_start_spec (l : Lexer) (input : List UInt8) (cs : List Call) :
    let given := ((start l input).calls cs).1
    let s := ((start l input).calls cs).2
    (∃ tokens ending, given = tokens.map (fun token => some (.ok token)) ++ ending ∧
      Tiles input tokens s.pos ∧ tokens.flatMap Token.bytes = input.take s.pos ∧
      tokens.length ≤ input.length ∧ Ending input s.done s.pos ending) ∧
    ((start l input).calls (cs ++ [.next])).1 = given ++ [s.next.1] ∧
    (s.done = false → ∀ token, s.next.1 = some (.ok token) ↔
      (lexerAfter l cs).found input s.pos = .ok (.matched token)) ∧
    (s.done = true → ∀ more, (∀ item ∈ (s.calls more).1, item = none) ∧
      (s.calls more).2.pos = s.pos) ∧
    (input.length < given.length → s.done = true) := by
  intro given s
  have scanned : Scanned (lexerAfter l cs) input given s := (Scanned.start l input).calls cs
  obtain ⟨tokens, ending, givenEq, tiles, ended⟩ := scanned.run
  have few : tokens.length ≤ input.length := Nat.le_trans tiles.length_le tiles.pos_le
  refine ⟨⟨tokens, ending, givenEq, tiles, tiles.flatMap_bytes, few, ended⟩,
    congrArg Prod.fst (calls_append _ cs [.next]), scanned.next_eq_ok_iff, calls_of_done,
    fun many => ?_⟩
  rw [givenEq, List.length_append, List.length_map] at many
  cases done : s.done with
  | true => rfl
  | false =>
      rw [done] at ended
      cases ended
      rw [List.length_nil] at many
      omega

end TokenStream

end Munch
