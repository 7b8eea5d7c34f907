import Munch.Pattern.Language

/-!
What patterns match, one equivalence for each kind of pattern.
-/

set_option autoImplicit false

namespace Munch

inductive Plus (L : List UInt8 → Prop) : List UInt8 → Prop where
  | once {w : List UInt8} : L w → Plus L w
  | more {u v : List UInt8} : L u → Plus L v → Plus L (u ++ v)

theorem Plus.snoc {L : List UInt8 → Prop} {u v : List UInt8} (first : Plus L u) (last : L v) :
    Plus L (u ++ v) := by
  induction first with
  | once mem => exact .more mem (.once last)
  | more mem _ ih =>
      rw [List.append_assoc]
      exact .more mem ih

namespace Pattern

variable {p : Pattern} {ps : List Pattern} {s : ByteSet} {bytes w : List UInt8}

theorem matches_literal_iff : Matches (.literal bytes) w ↔ w = bytes := by
  constructor
  · intro found
    cases found
    rfl
  · rintro rfl
    exact .literal w

theorem matches_sequence_nil_iff : Matches (.sequence []) w ↔ w = [] := by
  constructor
  · intro found
    cases found
    rfl
  · rintro rfl
    exact .sequenceNil

theorem matches_sequence_cons_iff :
    Matches (.sequence (p :: ps)) w ↔ ∃ u v, w = u ++ v ∧ Matches p u ∧ Matches (.sequence ps) v := by
  constructor
  · intro found
    cases found with
    | sequenceCons first rest => exact ⟨_, _, rfl, first, rest⟩
  · rintro ⟨u, v, rfl, first, rest⟩
    exact .sequenceCons first rest

theorem matches_alternation_iff : Matches (.alternation ps) w ↔ ∃ p ∈ ps, Matches p w := by
  constructor
  · intro found
    cases found with
    | alternation mem found => exact ⟨_, mem, found⟩
  · rintro ⟨p, mem, found⟩
    exact .alternation mem found

theorem matches_optional_iff : Matches (.optional p) w ↔ Matches p w ∨ w = [] := by
  constructor
  · intro found
    cases found with
    | optionalNone => exact .inr rfl
    | optionalSome found => exact .inl found
  · rintro (found | rfl)
    · exact .optionalSome found
    · exact .optionalNone p

theorem matches_repetition_iff : Matches (.repetition p) w ↔ Plus (Matches p) w := by
  constructor
  · intro found
    generalize eq : Pattern.repetition p = q at found
    induction found with
    | repetitionOnce once _ =>
        cases eq
        exact .once once
    | repetitionMore first _ _ ih =>
        cases eq
        exact .more first (ih rfl)
    | _ => cases eq
  · intro rounds
    induction rounds with
    | once found => exact .repetitionOnce found
    | more found _ ih => exact .repetitionMore found ih

theorem matches_zeroOrMore_iff : Matches (.zeroOrMore p) w ↔ Plus (Matches p) w ∨ w = [] := by
  rw [← matches_repetition_iff]
  constructor
  · intro found
    cases found with
    | zeroOrMoreNone => exact .inr rfl
    | zeroOrMoreSome found => exact .inl found
  · rintro (found | rfl)
    · exact .zeroOrMoreSome found
    · exact .zeroOrMoreNone p

theorem matches_range_iff : Matches (.range s) w ↔ ∃ b ∈ s, w = [b] := by
  constructor
  · intro found
    cases found with
    | range mem => exact ⟨_, mem, rfl⟩
  · rintro ⟨b, mem, rfl⟩
    exact .range mem

end Pattern

end Munch
