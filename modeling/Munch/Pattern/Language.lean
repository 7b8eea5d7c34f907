import Munch.Pattern.Basic

/-!
What a pattern means: the byte strings that it matches.

`Matches p w` is the usual denotation.  A sequence matches the concatenations of what its items
match, so that the sequence of nothing matches the empty string alone; an alternation matches what
any of its items matches, so that the alternation of nothing matches no string.
-/

set_option autoImplicit false

namespace Munch.Pattern

inductive Matches : Pattern → List UInt8 → Prop where
  | literal (bytes : List UInt8) : Matches (.literal bytes) bytes
  | sequenceNil : Matches (.sequence []) []
  | sequenceCons {p : Pattern} {ps : List Pattern} {u v : List UInt8} :
      Matches p u → Matches (.sequence ps) v → Matches (.sequence (p :: ps)) (u ++ v)
  | alternation {p : Pattern} {ps : List Pattern} {w : List UInt8} :
      p ∈ ps → Matches p w → Matches (.alternation ps) w
  | optionalNone (p : Pattern) : Matches (.optional p) []
  | optionalSome {p : Pattern} {w : List UInt8} : Matches p w → Matches (.optional p) w
  | repetitionOnce {p : Pattern} {w : List UInt8} : Matches p w → Matches (.repetition p) w
  | repetitionMore {p : Pattern} {u v : List UInt8} :
      Matches p u → Matches (.repetition p) v → Matches (.repetition p) (u ++ v)
  | zeroOrMoreNone (p : Pattern) : Matches (.zeroOrMore p) []
  | zeroOrMoreSome {p : Pattern} {w : List UInt8} :
      Matches (.repetition p) w → Matches (.zeroOrMore p) w
  | range {s : ByteSet} {b : UInt8} : b ∈ s → Matches (.range s) [b]

end Munch.Pattern
