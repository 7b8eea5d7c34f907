import Munch.ByteSet.Basic

/-!
A byte set as its maximal runs of consecutive bytes.

`runs` is the canonical form of a set: pairs of bounds in ascending order, with at least one missing
byte between a run and the next.  Classes are printed from it and edges of a drawing are labelled
with it.
-/

set_option autoImplicit false

namespace Munch.ByteSet

/-- Puts `b` in front of ascending runs: it opens a run of its own, or extends the first run if
that begins just after `b`. -/
def consRun (b : UInt8) : List (UInt8 × UInt8) → List (UInt8 × UInt8)
  | [] => [(b, b)]
  | (lo, hi) :: rest =>
      if b.toNat + 1 = lo.toNat then (b, hi) :: rest else (b, b) :: (lo, hi) :: rest

/-- The maximal runs of consecutive members, as inclusive bounds in ascending order. -/
def runs (s : ByteSet) : List (UInt8 × UInt8) :=
  s.toList.foldr consRun []

def runText (run : UInt8 × UInt8) : String :=
  toString run.1.toNat ++ "..=" ++ toString run.2.toNat

/-- The runs in decimal, as in `[97..=99, 120..=120]`. -/
def text (s : ByteSet) : String :=
  "[" ++ ", ".intercalate (s.runs.map runText) ++ "]"

end Munch.ByteSet
