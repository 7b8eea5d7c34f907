import Munch.ByteSet.Runs
import Munch.Pattern.Basic
import Munch.Text.Hex

/-!
The printed form of a pattern, in the syntax that patterns are read in.

Every sequence and alternation stands in parentheses, and so does what an operator applies to.
Bytes that have a meaning in the syntax are escaped, and bytes without a printed form are written
in hexadecimal.  Inside a class other bytes have a meaning than outside.
-/

set_option autoImplicit false

namespace Munch.Pattern

/-- The bytes that are operators or open a construct in pattern text: `\ + ? * ( ) | [ ] . "`. -/
def isSpecialByte (b : UInt8) : Bool :=
  [92, 43, 63, 42, 40, 41, 124, 91, 93, 46, 34].contains b

/-- The bytes that have a meaning inside a class: `\ [ ] - ^`. -/
def isClassSpecialByte (b : UInt8) : Bool :=
  [92, 91, 93, 45, 94].contains b

/-- A byte without a meaning of its own: three control bytes by letter, printable ASCII as it is,
all else in hexadecimal. -/
def printPlainByte (b : UInt8) : List Char :=
  if b = 10 then ['\\', 'n']
  else if b = 13 then ['\\', 'r']
  else if b = 9 then ['\\', 't']
  else if 0x20 ≤ b ∧ b ≤ 0x7e then [Char.ofNat b.toNat]
  else '\\' :: 'x' :: Text.hexByte b

def printByte (b : UInt8) : List Char :=
  if isSpecialByte b then ['\\', Char.ofNat b.toNat] else printPlainByte b

def printClassByte (b : UInt8) : List Char :=
  if isClassSpecialByte b then ['\\', Char.ofNat b.toNat] else printPlainByte b

def printRun (run : UInt8 × UInt8) : List Char :=
  let (lo, hi) := run
  if lo.toNat = hi.toNat then printClassByte lo
  else if lo.toNat + 1 = hi.toNat then printClassByte lo ++ printClassByte hi
  else printClassByte lo ++ '-' :: printClassByte hi

def printClass (set : ByteSet) : List Char :=
  '[' :: (set.runs.flatMap printRun ++ [']'])

mutual

def print : Pattern → List Char
  | .literal bytes => bytes.flatMap printByte
  | .sequence items => '(' :: (printSequence items ++ [')'])
  | .alternation items => '(' :: (printAlternatives items ++ [')'])
  | .optional item => '(' :: (print item ++ [')', '?'])
  | .repetition item => '(' :: (print item ++ [')', '+'])
  | .zeroOrMore item => '(' :: (print item ++ [')', '*'])
  | .range set => printClass set

def printSequence : List Pattern → List Char
  | [] => []
  | p :: ps => print p ++ printSequence ps

def printAlternatives : List Pattern → List Char
  | [] => []
  | [p] => print p
  | p :: ps => print p ++ '|' :: printAlternatives ps

end

def text (p : Pattern) : String :=
  String.ofList p.print

end Munch.Pattern
