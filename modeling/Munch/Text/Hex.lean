/-!
Hexadecimal digits.

A byte is written as two lower-case digits.  Digits of either case are read.
-/

set_option autoImplicit false

namespace Munch.Text

def hexValue? (c : Char) : Option Nat :=
  if '0' ≤ c ∧ c ≤ '9' then some (c.toNat - 48)
  else if 'a' ≤ c ∧ c ≤ 'f' then some (c.toNat - 87)
  else if 'A' ≤ c ∧ c ≤ 'F' then some (c.toNat - 55)
  else none

theorem hexValue?_lt {c : Char} {n : Nat} (digit : hexValue? c = some n) : n < 16 := by
  have bound {d : Char} (le : c ≤ d) : c.toNat ≤ d.toNat := UInt32.le_iff_toNat_le.mp le
  unfold hexValue? at digit
  split at digit
  · rename_i range
    cases digit
    have upper : c.toNat ≤ 57 := bound range.2
    omega
  split at digit
  · rename_i range
    cases digit
    have upper : c.toNat ≤ 102 := bound range.2
    omega
  split at digit
  · rename_i range
    cases digit
    have upper : c.toNat ≤ 70 := bound range.2
    omega
  · cases digit

/-- The lower-case digit of a value below 16. -/
def hexDigit (n : Nat) : Char :=
  Nat.digitChar (n % 16)

def hexByte (b : UInt8) : List Char :=
  [hexDigit (b.toNat / 16), hexDigit b.toNat]

/-- A number in lower-case digits without leading zeros. -/
def hexNat (n : Nat) : List Char :=
  Nat.toDigits 16 n

end Munch.Text
