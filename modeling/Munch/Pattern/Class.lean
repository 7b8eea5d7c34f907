import Munch.Pattern.Basic
import Munch.Pattern.Error

/-!
Character classes under construction.

A class collects bytes in a set and characters of several bytes in a list.  A class without wide
characters is one byte of a set; each wide character adds an alternative, its bytes in order.  Only
a class of single bytes can be negated.
-/

set_option autoImplicit false

namespace Munch.Pattern

/-- A member of a class, or what an escape stands for. -/
inductive Member where
  | byte (b : UInt8)
  /-- A character, which stands for the bytes of its encoding. -/
  | char (c : Char)
  deriving DecidableEq

def Member.bytes : Member → List UInt8
  | .byte b => [b]
  | .char c => String.utf8EncodeChar c

def Member.single : Member → Except Error UInt8
  | .byte b => .ok b
  | .char c => if c.toNat < 0x80 then .ok (UInt8.ofNat c.toNat) else .error (.wideMember c)

/-- The members of a class. -/
structure Class where
  bytes : ByteSet := .empty
  /-- The characters of several bytes, in the order they were added. -/
  wide : List Char := []
  /-- Whether the class stands for the bytes that are not members. -/
  negated : Bool := false
  deriving DecidableEq

namespace Class

def empty : Class := {}

def negate (cls : Class) : Class :=
  { cls with negated := true }

def addByte (cls : Class) (b : UInt8) : Class :=
  { cls with bytes := cls.bytes.insert b }

def addChar (cls : Class) (c : Char) : Class :=
  if c.toNat < 0x80 then cls.addByte (UInt8.ofNat c.toNat)
  else { cls with wide := cls.wide ++ [c] }

def addMember (cls : Class) : Member → Class
  | .byte b => cls.addByte b
  | .char c => cls.addChar c

def addRange (cls : Class) (lo hi : UInt8) : Except Error Class :=
  if hi < lo then .error (.invertedRange lo hi)
  else .ok { cls with bytes := cls.bytes.insertRange lo hi }

/-- Adds the bytes between two members; the lower one is looked at first. -/
def addInterval (cls : Class) (lo hi : Member) : Except Error Class :=
  match lo.single, hi.single with
  | .error e, _ => .error e
  | .ok _, .error e => .error e
  | .ok l, .ok h => cls.addRange l h

/-- The patterns that a class offers: its bytes, if there are any, and its wide characters. -/
def alternatives (cls : Class) : List Pattern :=
  (if cls.bytes.isEmpty then [] else [.range cls.bytes]) ++
    cls.wide.map fun c => .literal (String.utf8EncodeChar c)

def toPattern (cls : Class) (u : Universe) : Except Error Pattern :=
  match cls.negated, cls.wide with
  | true, c :: _ => .error (.wideMember c)
  | true, [] => .ok (.range (cls.bytes.complementIn u))
  | false, [] => .ok (.range cls.bytes)
  | false, _ :: _ =>
      match cls.alternatives with
      | [p] => .ok p
      | items => .ok (.alternation items)

end Class

end Munch.Pattern
