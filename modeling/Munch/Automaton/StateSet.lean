/-!
Finite sets of state numbers, kept as the bits of a number.

Number `i` is a member if bit `i` is set, so two sets are equal exactly if they have the same
members.
-/

set_option autoImplicit false

namespace Munch

/-- A finite set of state numbers: bit `i` says whether `i` is a member. -/
structure StateSet where
  bits : Nat
  deriving DecidableEq

namespace StateSet

def contains (s : StateSet) (i : Nat) : Bool :=
  s.bits.testBit i

def empty : StateSet :=
  ⟨0⟩

def singleton (i : Nat) : StateSet :=
  ⟨1 <<< i⟩

def union (s t : StateSet) : StateSet :=
  ⟨s.bits ||| t.bits⟩

def isEmpty (s : StateSet) : Bool :=
  s.bits = 0

def ofList (is : List Nat) : StateSet :=
  is.foldl (fun s i => s.union (singleton i)) empty

def membersBelow (s : StateSet) (n : Nat) : List Nat :=
  (List.range n).filter s.contains

end StateSet

end Munch
