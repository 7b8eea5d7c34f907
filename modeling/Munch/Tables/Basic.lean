import Munch.Dfa.Basic
import Munch.Dfa.Verdict

/-!
Dense tables for generated scanners.

A row has an entry for every byte; the number of states as an entry says that the byte leads nowhere.
The rule of each state is kept as a signed word of 32 bits, in which a rule number wraps around and a
negative number says that the state accepts nothing.  State zero is the entry.

Tables can be made by hand, so a number in them need not be that of a state; what is looked up in a
state that does not exist is refused.
-/

set_option autoImplicit false

namespace Munch

/-- A transition matrix with a row for every state, and the rules of the states. -/
structure Tables where
  rows : Array (Vector Nat 256)
  rules : Array Int32
  deriving DecidableEq

namespace Tables

/-- The refusal to look something up in a state that does not exist. -/
structure MissingState where
  state : Nat
  deriving DecidableEq

def count (t : Tables) : Nat :=
  t.rules.size

/-- The entry of a row for bytes that lead nowhere. -/
def sentinel (t : Tables) : Nat :=
  t.count

def column (b : UInt8) : Fin 256 :=
  ⟨b.toNat, b.toNat_lt⟩

/-- The word for the rule of a state. -/
def ruleWord : Option Nat → Int32
  | none => -1
  | some rule => Int32.ofNat rule

def rowOf (sentinel : Nat) (edges : List Edge) : Vector Nat 256 :=
  edges.foldl
    (fun row e => match e.label with
      | .byte b => row.set (column b) e.target
      | .epsilon => row)
    (Vector.replicate 256 sentinel)

def ofDfa (d : Dfa) : Tables where
  rows := d.graph.states.map fun s => rowOf d.size s.edges
  rules := d.graph.states.map fun s => ruleWord s.accept

def next (t : Tables) (i : Nat) (b : UInt8) : Except MissingState (Option Nat) :=
  match t.rows[i]? with
  | none => .error ⟨i⟩
  | some row =>
      let target := row[column b]
      .ok (if target = t.sentinel then none else some target)

def accept (t : Tables) (i : Nat) : Except MissingState (Option Nat) :=
  match t.rules[i]? with
  | none => .error ⟨i⟩
  | some rule => .ok (if rule < 0 then none else some rule.toInt.toNat)

def longest (t : Tables) (i : Nat) (pos : Nat) (best : Verdict) :
    List UInt8 → Except MissingState Verdict
  | [] => .ok best
  | b :: rest =>
      match t.next i b with
      | .error e => .error e
      | .ok none => .ok best
      | .ok (some j) =>
          match t.accept j with
          | .error e => .error e
          | .ok none => t.longest j (pos + 1) best rest
          | .ok (some rule) => t.longest j (pos + 1) (.accept rule (pos + 1)) rest

def find (t : Tables) (input : List UInt8) (pos : Nat) : Except MissingState Verdict :=
  if input.length ≤ pos then .ok .endOfInput
  else if t.count = 0 then .ok .noMatch
  else t.longest 0 pos .noMatch (input.drop pos)

end Tables

end Munch
