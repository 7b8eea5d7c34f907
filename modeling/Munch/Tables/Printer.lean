import Munch.Tables.Basic

/-!
The printed form of tables.

A line with the number of states comes first, then one with the rules of the states, and then one
line for every row.  The tables of a lexer mode stand behind the name of the mode and its rules.
-/

set_option autoImplicit false

namespace Munch

namespace Tables

def spaced (numbers : List String) : String :=
  String.join (numbers.map fun n => " " ++ n)

def rowLine (i : Nat) (row : Vector Nat 256) : String :=
  toString i ++ ":" ++ spaced (row.toList.map toString) ++ "\n"

def text (t : Tables) : String :=
  "states " ++ toString t.count ++ "\n" ++
    "accept" ++ spaced (t.rules.toList.map fun rule => toString rule.toInt) ++ "\n" ++
    String.join (t.rows.toList.zipIdx.map fun r => rowLine r.2 r.1)

end Tables

/-- The tables of a mode of a lexer, with the names and the actions of its rules in order. -/
structure ModeTables where
  mode : String
  ruleNames : List String
  actions : List (Option String)
  tables : Tables
  deriving DecidableEq

namespace ModeTables

/-- The line of a rule; a rule without an action ends after its name. -/
def ruleLine (i : Nat) (name : String) (action : Option String) : String :=
  "rule " ++ toString i ++ " " ++ name ++
    (match action with
      | some action => " => " ++ action
      | none => "") ++ "\n"

def text (m : ModeTables) : String :=
  "state " ++ m.mode ++ "\n" ++
    String.join (m.ruleNames.zipIdx.map fun r => ruleLine r.2 r.1 (m.actions[r.2]?.getD none)) ++
    m.tables.text

end ModeTables

end Munch
