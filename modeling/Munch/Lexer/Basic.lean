import Munch.RuleSet
import Munch.Tables.Printer

/-!
Lexers with several modes, one of which is active.

A mode is a named set of rules.  The mode `INITIAL` becomes active when it is added, and any mode
when it is switched to; matches are those of the active mode.
-/

set_option autoImplicit false

namespace Munch

namespace Lexer

def initial : String :=
  "INITIAL"

inductive Error where
  | duplicateMode (name : String)
  | unknownMode (name : String)
  | missingInitial
  deriving DecidableEq

def Error.message : Error → String
  | .duplicateMode name => "Lexer state " ++ Text.quoteString name ++ " already exists"
  | .unknownMode name => "Unknown lexer state " ++ Text.quoteString name
  | .missingInitial => "No " ++ initial ++ " lexer state"

end Lexer

/-- Named sets of rules in the order they were added, and the name of the active one. -/
structure Lexer where
  modes : List (String × RuleSet)
  active : Option String

namespace Lexer

def empty : Lexer :=
  ⟨[], none⟩

def names (l : Lexer) : List String :=
  l.modes.map Prod.fst

def mode? (l : Lexer) (name : String) : Option RuleSet :=
  l.modes.lookup name

def setRules (l : Lexer) (name : String) (rules : RuleSet) : Lexer :=
  { l with modes := l.modes.map fun m => if m.1 = name then (m.1, rules) else m }

def addMode (l : Lexer) (name : String) (rules : RuleSet) : Except Error Lexer :=
  if name ∈ l.names then .error (.duplicateMode name)
  else .ok ⟨l.modes ++ [(name, rules)], if name = initial then some name else l.active⟩

def addModeEvents (l : Lexer) (name : String) (rules : RuleSet) : List Event :=
  if name ∈ l.names then [] else [.mode name rules.rules.size]

def setMode (l : Lexer) (name : String) : Except Error Lexer :=
  if name ∈ l.names then .ok { l with active := some name } else .error (.unknownMode name)

def setModeEvents (l : Lexer) (name : String) : List Event :=
  if name ∈ l.names then [.switch name] else []

def register (l : Lexer) (modeName name : String) (pattern : Pattern) (action : Option String) :
    Lexer :=
  match l.mode? modeName with
  | none => l
  | some rules => l.setRules modeName (rules.register name pattern action)

def compile (l : Lexer) : Lexer :=
  { l with modes := l.modes.map fun m => (m.1, m.2.compile.2) }

def compileEvents (l : Lexer) : List Event :=
  l.modes.flatMap fun m => m.2.compileEvents

def activeRules? (l : Lexer) : Option (String × RuleSet) :=
  match l.active with
  | none => none
  | some name => (l.mode? name).map fun rules => (name, rules)

def find (l : Lexer) (input : List UInt8) (pos : Nat) : Except Error (Outcome × Lexer) :=
  match l.activeRules? with
  | none => .error .missingInitial
  | some (name, rules) =>
      let (outcome, rules) := rules.find input pos
      .ok (outcome, l.setRules name rules)

def findEvents (l : Lexer) : List Event :=
  match l.activeRules? with
  | none => []
  | some (_, rules) => rules.compileEvents

def modeTables (name : String) (rules : RuleSet) : ModeTables :=
  ⟨name, rules.rules.toList.map Rule.name, rules.rules.toList.map Rule.action, rules.tables.1⟩

/-- The tables of every mode in the order they were added; all modes are compiled. -/
def exportTables (l : Lexer) : Except Error (List ModeTables × Lexer) :=
  if initial ∈ l.names then .ok (l.modes.map fun m => modeTables m.1 m.2, l.compile)
  else .error .missingInitial

def exportEvents (l : Lexer) : List Event :=
  if initial ∈ l.names then l.compileEvents else []

end Lexer

end Munch
