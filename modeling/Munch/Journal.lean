import Munch.Automaton.Dot
import Munch.Pattern.Printer

/-!
What the operations of the library report about themselves.

A journal is a list of events in the order in which they happen.  Each has a level and a line of
text: registrations, switches and summaries are for debugging, and the graphs and sizes of the phases
of a compilation are traces.
-/

set_option autoImplicit false

namespace Munch

inductive Level where
  | debug
  | trace
  deriving DecidableEq

def Level.name : Level → String
  | .debug => "DEBUG"
  | .trace => "TRACE"

inductive Phase where
  | epsilonNfa
  | nfa
  | dfa
  | minimal
  deriving DecidableEq

def Phase.title : Phase → String
  | .epsilonNfa => "epsilon-NFA"
  | .nfa => "NFA"
  | .dfa => "DFA"
  | .minimal => "minimized DFA"

inductive Event where
  | rule (index : Nat) (name : String) (pattern : Pattern)
  | mode (name : String) (rules : Nat)
  | switch (name : String)
  | graph (phase : Phase) (a : Automaton)
  | reduced (before after : Nat)
  | determinized (before after : Nat)
  | minimized (before after : Nat)
  | compiled (rules epsilonNfa nfa dfa minimal : Nat)

namespace Event

def level : Event → Level
  | .rule .. | .mode .. | .switch .. | .compiled .. => .debug
  | .graph .. | .reduced .. | .determinized .. | .minimized .. => .trace

/-- How an activity changed the number of states. -/
def sizes (activity : String) (before after : Nat) : String :=
  activity ++ ": " ++ toString before ++ " states -> " ++ toString after

def text : Event → String
  | .rule index name pattern => "rule " ++ toString index ++ " " ++ name ++ " => " ++ pattern.text
  | .mode name rules => "lexer state " ++ name ++ " with " ++ toString rules ++ " rules"
  | .switch name => "switching lexer state to " ++ name
  | .graph phase a => phase.title ++ ":\n" ++ a.dot
  | .reduced before after => sizes "epsilon reduction" before after
  | .determinized before after => sizes "subset construction" before after
  | .minimized before after => sizes "minimization" before after
  | .compiled rules epsilonNfa nfa dfa minimal =>
      "compiled " ++ toString rules ++ " rules: epsilon-NFA " ++ toString epsilonNfa ++
        " states, NFA " ++ toString nfa ++ ", DFA " ++ toString dfa ++ ", minimized " ++
        toString minimal

def line (e : Event) : String :=
  e.level.name ++ " " ++ e.text

end Event

end Munch
