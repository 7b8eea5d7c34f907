import Munch.Automaton.EpsilonFree
import Munch.Automaton.Fragment
import Munch.Dfa.Find
import Munch.Dfa.Minimal
import Munch.Dfa.Subset
import Munch.Journal
import Munch.Pattern.Reader
import Munch.Tables.Basic

/-!
Sets of rules that are matched together.

A rule has a name, a pattern and possibly an action; its place among the rules is its priority.  All
rules of a set share one automaton, which is compiled when a match is looked for and kept until a rule
is added.  The longest match wins, and of the rules that match as much the earliest one.
-/

set_option autoImplicit false

namespace Munch

structure Rule where
  name : String
  index : Nat
  pattern : Pattern
  /-- Where the states for the pattern are in the automaton of the rules. -/
  fragment : Fragment
  action : Option String

structure Token where
  rule : String
  index : Nat
  bytes : List UInt8
  start : Nat
  stop : Nat
  deriving DecidableEq

/-- What a set of rules finds at a position. -/
inductive Outcome where
  | matched (token : Token)
  | noMatch
  | endOfInput
  deriving DecidableEq

/-- The graphs of the phases of a compilation. -/
structure Compilation where
  nfa : Automaton
  dfa : Dfa
  minimal : Dfa

def Automaton.compile (a : Automaton) : Compilation :=
  let nfa := a.reduce
  let dfa := nfa.subsetDfa
  ⟨nfa, dfa, dfa.minimize⟩

def Automaton.reduceEvents (a nfa : Automaton) : List Event :=
  [.reduced a.size nfa.size]

def Automaton.subsetEvents (a : Automaton) (dfa : Dfa) : List Event :=
  [.determinized a.size dfa.size]

def Dfa.minimizeEvents (d minimal : Dfa) : List Event :=
  [.minimized d.size minimal.size]

/-- Rules in order of priority, with their automaton. -/
structure RuleSet where
  rules : Array Rule
  /-- The automaton of all rules: each hangs off the entry by an epsilon edge. -/
  graph : Automaton
  compiled : Option Dfa

namespace RuleSet

def empty : RuleSet :=
  ⟨#[], .root, none⟩

def register (s : RuleSet) (name : String) (pattern : Pattern) (action : Option String) : RuleSet :=
  let index := s.rules.size
  let (graph, fragment) := s.graph.attach pattern index
  ⟨s.rules.push ⟨name, index, pattern, fragment, action⟩, graph, none⟩

def registerEvents (s : RuleSet) (name : String) (pattern : Pattern) : List Event :=
  [.rule s.rules.size name pattern]

def registerText (s : RuleSet) (u : Universe) (name : String) (text : String) :
    Except Pattern.Error RuleSet :=
  (Pattern.parse u text).map fun pattern => s.register name pattern none

def rule? (s : RuleSet) (index : Nat) : Option Rule :=
  s.rules[index]?

def invalidate (s : RuleSet) : RuleSet :=
  { s with compiled := none }

def isCompiled (s : RuleSet) : Bool :=
  s.compiled.isSome

def build (s : RuleSet) : Dfa :=
  s.graph.compile.minimal

/-- The compiled automaton, which is kept. -/
def compile (s : RuleSet) : Dfa × RuleSet :=
  match s.compiled with
  | some d => (d, s)
  | none =>
      let d := s.build
      (d, { s with compiled := some d })

/-- What compiling reports: nothing if there is a compiled automaton. -/
def compileEvents (s : RuleSet) : List Event :=
  match s.compiled with
  | some _ => []
  | none =>
      let phases := s.graph.compile
      [.graph .epsilonNfa s.graph] ++
      s.graph.reduceEvents phases.nfa ++ [.graph .nfa phases.nfa] ++
      phases.nfa.subsetEvents phases.dfa ++ [.graph .dfa phases.dfa.graph] ++
      phases.dfa.minimizeEvents phases.minimal ++ [.graph .minimal phases.minimal.graph] ++
      [.compiled s.rules.size s.graph.size phases.nfa.size phases.dfa.size phases.minimal.size]

def outcome (s : RuleSet) (input : List UInt8) (pos : Nat) : Verdict → Outcome
  | .endOfInput => .endOfInput
  | .noMatch => .noMatch
  | .accept index stop =>
      match s.rules[index]? with
      | none => .noMatch
      | some rule =>
          .matched ⟨rule.name, index, (input.drop pos).take (stop - pos), pos, stop⟩

/-- The longest match at a position, of the earliest rule that has it. -/
def find (s : RuleSet) (input : List UInt8) (pos : Nat) : Outcome × RuleSet :=
  let (d, s) := s.compile
  (s.outcome input pos (d.find input pos), s)

def tables (s : RuleSet) : Tables × RuleSet :=
  let (d, s) := s.compile
  (.ofDfa d, s)

end RuleSet

end Munch
