import Munch.Automaton.Basic
import Munch.Pattern.Basic

/-!
Patterns as parts of an automaton.

`build` adds states for a pattern and gives the two of them that bound it: the byte strings that lead
from the entry of the fragment to its exit are those that the pattern matches.  `attach` makes the
exit accept a rule and lets the entry of the automaton lead to the fragment, so that an automaton
holds any number of rules.

The way past an optional part ends in a state of its own and not in the exit of that part, from which
a repetition may lead back.
-/

set_option autoImplicit false

namespace Munch

/-- The states that bound the part of an automaton which was built for a pattern. -/
structure Fragment where
  entry : Nat
  exit : Nat
  deriving DecidableEq

namespace Automaton

def link (a : Automaton) (source target : Nat) : Automaton :=
  a.addEdge source .epsilon target

/-- Adds a chain of states for bytes, behind a given state; its last state is the exit. -/
def buildChain (a : Automaton) (source : Nat) : List UInt8 → Automaton × Nat
  | [] => (a, source)
  | b :: rest =>
      let (a, next) := a.addState
      (a.addEdge source (.byte b) next).buildChain next rest

def buildLiteral (a : Automaton) (bytes : List UInt8) : Automaton × Fragment :=
  let (a, entry) := a.addState
  let (a, exit) := a.buildChain entry bytes
  (a, ⟨entry, exit⟩)

def buildRange (a : Automaton) (bytes : List UInt8) : Automaton × Fragment :=
  let (a, entry) := a.addState
  let (a, exit) := a.addState
  (bytes.foldl (fun a b => a.addEdge entry (.byte b) exit) a, ⟨entry, exit⟩)

def loop (built : Automaton × Fragment) : Automaton × Fragment :=
  let (a, inner) := built
  (a.link inner.exit inner.entry, inner)

/-- Bounds a fragment by two states, between which it may be passed by. -/
def bypass (built : Automaton × Fragment) (entry exit : Nat) : Automaton × Fragment :=
  let (a, inner) := built
  (((a.link entry inner.entry).link entry exit).link inner.exit exit, ⟨entry, exit⟩)

mutual

/-- Adds a fragment for a pattern. -/
def build (a : Automaton) : Pattern → Automaton × Fragment
  | .literal bytes => a.buildLiteral bytes
  | .sequence [] => a.buildLiteral []
  | .sequence (p :: ps) =>
      let (a, first) := a.build p
      a.buildSequence first ps
  | .alternation ps =>
      let (a, entry) := a.addState
      let (a, exit) := a.addState
      (a.buildAlternatives ⟨entry, exit⟩ ps, ⟨entry, exit⟩)
  | .optional p =>
      let (a, entry) := a.addState
      let (a, exit) := a.addState
      bypass (a.build p) entry exit
  | .repetition p => loop (a.build p)
  | .zeroOrMore p =>
      let (a, entry) := a.addState
      let (a, exit) := a.addState
      bypass (loop (a.build p)) entry exit
  | .range set => a.buildRange set.toList

def buildSequence (a : Automaton) (front : Fragment) : List Pattern → Automaton × Fragment
  | [] => (a, front)
  | p :: ps =>
      let (a, next) := a.build p
      (a.link front.exit next.entry).buildSequence ⟨front.entry, next.exit⟩ ps

/-- Adds alternatives between the states of a fragment. -/
def buildAlternatives (a : Automaton) (outer : Fragment) : List Pattern → Automaton
  | [] => a
  | p :: ps =>
      let (a, inner) := a.build p
      ((a.link outer.entry inner.entry).link inner.exit outer.exit).buildAlternatives outer ps

end

/-- The automaton of a lone entry, to which rules are attached. -/
def root : Automaton :=
  empty.addState.1

/-- Adds a fragment for a pattern whose exit accepts a rule, and lets the entry lead to it. -/
def attach (a : Automaton) (p : Pattern) (rule : Nat) : Automaton × Fragment :=
  let (a, fragment) := a.build p
  ((a.setAccept fragment.exit (some rule)).link a.entry fragment.entry, fragment)

end Automaton

end Munch
