import Munch.Automaton.Explore
import Munch.ByteSet.Runs
import Munch.Text.Hex

/-!
Automata as Graphviz drawings.

The drawing shows the reachable states in breadth-first order, each with one arrow for every state
that it has edges to, by ascending target.  Edges are parallel if they lead to the same state: they
are put in order by target, cut where the target changes, and merged into one arrow.  The label of an
arrow is the epsilon sign, if an edge consumes nothing, and then the runs of the bytes that the other
edges consume.
-/

set_option autoImplicit false

namespace Munch

def Edge.targetLe (e f : Edge) : Bool :=
  e.target < f.target || (e.target = f.target && e.label.rank ≤ f.label.rank)

namespace Automaton

/-- What parallel edges consume together. -/
structure Arrow where
  target : Nat
  epsilon : Bool := false
  bytes : ByteSet := ∅

namespace Arrow

def add (x : Arrow) (e : Edge) : Arrow :=
  match e.label with
  | .epsilon => { x with epsilon := true }
  | .byte b => { x with bytes := x.bytes.insert b }

def ofEdges (target : Nat) (edges : List Edge) : Arrow :=
  edges.foldl add { target }

end Arrow

/-- Puts an edge in front of parts that have a target each: in the first part if that has the target
of the edge, or else in a part of its own. -/
def consParallel (e : Edge) : List (Nat × List Edge) → List (Nat × List Edge)
  | [] => [(e.target, [e])]
  | (target, edges) :: rest =>
      if e.target = target then (target, e :: edges) :: rest
      else (e.target, [e]) :: (target, edges) :: rest

/-- Edges cut where the target changes, each part with its target. -/
def parallels (edges : List Edge) : List (Nat × List Edge) :=
  edges.foldr consParallel []

def arrows (edges : List Edge) : List Arrow :=
  (parallels (edges.mergeSort Edge.targetLe)).map fun part => .ofEdges part.1 part.2

/-- A byte in a label: graphic ASCII as it is, with the quote and the backslash escaped, and all
else in hexadecimal behind an escaped backslash. -/
def dotByte (b : UInt8) : List Char :=
  if b = 34 then ['\\', '"']
  else if b = 92 then ['\\', '\\']
  else if 0x21 ≤ b ∧ b ≤ 0x7e then [Char.ofNat b.toNat]
  else '\\' :: '\\' :: 'x' :: Text.hexByte b

def dotRun (run : UInt8 × UInt8) : List Char :=
  if run.1.toNat < run.2.toNat then dotByte run.1 ++ '-' :: dotByte run.2 else dotByte run.1

def dotLabel (x : Arrow) : List Char :=
  (if x.epsilon then ['ϵ'] else []) ++ x.bytes.runs.flatMap dotRun

def dotNode (i : Nat) : Option Nat → String
  | none => "  " ++ toString i ++ " [shape=circle]"
  | some rule =>
      "  " ++ toString i ++ " [shape=doublecircle, label=\"" ++ toString i ++ "(" ++ toString rule ++
        ")\"]"

def dotArrow (source : Nat) (x : Arrow) : String :=
  "  " ++ toString source ++ " -> " ++ toString x.target ++ " [label=\"" ++
    String.ofList (dotLabel x) ++ "\"]"

def dotState (a : Automaton) (i : Nat) : List String :=
  dotNode i (a.accept i) :: (arrows (a.edges i)).map (dotArrow i)

def dotLines (a : Automaton) : List String :=
  "digraph \x7b" :: (a.reachable.flatMap a.dotState ++ ["\x7d"])

def dot (a : Automaton) : String :=
  String.join (a.dotLines.map (· ++ "\n"))

end Automaton

end Munch
