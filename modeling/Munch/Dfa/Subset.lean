import Munch.Automaton.Deterministic
import Munch.Automaton.StateSet
import Munch.ByteSet.Basic
import Munch.Dfa.Basic

/-!
The deterministic automaton of the sets of states that byte strings lead to.

A state of it stands for a set of states of the given automaton; the start is the entry alone, and a
byte leads from a set to all states that it leads to from any member, if there are any.  A set
accepts the lowest rule that a member accepts.  Only sets that are reached are built, each once.
-/

set_option autoImplicit false

namespace Munch

namespace Automaton

def addMove (row : Vector StateSet 256) (e : Edge) : Vector StateSet 256 :=
  match e.label with
  | .epsilon => row
  | .byte b =>
      row.set b.toNat ((row.get ⟨b.toNat, b.toNat_lt⟩).union (.singleton e.target)) b.toNat_lt

def moveRow (edges : List Edge) : Vector StateSet 256 :=
  edges.foldl addMove (Vector.replicate 256 .empty)

/-- What each byte leads to from each state, by state and byte. -/
abbrev MoveTable := Array (Vector StateSet 256)

def moveTable (a : Automaton) : MoveTable :=
  a.states.map fun s => moveRow s.edges

def lookUp (table : MoveTable) (i : Nat) (b : UInt8) : StateSet :=
  match table[i]? with
  | none => .empty
  | some row => row.get ⟨b.toNat, b.toNat_lt⟩

/-- The states that a byte leads to from any of the members. -/
def movesFrom (table : MoveTable) (members : List Nat) (b : UInt8) : StateSet :=
  members.foldl (fun s i => s.union (lookUp table i b)) .empty

def subsetEdge (table : MoveTable) (members : List Nat) (b : UInt8) :
    Option (Label × StateSet) :=
  let target := movesFrom table members b
  if target.isEmpty then none else some (.byte b, target)

def subsetEdges (table : MoveTable) (s : StateSet) : List (Label × StateSet) :=
  ByteSet.allBytes.filterMap (subsetEdge table (s.membersBelow table.size))

/-- The sets of states that byte strings lead to from the entry, in breadth-first order. -/
def subsets (a : Automaton) (table : MoveTable) : List StateSet :=
  if a.isEmpty then []
  else exploreFrom (fun s => (subsetEdges table s).map Prod.snd) (Nat.pow 2 a.size)
    (.singleton a.entry)

def subsetAccept (a : Automaton) (s : StateSet) : Option Nat :=
  (s.membersBelow a.size).foldl (fun rule i => minAccept rule (a.accept i)) none

def subsetGraph (a : Automaton) : Automaton :=
  let table := a.moveTable
  ofNodes (a.subsets table) (subsetEdges table) a.subsetAccept

theorem subsetEdges_labels_sublist (table : MoveTable) (s : StateSet) :
    ((subsetEdges table s).map Prod.fst).Sublist (ByteSet.allBytes.map Label.byte) := by
  rw [subsetEdges]
  induction ByteSet.allBytes with
  | nil => simp
  | cons b rest ih =>
      rw [List.filterMap_cons, List.map_cons]
      cases edge : subsetEdge table (s.membersBelow table.size) b with
      | none => exact ih.cons _
      | some e =>
          have label : e.1 = .byte b := by
            simp only [subsetEdge] at edge
            split at edge <;> cases edge
            rfl
          rw [List.map_cons, label]
          exact ih.cons_cons _

theorem subsetEdges_unambiguous (table : MoveTable) (s : StateSet) :
    Label.Unambiguous ((subsetEdges table s).map Prod.fst) := by
  refine Label.Unambiguous.sublist (subsetEdges_labels_sublist table s) ⟨by simp, ?_⟩
  exact List.pairwise_map.mpr
    (ByteSet.allBytes_nodup.imp fun ne eq => ne (Label.byte.inj eq))

theorem subsetGraph_isDeterministic (a : Automaton) : a.subsetGraph.isDeterministic = true :=
  Unambiguous.isDeterministic (ofNodes_unambiguous fun s _ => subsetEdges_unambiguous _ s)

/-- The deterministic automaton that takes each byte string to the lowest of the rules to which the
given automaton takes it by edges that consume bytes. -/
def subsetDfa (a : Automaton) : Dfa :=
  .freeze a.subsetGraph a.subsetGraph_isDeterministic

def determinize (a : Automaton) : Except Fault Dfa :=
  if a.hasEpsilon then .error .epsilonEdge else .ok a.subsetDfa

end Automaton

end Munch
