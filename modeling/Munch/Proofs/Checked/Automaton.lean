import Munch.Proofs.Automaton.Rules
import Munch.Proofs.Checked.Basic

/-!
Building and exploring automata, checked.

The number of a state is checked wherever a state is looked at or changed, and for both ends of an
edge that is added.  A fragment is bounded by states of the automaton that it is built in, so a pattern
is attached without a number out of range (`attach_eq`).  An exploration starts at the entry and
follows edges, which lead to states (`reachable_eq`).
-/

set_option autoImplicit false

namespace Munch.Checked

variable {a : Automaton}

def state (a : Automaton) (i : Nat) : Except Panic State := do
  check i a.size
  return a.state i

def targets (a : Automaton) (i : Nat) : Except Panic (List Nat) := do
  let s ← state a i
  let numbers := s.edges.map Edge.target
  checkAll numbers a.size
  return numbers

def reachable (a : Automaton) : Except Panic (List Nat) := do
  if a.isEmpty then return []
  check a.entry a.size
  exploreFrom (targets a) a.size a.entry

def compact (a : Automaton) : Except Panic Automaton := do
  let order ← reachable a
  forM order fun i => discard (targets a i)
  return .ofNodes order a.labelledTargets a.accept

def addEdge (a : Automaton) (source : Nat) (label : Label) (target : Nat) :
    Except Panic Automaton := do
  check source a.size
  check target a.size
  return a.addEdge source label target

def setAccept (a : Automaton) (i : Nat) (rule : Option Nat) : Except Panic Automaton := do
  check i a.size
  return a.setAccept i rule

@[simp]
theorem state_eq {i : Nat} (inside : i < a.size) : state a i = pure (a.state i) := by
  simp [state, inside]

theorem targets_eq {i : Nat} (inside : i < a.size) : targets a i = pure (a.targets i) := by
  have numbers : ∀ j ∈ a.targets i, j < a.size := by
    intro j mem
    obtain ⟨e, edge, rfl⟩ := List.mem_map.mp mem
    exact Automaton.edge_target_lt edge
  rw [targets, state_eq inside, pure_bind]
  show (checkAll (a.targets i) a.size >>= fun _ => pure (a.targets i)) = _
  rw [checkAll_of_lt numbers, pure_bind]

theorem reachable_eq (a : Automaton) : reachable a = pure a.reachable := by
  cases states : a.isEmpty with
  | true => simp [reachable, Automaton.reachable, states]
  | false =>
      have inside := Automaton.entry_lt_size states
      simp only [reachable, Automaton.reachable, states, check_of_lt inside, pure_bind,
        Bool.false_eq_true, if_false]
      apply exploreFrom_eq a.targets_closed _ (List.mem_range.mpr inside) (by simp)
      intro i mem
      exact targets_eq (List.mem_range.mp mem)

theorem compact_eq (a : Automaton) : compact a = pure a.compact := by
  have each : (forM a.reachable fun i => discard (targets a i)) = pure () := by
    apply forM_eq_pure
    intro i mem
    rw [targets_eq (Automaton.reachable_lt mem)]
    rfl
  rw [compact, reachable_eq, pure_bind, each, pure_bind]
  rfl

theorem addEdge_eq {source target : Nat} (sourceInside : source < a.size)
    (targetInside : target < a.size) (label : Label) :
    addEdge a source label target = pure (a.addEdge source label target) := by
  simp [addEdge, sourceInside, targetInside]

theorem setAccept_eq {i : Nat} (inside : i < a.size) (rule : Option Nat) :
    setAccept a i rule = pure (a.setAccept i rule) := by
  simp [setAccept, inside]

@[simp]
theorem size_addEdge (a : Automaton) (source : Nat) (label : Label) (target : Nat) :
    (a.addEdge source label target).size = a.size := by
  unfold Automaton.addEdge
  split
  · exact Automaton.size_setState
  · rfl

@[simp]
theorem size_setAccept (a : Automaton) (i : Nat) (rule : Option Nat) :
    (a.setAccept i rule).size = a.size :=
  Automaton.size_setState

section Build

def link (a : Automaton) (source target : Nat) : Except Panic Automaton :=
  addEdge a source .epsilon target

def buildChain (a : Automaton) (source : Nat) : List UInt8 → Except Panic (Automaton × Nat)
  | [] => return (a, source)
  | b :: rest => do
      let (a, next) := a.addState
      buildChain (← addEdge a source (.byte b) next) next rest

def buildLiteral (a : Automaton) (bytes : List UInt8) : Except Panic (Automaton × Fragment) := do
  let (a, entry) := a.addState
  let (a, exit) ← buildChain a entry bytes
  return (a, ⟨entry, exit⟩)

def buildRange (a : Automaton) (bytes : List UInt8) : Except Panic (Automaton × Fragment) := do
  let (a, entry) := a.addState
  let (a, exit) := a.addState
  let a ← bytes.foldlM (fun a b => addEdge a entry (.byte b) exit) a
  return (a, ⟨entry, exit⟩)

def loop (built : Automaton × Fragment) : Except Panic (Automaton × Fragment) := do
  let (a, inner) := built
  let a ← link a inner.exit inner.entry
  return (a, inner)

def bypass (built : Automaton × Fragment) (entry exit : Nat) :
    Except Panic (Automaton × Fragment) := do
  let (a, inner) := built
  let a ← link a entry inner.entry
  let a ← link a entry exit
  let a ← link a inner.exit exit
  return (a, ⟨entry, exit⟩)

mutual

def build (a : Automaton) : Pattern → Except Panic (Automaton × Fragment)
  | .literal bytes => buildLiteral a bytes
  | .sequence [] => buildLiteral a []
  | .sequence (p :: ps) => do
      let (a, first) ← build a p
      buildSequence a first ps
  | .alternation ps => do
      let (a, entry) := a.addState
      let (a, exit) := a.addState
      let a ← buildAlternatives a ⟨entry, exit⟩ ps
      return (a, ⟨entry, exit⟩)
  | .optional p => do
      let (a, entry) := a.addState
      let (a, exit) := a.addState
      bypass (← build a p) entry exit
  | .repetition p => do
      loop (← build a p)
  | .zeroOrMore p => do
      let (a, entry) := a.addState
      let (a, exit) := a.addState
      bypass (← loop (← build a p)) entry exit
  | .range set => buildRange a set.toList

def buildSequence (a : Automaton) (front : Fragment) :
    List Pattern → Except Panic (Automaton × Fragment)
  | [] => return (a, front)
  | p :: ps => do
      let (a, next) ← build a p
      buildSequence (← link a front.exit next.entry) ⟨front.entry, next.exit⟩ ps

def buildAlternatives (a : Automaton) (outer : Fragment) : List Pattern → Except Panic Automaton
  | [] => return a
  | p :: ps => do
      let (a, inner) ← build a p
      let a ← link a outer.entry inner.entry
      let a ← link a inner.exit outer.exit
      buildAlternatives a outer ps

end

def attach (a : Automaton) (p : Pattern) (rule : Nat) : Except Panic (Automaton × Fragment) := do
  let (a, fragment) ← build a p
  let a ← setAccept a fragment.exit (some rule)
  let a ← link a a.entry fragment.entry
  return (a, fragment)

theorem link_eq {source target : Nat} (sourceInside : source < a.size)
    (targetInside : target < a.size) : link a source target = pure (a.link source target) :=
  addEdge_eq sourceInside targetInside .epsilon

@[simp]
theorem size_link (a : Automaton) (source target : Nat) : (a.link source target).size = a.size :=
  size_addEdge a source .epsilon target

theorem buildChain_eq {source : Nat} (inside : source < a.size) (bytes : List UInt8) :
    buildChain a source bytes = pure (a.buildChain source bytes) := by
  induction bytes generalizing a source with
  | nil => rfl
  | cons b rest ih =>
      have behind : a.size < a.addState.1.size := by simp
      have before : source < a.addState.1.size := Nat.lt_trans inside behind
      show (addEdge a.addState.1 source (.byte b) a.size >>= fun g => buildChain g a.size rest) = _
      rw [addEdge_eq before behind, pure_bind]
      exact ih (by simp)

theorem buildLiteral_eq (a : Automaton) (bytes : List UInt8) :
    buildLiteral a bytes = pure (a.buildLiteral bytes) := by
  have inside : a.size < a.addState.1.size := by simp
  show (buildChain a.addState.1 a.size bytes >>= fun built =>
    pure (built.1, Fragment.mk a.size built.2)) = _
  rw [buildChain_eq inside, pure_bind]
  rfl

theorem buildRange_eq (a : Automaton) (bytes : List UInt8) :
    buildRange a bytes = pure (a.buildRange bytes) := by
  show (bytes.foldlM (fun g b => addEdge g a.size (.byte b) a.addState.1.size)
    a.addState.1.addState.1 >>= fun g => pure (g, Fragment.mk a.size a.addState.1.size)) = _
  rw [foldlM_eq_pure (fun g => g.size = a.size + 2) (by simp), pure_bind]
  · rfl
  · intro g size b _
    rw [size_addEdge, size]
  · intro g size b _
    apply addEdge_eq
    · omega
    · rw [Automaton.size_addState]
      omega

theorem loop_eq {f : Fragment} (entryLt : f.entry < a.size) (exitLt : f.exit < a.size) :
    loop (a, f) = pure (Automaton.loop (a, f)) := by
  simp [loop, Automaton.loop, link_eq exitLt entryLt]

theorem bypass_eq {b : Automaton} {f : Fragment} {L : List UInt8 → Prop}
    (inner : Automaton.Built a.addState.1.addState.1 b f L) :
    bypass (b, f) a.size a.addState.1.size =
      pure (Automaton.bypass (b, f) a.size a.addState.1.size) := by
  have exitLt : a.addState.1.size < b.size := by
    have grown := inner.size_le
    rw [Automaton.size_addState] at grown
    exact grown
  have entryLt : a.size < b.size := Nat.lt_trans (by simp) exitLt
  simp only [bypass, Automaton.bypass]
  rw [link_eq entryLt inner.entry_lt, pure_bind]
  rw [link_eq (by simpa using entryLt) (by simpa using exitLt), pure_bind]
  rw [link_eq (by simpa using inner.exit_lt) (by simpa using exitLt), pure_bind]

mutual

theorem build_eq : ∀ (p : Pattern) (a : Automaton), build a p = pure (a.build p)
  | .literal bytes, a => buildLiteral_eq a bytes
  | .sequence [], a => buildLiteral_eq a []
  | .sequence (p :: ps), a => by
      have first := Automaton.built_build p a
      show (build a p >>= fun built => buildSequence built.1 built.2 ps) = _
      rw [build_eq p a, pure_bind]
      exact buildSequence_eq ps first.exit_lt
  | .alternation ps, a => by
      have before : a.size < a.addState.1.addState.1.size := by
        rw [Automaton.size_addState, Automaton.size_addState]
        omega
      show (buildAlternatives a.addState.1.addState.1 ⟨a.size, a.addState.1.size⟩ ps >>= fun g =>
        pure (g, Fragment.mk a.size a.addState.1.size)) = _
      rw [buildAlternatives_eq ps before (by simp), pure_bind]
      rfl
  | .optional p, a => by
      show (build a.addState.1.addState.1 p >>= fun built =>
        bypass built a.size a.addState.1.size) = _
      rw [build_eq p, pure_bind]
      exact bypass_eq (Automaton.built_build p _)
  | .repetition p, a => by
      have inner := Automaton.built_build p a
      show (build a p >>= loop) = _
      rw [build_eq p a, pure_bind]
      exact loop_eq inner.entry_lt inner.exit_lt
  | .zeroOrMore p, a => by
      have inner := Automaton.built_build p a.addState.1.addState.1
      show (build a.addState.1.addState.1 p >>= fun built => loop built >>= fun built =>
        bypass built a.size a.addState.1.size) = _
      rw [build_eq p, pure_bind, loop_eq inner.entry_lt inner.exit_lt, pure_bind]
      exact bypass_eq (Automaton.built_loop inner)
  | .range set, a => buildRange_eq a set.toList

theorem buildSequence_eq : ∀ (ps : List Pattern) {a : Automaton} {front : Fragment},
    front.exit < a.size → buildSequence a front ps = pure (a.buildSequence front ps)
  | [], _, _, _ => rfl
  | p :: ps, a, front, inside => by
      have next := Automaton.built_build p a
      have exitLt := Nat.lt_of_lt_of_le inside next.size_le
      show (build a p >>= fun built => link built.1 front.exit built.2.entry >>= fun g =>
        buildSequence g ⟨front.entry, built.2.exit⟩ ps) = _
      rw [build_eq p a, pure_bind, link_eq exitLt next.entry_lt, pure_bind]
      exact buildSequence_eq ps (by simpa using next.exit_lt)

theorem buildAlternatives_eq : ∀ (ps : List Pattern) {a : Automaton} {outer : Fragment},
    outer.entry < a.size → outer.exit < a.size →
      buildAlternatives a outer ps = pure (a.buildAlternatives outer ps)
  | [], _, _, _, _ => rfl
  | p :: ps, a, outer, before, behind => by
      have inner := Automaton.built_build p a
      have entryLt := Nat.lt_of_lt_of_le before inner.size_le
      have exitLt := Nat.lt_of_lt_of_le behind inner.size_le
      show (build a p >>= fun built => link built.1 outer.entry built.2.entry >>= fun g =>
        link g built.2.exit outer.exit >>= fun g => buildAlternatives g outer ps) = _
      rw [build_eq p a, pure_bind, link_eq entryLt inner.entry_lt, pure_bind,
        link_eq (by simpa using inner.exit_lt) (by simpa using exitLt), pure_bind]
      exact buildAlternatives_eq ps (by simpa using entryLt) (by simpa using exitLt)

end

/-- Attaching a rule to the entry keeps to the states that there are. -/
theorem attach_eq (rooted : a.HasRoot) (p : Pattern) (rule : Nat) :
    attach a p rule = pure (a.attach p rule) := by
  have built := Automaton.built_build p a
  have entryLt : (a.build p).1.entry < (a.build p).1.size := by
    rw [built.entry_eq]
    exact Nat.lt_of_lt_of_le rooted.entry_lt built.size_le
  show (build a p >>= fun built => setAccept built.1 built.2.exit (some rule) >>= fun g =>
    link g g.entry built.2.entry >>= fun g => pure (g, built.2)) = _
  rw [build_eq p a, pure_bind, setAccept_eq built.exit_lt, pure_bind]
  rw [link_eq (by rwa [size_setAccept]) (by rw [size_setAccept]; exact built.entry_lt), pure_bind]
  rfl

end Build

end Munch.Checked
