import Munch.Proofs.Checked.Determinize
import Munch.Proofs.Dfa.Minimal

/-!
Minimization, checked.

The table of marks has a cell for each pair of states, so no cell is missed for a pair of them, and
edges lead to states (`statesDiffer_eq`).  Every pass but the last marks a pair, hence the passes end
before they are used up (`settle_eq`).  The representative of a state is a state and represents
itself, so the edges of the merged graph lead to states of it (`minimize_eq`).
-/

set_option autoImplicit false

namespace Munch.Checked

theorem anyM_eq_pure {α : Type} {f : α → Except Panic Bool} {g : α → Bool} {xs : List α}
    (each : ∀ x ∈ xs, f x = pure (g x)) : xs.anyM f = pure (xs.any g) := by
  induction xs with
  | nil => rfl
  | cons x rest ih =>
      obtain ⟨first, later⟩ := List.forall_mem_cons.mp each
      rw [List.anyM_cons, first, pure_bind, List.any_cons]
      cases g x with
      | true => rfl
      | false => exact ih later

theorem findM?_eq_pure {α : Type} {f : α → Except Panic Bool} {g : α → Bool} {xs : List α}
    (each : ∀ x ∈ xs, f x = pure (g x)) : xs.findM? f = pure (xs.find? g) := by
  induction xs with
  | nil => rfl
  | cons x rest ih =>
      obtain ⟨first, later⟩ := List.forall_mem_cons.mp each
      rw [List.findM?, first, pure_bind, List.find?_cons]
      cases g x with
      | true => rfl
      | false => exact ih later

def marked (m : Marks) (i j : Nat) : Except Panic Bool := do
  check (i * m.size + j) m.cells.size
  return m.contains i j

def mark (m : Marks) (i j : Nat) : Except Panic Marks := do
  check (i * m.size + j) m.cells.size
  check (j * m.size + i) m.cells.size
  return m.insert i j

section Table

variable {m : Marks} {n i j : Nat}

theorem marked_eq (square : m.Square n) (hi : i < n) (hj : j < n) :
    marked m i j = pure (m.contains i j) := by
  have cell := Marks.Square.cell_lt hi hj
  rw [marked, square.size_eq, square.cells_eq, check_of_lt cell, pure_bind]

theorem mark_eq (square : m.Square n) (hi : i < n) (hj : j < n) :
    mark m i j = pure (m.insert i j) := by
  have cell := Marks.Square.cell_lt hi hj
  have mirrored := Marks.Square.cell_lt hj hi
  rw [mark, square.size_eq, square.cells_eq, check_of_lt cell, pure_bind, check_of_lt mirrored,
    pure_bind]

end Table

def acceptMarks (d : Dfa) : Except Panic Marks :=
  (pairsBelow d.size).foldlM (fun m p => do
    let s ← state d.graph p.1
    let t ← state d.graph p.2
    if s.accept = t.accept then return m else mark m p.1 p.2) (.new d.size)

def edgesDiffer (m : Marks) (e f : Edge) : Except Panic Bool := do
  if e.label ≠ f.label then return true
  if e.target = f.target then return false
  marked m e.target f.target

def statesDiffer (d : Dfa) (m : Marks) (i j : Nat) : Except Panic Bool := do
  let s ← state d.graph i
  let t ← state d.graph j
  if s.edges.length ≠ t.edges.length then return true
  (s.edges.zip t.edges).anyM fun p => edgesDiffer m p.1 p.2

def refinePair (d : Dfa) (m : Marks) (p : Nat × Nat) : Except Panic Marks := do
  if ← marked m p.1 p.2 then return m
  if ← statesDiffer d m p.1 p.2 then mark m p.1 p.2 else return m

def refine (d : Dfa) (m : Marks) : Except Panic Marks :=
  (pairsBelow d.size).foldlM (refinePair d) m

/-- Passes until one changes nothing, which has to be one of as many as given. -/
def settle (d : Dfa) : (passes : Nat) → Marks → Except Panic Marks
  | 0, _ => throw .endless
  | passes + 1, m => do
      let refined ← refine d m
      if refined = m then return m
      settle d passes refined

def marking (d : Dfa) : Except Panic Marks := do
  settle d (d.size * d.size + 1) (← acceptMarks d)

def representative (m : Marks) (i : Nat) : Except Panic Nat := do
  let found ← (List.range i).findM? fun j => do return !(← marked m j i)
  return found.getD i

/-- Looks at a state for the merged graph: it, its representative and the targets of its edges have
to be states. -/
def lookAtMerged (d : Dfa) (m : Marks) (i : Nat) : Except Panic Unit := do
  check (← representative m i) d.size
  discard (targets d.graph i)

def checkEntry (d : Dfa) : Except Panic Unit :=
  if d.isEmpty then return else check d.entry d.size

def minimize (d : Dfa) : Except Panic Dfa := do
  let m ← marking d
  forM (List.range d.size) (lookAtMerged d m)
  checkEntry d
  let nodes := (List.range d.size).filter fun i => Dfa.representative m i = i
  let graph ← ofNodes nodes (d.mergedEdges m) d.accept
  ofAutomaton graph

variable {d : Dfa} {m : Marks}

theorem foldlM_pairsBelow {step : Marks → Nat × Nat → Marks}
    {checked : Marks → Nat × Nat → Except Panic Marks} (square : m.Square d.size)
    (grows : ∀ m p, Marks.Grows m (step m p))
    (agree : ∀ m : Marks, m.Square d.size → ∀ i j, i < d.size → j < d.size →
      checked m (i, j) = pure (step m (i, j))) :
    (pairsBelow d.size).foldlM checked m = pure ((pairsBelow d.size).foldl step m) := by
  apply foldlM_eq_pure fun m : Marks => m.Square d.size
  · exact square
  · intro m square p _
    exact square.grows (grows m p)
  · intro m square p mem
    obtain ⟨less, below⟩ := mem_pairsBelow.mp mem
    exact agree m square p.1 p.2 (Nat.lt_trans less below) below

theorem acceptMarks_eq (d : Dfa) : acceptMarks d = pure d.acceptMarks := by
  apply foldlM_pairsBelow (Marks.Square.new d.size)
  · intro m p
    split
    · exact .refl m
    · exact m.grows_insert p.1 p.2
  · intro m square i j hi hj
    rw [state_eq hi, pure_bind, state_eq hj, pure_bind, mark_eq square hi hj]
    exact (apply_ite pure _ _ _).symm

theorem edgesDiffer_eq (square : m.Square d.size) {e f : Edge} (left : e.target < d.size)
    (right : f.target < d.size) : edgesDiffer m e f = pure (Dfa.edgesDiffer m e f) := by
  rw [edgesDiffer, Dfa.edgesDiffer, marked_eq square left right]
  by_cases label : e.label = f.label
  · by_cases target : e.target = f.target
    · simp [label, target]
    · simp [label, target]
  · simp [label]

theorem statesDiffer_eq (square : m.Square d.size) {i j : Nat} (hi : i < d.size) (hj : j < d.size) :
    statesDiffer d m i j = pure (d.statesDiffer m i j) := by
  have each : ((d.graph.edges i).zip (d.graph.edges j)).anyM (fun p => edgesDiffer m p.1 p.2) =
      pure (((d.graph.edges i).zip (d.graph.edges j)).any fun p => Dfa.edgesDiffer m p.1 p.2) := by
    apply anyM_eq_pure
    intro p mem
    obtain ⟨inI, inJ⟩ := List.of_mem_zip mem
    exact edgesDiffer_eq square (Dfa.target_lt inI) (Dfa.target_lt inJ)
  rw [statesDiffer, state_eq hi, pure_bind, state_eq hj, pure_bind, Dfa.statesDiffer]
  show (if (d.graph.edges i).length ≠ (d.graph.edges j).length then pure true else _) = _
  by_cases lengths : (d.graph.edges i).length = (d.graph.edges j).length
  · rw [if_neg (not_not.mpr lengths)]
    apply each.trans
    simp [lengths]
  · simp [lengths]

theorem refinePair_eq (square : m.Square d.size) {i j : Nat} (hi : i < d.size) (hj : j < d.size) :
    refinePair d m (i, j) = pure (d.refinePair m (i, j)) := by
  rw [refinePair, marked_eq square hi hj, pure_bind, statesDiffer_eq square hi hj, pure_bind,
    mark_eq square hi hj, Dfa.refinePair]
  split
  · rfl
  · exact (apply_ite pure _ _ _).symm

theorem refine_eq (square : m.Square d.size) : refine d m = pure (d.refine m) := by
  rw [Dfa.refine_eq]
  exact foldlM_pairsBelow square d.grows_refinePair fun m square i j hi hj =>
    refinePair_eq square hi hj

theorem settle_eq (passes : Nat) (square : m.Square d.size)
    (enough : m.cells.size < passes + m.marked.card) :
    settle d passes m = pure (d.settle passes m).2 := by
  -- as in the plain form, too few cells are there for every pass to mark one
  induction passes generalizing m with
  | zero =>
      have bound := m.card_marked_le
      omega
  | succ passes ih =>
      have grows := d.grows_refine m
      rw [settle, refine_eq square, pure_bind, Dfa.settle]
      split
      · rfl
      · rename_i changed
        have more := grows.card_lt changed
        have cells := grows.cells_eq
        exact ih (square.grows grows) (by omega)

theorem marking_eq (d : Dfa) : marking d = pure d.marking.2 := by
  rw [marking, acceptMarks_eq, pure_bind]
  apply settle_eq
  · exact d.sound_acceptMarks.toSquare
  · have cells := d.sound_acceptMarks.cells_eq
    omega

theorem representative_eq (square : m.Square d.size) {i : Nat} (hi : i < d.size) :
    representative m i = pure (Dfa.representative m i) := by
  rw [representative, findM?_eq_pure, pure_bind]
  · rfl
  · intro j mem
    rw [marked_eq square (Nat.lt_trans (List.mem_range.mp mem) hi) hi]
    rfl

theorem minimize_eq (d : Dfa) : minimize d = pure d.minimize := by
  have square : d.marking.2.Square d.size := d.sound_marking.toSquare
  have each : forM (List.range d.size) (lookAtMerged d d.marking.2) = pure () := by
    apply forM_eq_pure
    intro i mem
    have inside := List.mem_range.mp mem
    have earlier : Dfa.representative d.marking.2 i < d.size := Dfa.earliest_lt inside
    rw [lookAtMerged, representative_eq square inside, pure_bind, check_of_lt earlier, pure_bind,
      targets_eq inside]
    rfl
  have start : checkEntry d = pure () := by
    cases states : d.isEmpty with
    | true => exact if_pos states
    | false =>
        rw [checkEntry, states]
        exact check_of_lt (Automaton.entry_lt_size states)
  rw [minimize, marking_eq, pure_bind, each, pure_bind, start, pure_bind]
  show (ofNodes d.representatives (d.mergedEdges d.marking.2) d.accept >>= ofAutomaton) = _
  rw [ofNodes_eq fun i _ => d.mergedEdges_closed i, pure_bind]
  exact ofAutomaton_eq d.merged_isDeterministic

end Munch.Checked
