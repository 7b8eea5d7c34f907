import Mathlib.Data.Finset.Card
import Mathlib.Data.Finset.Range
import Munch.Proofs.Dfa.Residual

/-!
The marked pairs are the pairs of states that respond differently.

A table of marks only grows, so the passes come to an end: each but the last marks a new cell
(`refine_settle`).  What is marked responds differently, since a mark is only set for markers or edges
that differ (`Sound`).  What a pass over all pairs leaves without a mark is related by a relation that
keeps markers and edges, so it responds alike (`contains_marking_iff`).
-/

set_option autoImplicit false

namespace Munch

theorem mem_pairsBelow {n i j : Nat} : (i, j) ∈ pairsBelow n ↔ i < j ∧ j < n := by
  simp only [pairsBelow, List.mem_flatMap, List.mem_range, List.mem_map, List.mem_range',
    Prod.mk.injEq, Nat.one_mul]
  constructor
  · rintro ⟨k, below, l, ⟨m, less, rfl⟩, rfl, rfl⟩
    omega
  · rintro ⟨first, second⟩
    exact ⟨i, by omega, j, ⟨j - (i + 1), by omega, by omega⟩, rfl, rfl⟩

namespace Marks

variable {m m' : Marks} {i j k l n : Nat}

def marked (m : Marks) : Finset Nat :=
  {k ∈ Finset.range m.cells.size | m.cells[k]? = some true}

theorem mem_marked : k ∈ m.marked ↔ m.cells[k]? = some true := by
  rw [marked, Finset.mem_filter, Finset.mem_range]
  refine ⟨And.right, fun found => ⟨?_, found⟩⟩
  exact (Array.getElem?_eq_some_iff.mp found).1

theorem card_marked_le (m : Marks) : m.marked.card ≤ m.cells.size := by
  have bound := Finset.card_filter_le (Finset.range m.cells.size) fun k => m.cells[k]? = some true
  rwa [Finset.card_range] at bound

structure Grows (m m' : Marks) : Prop where
  size_eq : m'.size = m.size
  cells_eq : m'.cells.size = m.cells.size
  kept : m.marked ⊆ m'.marked

namespace Grows

variable {m'' : Marks}

theorem refl (m : Marks) : Grows m m :=
  ⟨rfl, rfl, Finset.Subset.refl _⟩

theorem trans (first : Grows m m') (second : Grows m' m'') : Grows m m'' :=
  ⟨second.size_eq.trans first.size_eq, second.cells_eq.trans first.cells_eq,
    first.kept.trans second.kept⟩

theorem eq_of_subset (grows : Grows m m') (back : m'.marked ⊆ m.marked) : m' = m := by
  have cells : m'.cells = m.cells := by
    refine Array.ext grows.cells_eq fun k inNew inOld => ?_
    have same : m'.cells[k]? = some true ↔ m.cells[k]? = some true := by
      rw [← mem_marked, ← mem_marked]
      exact ⟨fun mem => back mem, fun mem => grows.kept mem⟩
    rw [Array.getElem?_eq_getElem inNew, Array.getElem?_eq_getElem inOld, Option.some.injEq,
      Option.some.injEq] at same
    exact Bool.eq_iff_iff.mpr same
  obtain ⟨size, table⟩ := m
  obtain ⟨size', table'⟩ := m'
  have sizes := grows.size_eq
  simp only at sizes cells
  rw [sizes, cells]

theorem antisymm (there : Grows m m') (back : Grows m' m) : m' = m :=
  there.eq_of_subset back.kept

theorem card_lt (grows : Grows m m') (changed : m' ≠ m) : m.marked.card < m'.marked.card := by
  refine Finset.card_lt_card (Finset.ssubset_iff_subset_ne.mpr ⟨grows.kept, fun same => ?_⟩)
  exact changed (grows.eq_of_subset (subset_of_eq same.symm))

theorem contains (grows : Grows m m') (marked : m.contains i j = true) :
    m'.contains i j = true := by
  have found : m.cells[i * m.size + j]? = some true := by
    rw [Marks.contains] at marked
    cases cell : m.cells[i * m.size + j]? with
    | none => simp [cell] at marked
    | some value => simpa [cell] using marked
  rw [Marks.contains, grows.size_eq, mem_marked.mp (grows.kept (mem_marked.mpr found))]
  rfl

end Grows

theorem grows_insert (m : Marks) (i j : Nat) : Grows m (m.insert i j) := by
  refine ⟨rfl, by simp [insert], fun k mem => ?_⟩
  have found := mem_marked.mp mem
  obtain ⟨inside, -⟩ := Array.getElem?_eq_some_iff.mp found
  rw [mem_marked, insert]
  simp only [Array.getElem?_setIfInBounds, Array.size_setIfInBounds]
  split
  · rw [if_pos (by omega)]
  · split
    · rw [if_pos (by omega)]
    · exact found

structure Square (m : Marks) (n : Nat) : Prop where
  size_eq : m.size = n
  cells_eq : m.cells.size = n * n

namespace Square

theorem grows (square : m.Square n) (grows : Grows m m') : m'.Square n :=
  ⟨grows.size_eq.trans square.size_eq, grows.cells_eq.trans square.cells_eq⟩

theorem cell_lt (hi : i < n) (hj : j < n) : i * n + j < n * n := by
  have row : (i + 1) * n ≤ n * n := Nat.mul_le_mul_right n hi
  rw [Nat.succ_mul] at row
  omega

theorem cell_eq_iff (hj : j < n) (hl : l < n) : i * n + j = k * n + l ↔ i = k ∧ j = l := by
  constructor
  · intro same
    have quotient : (i * n + j) / n = (k * n + l) / n := congrArg (· / n) same
    have positive : 0 < n := Nat.zero_lt_of_lt hj
    rw [Nat.mul_comm i, Nat.mul_comm k, Nat.mul_add_div positive, Nat.mul_add_div positive,
      Nat.div_eq_of_lt hj, Nat.div_eq_of_lt hl] at quotient
    have first : i = k := quotient
    subst first
    exact ⟨rfl, by omega⟩
  · rintro ⟨rfl, rfl⟩
    rfl

theorem contains_insert (square : m.Square n) (hi : i < n) (hj : j < n) (hk : k < n) (hl : l < n) :
    (m.insert i j).contains k l = true ↔
      m.contains k l = true ∨ (k = i ∧ l = j) ∨ (k = j ∧ l = i) := by
  have cells := square.cells_eq
  have target := cell_lt hk hl
  unfold contains insert
  simp only [square.size_eq, Array.getElem?_setIfInBounds, Array.size_setIfInBounds,
    cell_eq_iff hi hl, cell_eq_iff hj hl]
  by_cases swapped : j = k ∧ i = l
  · obtain ⟨rfl, rfl⟩ := swapped
    simp [cells, target]
  · rw [if_neg swapped]
    by_cases direct : i = k ∧ j = l
    · obtain ⟨rfl, rfl⟩ := direct
      simp [cells, target]
    · rw [if_neg direct]
      have notDirect : ¬ (k = i ∧ l = j) := fun both => direct ⟨both.1.symm, both.2.symm⟩
      have notSwapped : ¬ (k = j ∧ l = i) := fun both => swapped ⟨both.1.symm, both.2.symm⟩
      simp [notDirect, notSwapped]

theorem new (n : Nat) : (Marks.new n).Square n :=
  ⟨rfl, Array.size_replicate⟩

end Square

theorem contains_new (n i j : Nat) : (Marks.new n).contains i j = false := by
  rw [contains, Marks.new, Array.getElem?_replicate]
  split <;> rfl

end Marks

namespace Dfa

variable {d : Dfa} {m : Marks} {i j : Nat}

/-- A square table in which a pair is marked in both orders or in none, and only if its states
respond differently. -/
structure Sound (d : Dfa) (m : Marks) : Prop extends m.Square d.size where
  symmetric : ∀ i j, i < d.size → j < d.size → m.contains i j = true → m.contains j i = true
  differ : ∀ i j, i < d.size → j < d.size → m.contains i j = true →
    d.responseFrom i ≠ d.responseFrom j

theorem Sound.new (d : Dfa) : d.Sound (.new d.size) := by
  refine ⟨Marks.Square.new d.size, fun i j _ _ marked => ?_, fun i j _ _ marked => ?_⟩
  all_goals
    rw [Marks.contains_new] at marked
    cases marked

theorem Sound.insert (sound : d.Sound m) (hi : i < d.size) (hj : j < d.size)
    (differ : d.responseFrom i ≠ d.responseFrom j) : d.Sound (m.insert i j) := by
  refine ⟨sound.grows (m.grows_insert i j), fun k l hk hl marked => ?_, fun k l hk hl marked => ?_⟩
  · rw [sound.contains_insert hi hj hl hk]
    rcases (sound.contains_insert hi hj hk hl).mp marked with old | ⟨rfl, rfl⟩ | ⟨rfl, rfl⟩
    · exact .inl (sound.symmetric k l hk hl old)
    · exact .inr (.inr ⟨rfl, rfl⟩)
    · exact .inr (.inl ⟨rfl, rfl⟩)
  · rcases (sound.contains_insert hi hj hk hl).mp marked with old | ⟨rfl, rfl⟩ | ⟨rfl, rfl⟩
    · exact sound.differ k l hk hl old
    · exact differ
    · exact differ.symm

/-- A fold over pairs of states keeps soundness if every step does. -/
theorem Sound.foldl {step : Marks → Nat × Nat → Marks}
    (keeps : ∀ m i j, i < d.size → j < d.size → d.Sound m → d.Sound (step m (i, j)))
    (sound : d.Sound m) : d.Sound ((pairsBelow d.size).foldl step m) := by
  refine List.foldlRecOn (motive := d.Sound) _ _ sound fun m sound p mem => ?_
  obtain ⟨less, below⟩ := mem_pairsBelow.mp mem
  exact keeps m p.1 p.2 (by omega) below sound

theorem sound_acceptMarks (d : Dfa) : d.Sound d.acceptMarks := by
  refine Sound.foldl (fun m i j hi hj sound => ?_) (.new d)
  split
  · exact sound
  · rename_i other
    refine sound.insert hi hj fun same => other ?_
    exact congrArg Response.marker same

theorem edgesDiffer_eq_false_iff {e f : Edge} :
    edgesDiffer m e f = false ↔
      e.label = f.label ∧ (e.target = f.target ∨ m.contains e.target f.target = false) := by
  simp only [edgesDiffer, Bool.or_eq_false_iff, Bool.and_eq_false_iff, decide_eq_false_iff_not,
    ne_eq, not_not]

theorem statesDiffer_eq_false_iff :
    d.statesDiffer m i j = false ↔
      List.Forall₂ (fun e f => e.label = f.label ∧
          (e.target = f.target ∨ m.contains e.target f.target = false))
        (d.graph.edges i) (d.graph.edges j) := by
  rw [List.forall₂_iff_zip, statesDiffer, Bool.or_eq_false_iff, List.any_eq_false,
    decide_eq_false_iff_not, ne_eq, not_not]
  refine and_congr_right fun _ => ?_
  constructor
  · intro none e f mem
    exact edgesDiffer_eq_false_iff.mp (Bool.eq_false_iff.mpr (none (e, f) mem))
  · intro each p mem
    exact Bool.eq_false_iff.mp (edgesDiffer_eq_false_iff.mpr (each mem))

theorem target_lt {e : Edge} (mem : e ∈ d.graph.edges i) : e.target < d.size :=
  Automaton.edge_target_lt mem

theorem Sound.differ_of_statesDiffer (sound : d.Sound m) (found : d.statesDiffer m i j = true) :
    d.responseFrom i ≠ d.responseFrom j := by
  intro same
  refine Bool.eq_false_iff.mp (statesDiffer_eq_false_iff.mpr ?_) found
  refine List.forall₂_iff_zip.mpr ?_
  obtain ⟨lengths, each⟩ := List.forall₂_iff_zip.mp (forall₂_edges_of_responseFrom_eq same)
  refine ⟨lengths, fun {e f} mem => ?_⟩
  obtain ⟨inI, inJ⟩ := List.of_mem_zip mem
  obtain ⟨label, alike⟩ := each mem
  refine ⟨label, .inr (Bool.eq_false_iff.mpr fun marked => ?_)⟩
  exact sound.differ _ _ (target_lt inI) (target_lt inJ) marked alike

theorem Sound.refine (sound : d.Sound m) : d.Sound (d.refine m) := by
  rw [refine_eq]
  refine Sound.foldl (fun m i j hi hj sound => ?_) sound
  rw [refinePair]
  split
  · exact sound
  · split
    · rename_i differ
      exact sound.insert hi hj (sound.differ_of_statesDiffer differ)
    · exact sound

theorem Sound.settle (sound : d.Sound m) (passes : Nat) : d.Sound (d.settle passes m).2 := by
  induction passes generalizing m with
  | zero => exact sound
  | succ passes ih =>
      rw [Dfa.settle]
      split
      · exact sound
      · exact ih sound.refine

theorem sound_marking (d : Dfa) : d.Sound d.marking.2 :=
  d.sound_acceptMarks.settle _

theorem grows_refinePair (d : Dfa) (m : Marks) (p : Nat × Nat) : m.Grows (d.refinePair m p) := by
  rw [refinePair]
  split
  · exact .refl m
  · split
    · exact m.grows_insert p.1 p.2
    · exact .refl m

theorem grows_foldl {step : Marks → Nat × Nat → Marks} (grows : ∀ m p, Marks.Grows m (step m p))
    (pairs : List (Nat × Nat)) (m : Marks) : m.Grows (pairs.foldl step m) := by
  refine List.foldlRecOn (motive := m.Grows) _ _ (.refl m) fun n before p _ => ?_
  exact before.trans (grows n p)

theorem grows_refine (d : Dfa) (m : Marks) : m.Grows (d.refine m) := by
  rw [refine_eq]
  exact grows_foldl d.grows_refinePair _ m

theorem grows_settle (d : Dfa) (passes : Nat) (m : Marks) : m.Grows (d.settle passes m).2 := by
  induction passes generalizing m with
  | zero => exact .refl m
  | succ passes ih =>
      rw [settle]
      split
      · exact .refl m
      · exact (d.grows_refine m).trans (ih _)

theorem refine_settle (d : Dfa) (passes : Nat) (m : Marks)
    (enough : m.cells.size < passes + m.marked.card) :
    d.refine (d.settle passes m).2 = (d.settle passes m).2 := by
  -- a pass that changes something marks a cell, and there are too few cells for all passes to do so
  induction passes generalizing m with
  | zero =>
      have bound := m.card_marked_le
      omega
  | succ passes ih =>
      rw [settle]
      split
      · assumption
      · rename_i changed
        have grows := d.grows_refine m
        have more := grows.card_lt changed
        have cells := grows.cells_eq
        exact ih (d.refine m) (by omega)

/-- A fold that changes nothing in the end changes nothing on the way. -/
theorem step_eq_of_foldl_eq {step : Marks → Nat × Nat → Marks}
    (grows : ∀ m p, Marks.Grows m (step m p)) {pairs : List (Nat × Nat)} (same : pairs.foldl step m = m) :
    ∀ p ∈ pairs, step m p = m := by
  induction pairs with
  | nil => simp
  | cons p rest ih =>
      rw [List.foldl_cons] at same
      have first : step m p = m := by
        refine (grows m p).antisymm ?_
        have later := grows_foldl grows rest (step m p)
        rwa [same] at later
      rw [first] at same
      exact List.forall_mem_cons.mpr ⟨first, ih same⟩

theorem refine_marking (d : Dfa) : d.refine d.marking.2 = d.marking.2 := by
  refine d.refine_settle _ _ ?_
  have cells := d.sound_acceptMarks.cells_eq
  omega

theorem refinePair_marking (less : i < j) (hj : j < d.size) :
    d.refinePair d.marking.2 (i, j) = d.marking.2 := by
  have same := d.refine_marking
  rw [refine_eq] at same
  exact step_eq_of_foldl_eq d.grows_refinePair same (i, j) (mem_pairsBelow.mpr ⟨less, hj⟩)

theorem statesDiffer_eq_false_of_unmarked (less : i < j) (hj : j < d.size)
    (unmarked : d.marking.2.contains i j = false) : d.statesDiffer d.marking.2 i j = false := by
  have hi : i < d.size := Nat.lt_trans less hj
  refine Bool.eq_false_iff.mpr fun differ => ?_
  have same := refinePair_marking less hj
  rw [refinePair, unmarked, if_neg Bool.false_ne_true, if_pos differ] at same
  have marked := (d.sound_marking.contains_insert hi hj hi hj).mpr (.inr (.inl ⟨rfl, rfl⟩))
  rw [same, unmarked] at marked
  cases marked

theorem contains_foldl {step : Marks → Nat × Nat → Marks}
    (grows : ∀ m p, Marks.Grows m (step m p)) {pairs : List (Nat × Nat)}
    (listed : (i, j) ∈ pairs)
    (marks : ∀ m', m.Grows m' → (step m' (i, j)).contains i j = true) :
    (pairs.foldl step m).contains i j = true := by
  obtain ⟨before, after, rfl⟩ := List.append_of_mem listed
  rw [List.foldl_append, List.foldl_cons]
  exact (grows_foldl grows after _).contains (marks _ (grows_foldl grows before m))

theorem contains_acceptMarks (less : i < j) (hj : j < d.size) (differ : d.accept i ≠ d.accept j) :
    d.acceptMarks.contains i j = true := by
  have hi : i < d.size := Nat.lt_trans less hj
  refine contains_foldl (fun m p => ?_) (mem_pairsBelow.mpr ⟨less, hj⟩) fun m grows => ?_
  · split
    · exact .refl m
    · exact m.grows_insert p.1 p.2
  · have square := (Marks.Square.new d.size).grows grows
    rw [if_neg differ]
    exact (square.contains_insert hi hj hi hj).mpr (.inr (.inl ⟨rfl, rfl⟩))

/-- States between which the marking made no difference. -/
structure Merged (d : Dfa) (i j : Nat) : Prop where
  left : i < d.size
  right : j < d.size
  unmarked : i = j ∨ d.marking.2.contains i j = false

namespace Merged

theorem symm (merged : d.Merged i j) : d.Merged j i := by
  refine ⟨merged.right, merged.left, merged.unmarked.imp Eq.symm fun unmarked => ?_⟩
  refine Bool.eq_false_iff.mpr fun marked => ?_
  have back := d.sound_marking.symmetric j i merged.right merged.left marked
  rw [unmarked] at back
  cases back

theorem accept_eq (merged : d.Merged i j) : d.accept i = d.accept j := by
  -- passes look at pairs in ascending order only; the others are turned round
  have ordered : ∀ {i j}, i < j → d.Merged i j → d.accept i = d.accept j := by
    intro i j less merged
    by_contra differ
    have marked : d.marking.2.contains i j = true :=
      (d.grows_settle _ _).contains (contains_acceptMarks less merged.right differ)
    rcases merged.unmarked with rfl | unmarked
    · exact Nat.lt_irrefl i less
    · rw [unmarked] at marked
      cases marked
  rcases Nat.lt_trichotomy i j with less | rfl | more
  · exact ordered less merged
  · rfl
  · exact (ordered more merged.symm).symm

theorem edges (merged : d.Merged i j) :
    List.Forall₂ (fun e f => e.label = f.label ∧ d.Merged e.target f.target)
      (d.graph.edges i) (d.graph.edges j) := by
  have ordered : ∀ {i j}, i < j → d.Merged i j →
      List.Forall₂ (fun e f => e.label = f.label ∧ d.Merged e.target f.target)
        (d.graph.edges i) (d.graph.edges j) := by
    intro i j less merged
    have unmarked := merged.unmarked.resolve_left (Nat.ne_of_lt less)
    have agree := statesDiffer_eq_false_iff.mp
      (statesDiffer_eq_false_of_unmarked less merged.right unmarked)
    obtain ⟨lengths, each⟩ := List.forall₂_iff_zip.mp agree
    refine List.forall₂_iff_zip.mpr ⟨lengths, fun {e f} mem => ?_⟩
    obtain ⟨inI, inJ⟩ := List.of_mem_zip mem
    exact ⟨(each mem).1, target_lt inI, target_lt inJ, (each mem).2⟩
  rcases Nat.lt_trichotomy i j with less | rfl | more
  · exact ordered less merged
  · exact List.forall₂_same.mpr fun e mem => ⟨rfl, target_lt mem, target_lt mem, .inl rfl⟩
  · refine (ordered more merged.symm).flip.imp fun e f both => ?_
    exact ⟨both.1.symm, both.2.symm⟩

theorem responseFrom_eq (merged : d.Merged i j) : d.responseFrom i = d.responseFrom j :=
  responseFrom_eq_of_related (fun _ _ => accept_eq) (fun _ _ => edges) merged

end Merged

/-- The marking finds the pairs of states that respond differently, all of them and no other. -/
theorem contains_marking_iff (hi : i < d.size) (hj : j < d.size) :
    d.marking.2.contains i j = true ↔ d.responseFrom i ≠ d.responseFrom j := by
  refine ⟨d.sound_marking.differ i j hi hj, fun differ => ?_⟩
  by_contra unmarked
  have merged : d.Merged i j := ⟨hi, hj, .inr (Bool.eq_false_iff.mpr unmarked)⟩
  exact differ merged.responseFrom_eq

end Dfa

end Munch
