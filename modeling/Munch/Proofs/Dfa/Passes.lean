import Mathlib.Data.Finset.Image
import Munch.Proofs.Dfa.Marking

/-!
How many passes the marking takes.

Two states agree up to a length if they respond alike to all byte strings up to that length.  If states
that agree up to some length always agree up to the next one as well, they respond alike (`Stable`).
Up to a length that is not stable the states fall into fewer classes than up to the next one, and there
are no more classes than states, so some length below the number of states is stable (`exists_stable`).

A pass marks what the marks before it tell apart, and it may see some of its own marks too.  So after as
many passes as a length says, all pairs are marked that do not agree up to it (`contains_iterate`), and
after one pass less than there are states nothing is left to mark (`marking_passes`).
-/

set_option autoImplicit false

namespace Munch

namespace Response

variable {f g : Response} {k l : Nat}

/-- What a response says about byte strings up to a length. -/
def upTo (k : Nat) (f : Response) : Response :=
  fun w => if w.length ≤ k then f w else none

theorem upTo_eq_iff : f.upTo k = g.upTo k ↔ ∀ w : List UInt8, w.length ≤ k → f w = g w := by
  constructor
  · intro same w short
    have atW := congrFun same w
    rwa [upTo, upTo, if_pos short, if_pos short] at atW
  · intro alike
    funext w
    by_cases short : w.length ≤ k
    · rw [upTo, upTo, if_pos short, if_pos short, alike w short]
    · rw [upTo, upTo, if_neg short, if_neg short]

theorem upTo_upTo (le : k ≤ l) : (f.upTo l).upTo k = f.upTo k := by
  rw [upTo_eq_iff]
  intro w short
  exact if_pos (short.trans le)

end Response

namespace Dfa

variable {d : Dfa} {m m' : Marks} {i j k l : Nat}

/-- Two states respond alike to all byte strings up to a length. -/
def Agree (d : Dfa) (k i j : Nat) : Prop :=
  ∀ w : List UInt8, w.length ≤ k → d.responseFrom i w = d.responseFrom j w

namespace Agree

theorem symm (agree : d.Agree k i j) : d.Agree k j i :=
  fun w short => (agree w short).symm

theorem mono (agree : d.Agree k i j) (le : l ≤ k) : d.Agree l i j :=
  fun w short => agree w (short.trans le)

theorem next (agree : d.Agree (k + 1) i j) (b : UInt8) :
    (d.next i b = none ∧ d.next j b = none) ∨
      ∃ p q, d.next i b = some p ∧ d.next j b = some q ∧ d.Agree k p q := by
  have behind : ∀ w : List UInt8, w.length ≤ k →
      (d.next i b).bind (d.responseFrom · w) = (d.next j b).bind (d.responseFrom · w) := by
    intro w short
    have both := agree (b :: w) (Nat.succ_le_succ short)
    rwa [responseFrom_cons, responseFrom_cons] at both
  cases fromI : d.next i b with
  | none =>
      cases fromJ : d.next j b with
      | none => exact .inl ⟨rfl, rfl⟩
      | some q =>
          have here := behind [] (Nat.zero_le k)
          rw [fromI, fromJ] at here
          cases here
  | some p =>
      cases fromJ : d.next j b with
      | none =>
          have here := behind [] (Nat.zero_le k)
          rw [fromI, fromJ] at here
          cases here
      | some q =>
          refine .inr ⟨p, q, rfl, rfl, fun w short => ?_⟩
          have there := behind w short
          rwa [fromI, fromJ] at there

end Agree

def Stable (d : Dfa) (k : Nat) : Prop :=
  ∀ i j, i < d.size → j < d.size → d.Agree k i j → d.Agree (k + 1) i j

theorem Stable.responseFrom_eq (stable : d.Stable k) (hi : i < d.size) (hj : j < d.size)
    (agree : d.Agree k i j) : d.responseFrom i = d.responseFrom j := by
  funext w
  induction w generalizing i j with
  | nil => exact agree [] (Nat.zero_le k)
  | cons b rest ih =>
      rw [responseFrom_cons, responseFrom_cons]
      obtain ⟨fromI, fromJ⟩ | ⟨p, q, fromI, fromJ, next⟩ := (stable i j hi hj agree).next b
      · rw [fromI, fromJ]
      · rw [fromI, fromJ]
        exact ih (next_lt fromI) (next_lt fromJ) next

section Classes

open Classical in
noncomputable def classes (d : Dfa) (k : Nat) : Finset Response :=
  (Finset.range d.size).image fun i => Response.upTo k (d.responseFrom i)

theorem card_classes_le (d : Dfa) (k : Nat) : (d.classes k).card ≤ d.size := by
  classical
  exact Finset.card_image_le.trans_eq (Finset.card_range d.size)

open Classical in
theorem image_classes (d : Dfa) (k : Nat) :
    (d.classes (k + 1)).image (Response.upTo k) = d.classes k := by
  rw [classes, classes, Finset.image_image]
  exact Finset.image_congr fun i _ => Response.upTo_upTo (Nat.le_succ k)

/-- A longer length tells more states apart, unless the shorter one is stable. -/
theorem card_classes_lt (unstable : ¬ d.Stable k) : (d.classes k).card < (d.classes (k + 1)).card := by
  classical
  rw [← image_classes]
  refine Nat.lt_of_le_of_ne Finset.card_image_le fun same => unstable ?_
  intro i j hi hj agree
  have injective := Finset.card_image_iff.mp same
  have mem : ∀ {i}, i < d.size → Response.upTo (k + 1) (d.responseFrom i) ∈ d.classes (k + 1) :=
    fun below => Finset.mem_image_of_mem _ (Finset.mem_range.mpr below)
  apply Response.upTo_eq_iff.mp
  apply injective (mem hi) (mem hj)
  rw [Response.upTo_upTo (Nat.le_succ k), Response.upTo_upTo (Nat.le_succ k)]
  exact Response.upTo_eq_iff.mpr agree

theorem exists_stable (states : 0 < d.size) : ∃ k < d.size, d.Stable k := by
  by_contra none
  push Not at none
  have grown : ∀ k ≤ d.size, k + 1 ≤ (d.classes k).card := by
    intro k
    induction k with
    | zero =>
        intro _
        classical
        apply Finset.card_pos.mpr
        exact (Finset.nonempty_range_iff.mpr (Nat.ne_of_gt states)).image _
    | succ k ih =>
        intro le
        have before := ih (Nat.le_of_succ_le le)
        have more := card_classes_lt (none k le)
        omega
  have most := grown d.size (Nat.le_refl _)
  have bound := d.card_classes_le d.size
  omega

/-- States that respond differently do so to a byte string that is shorter than there are states. -/
theorem responseFrom_eq_of_agree (hi : i < d.size) (hj : j < d.size)
    (agree : d.Agree (d.size - 1) i j) : d.responseFrom i = d.responseFrom j := by
  obtain ⟨k, below, stable⟩ := exists_stable (Nat.zero_lt_of_lt hi)
  exact stable.responseFrom_eq hi hj (agree.mono (Nat.le_sub_one_of_lt below))

end Classes

section Pass

theorem statesDiffer_mono (grows : m.Grows m') (differ : d.statesDiffer m i j = true) :
    d.statesDiffer m' i j = true := by
  by_contra alike
  have edges := statesDiffer_eq_false_iff.mp (Bool.eq_false_iff.mpr alike)
  have before : d.statesDiffer m i j = false := by
    refine statesDiffer_eq_false_iff.mpr (edges.imp fun e f both => ⟨both.1, both.2.imp_right ?_⟩)
    intro unmarked
    rw [Bool.eq_false_iff] at unmarked ⊢
    exact fun marked => unmarked (grows.contains marked)
  rw [differ] at before
  cases before

theorem contains_refine (square : m.Square d.size) (less : i < j) (hj : j < d.size)
    (differ : d.statesDiffer m i j = true) : (d.refine m).contains i j = true := by
  have hi : i < d.size := Nat.lt_trans less hj
  rw [refine_eq]
  refine contains_foldl d.grows_refinePair (mem_pairsBelow.mpr ⟨less, hj⟩) fun m' grows => ?_
  rw [refinePair]
  split
  · assumption
  · rw [if_pos (statesDiffer_mono grows differ)]
    exact ((square.grows grows).contains_insert hi hj hi hj).mpr (.inr (.inl ⟨rfl, rfl⟩))

theorem refine_eq_self (settled : ∀ i j, i < j → j < d.size → d.statesDiffer m i j = true →
    m.contains i j = true) : d.refine m = m := by
  rw [refine_eq]
  refine List.foldlRecOn (motive := (· = m)) _ _ rfl fun now same p mem => ?_
  obtain ⟨less, below⟩ := mem_pairsBelow.mp mem
  rw [same, refinePair]
  split
  · rfl
  · rename_i unmarked
    exact if_neg fun differ => unmarked (settled p.1 p.2 less below differ)

theorem exists_marked_of_refine_ne (square : m.Square d.size) (changed : d.refine m ≠ m) :
    ∃ i j, i < j ∧ j < d.size ∧ m.contains i j = false ∧ (d.refine m).contains i j = true := by
  by_contra none
  push Not at none
  refine changed (refine_eq_self fun i j less hj differ => ?_)
  by_contra unmarked
  exact none i j less hj (Bool.eq_false_iff.mpr unmarked) (contains_refine square less hj differ)

theorem sound_iterate (d : Dfa) (k : Nat) : d.Sound (d.refine^[k] d.acceptMarks) := by
  induction k with
  | zero => exact d.sound_acceptMarks
  | succ k ih =>
      rw [Function.iterate_succ_apply']
      exact ih.refine

theorem Sound.contains_of_ascending (sound : d.Sound m)
    (ascending : ∀ i j, i < j → j < d.size → ¬ d.Agree k i j → m.contains i j = true)
    (hi : i < d.size) (hj : j < d.size) (apart : ¬ d.Agree k i j) : m.contains i j = true := by
  rcases Nat.lt_trichotomy i j with less | rfl | more
  · exact ascending i j less hj apart
  · exact absurd (fun _ _ => rfl) apart
  · apply sound.symmetric j i hj hi
    exact ascending j i more hi fun agree => apart agree.symm

/-- As many passes as a length says mark all pairs that do not agree up to it. -/
theorem contains_iterate (hi : i < d.size) (hj : j < d.size) (apart : ¬ d.Agree k i j) :
    (d.refine^[k] d.acceptMarks).contains i j = true := by
  induction k generalizing i j with
  | zero =>
      refine d.sound_acceptMarks.contains_of_ascending (fun i j less hj apart => ?_) hi hj apart
      refine contains_acceptMarks less hj fun same => apart fun w short => ?_
      rw [List.eq_nil_of_length_eq_zero (Nat.le_zero.mp short), responseFrom_nil, responseFrom_nil,
        same]
  | succ k ih =>
      refine (d.sound_iterate (k + 1)).contains_of_ascending (fun i j less hj apart => ?_) hi hj apart
      have hi : i < d.size := Nat.lt_trans less hj
      have square := (d.sound_iterate k).toSquare
      rw [Function.iterate_succ_apply']
      by_contra unmarked
      -- what the pass leaves unmarked was unmarked before, and so were the targets of its edges
      have grows := d.grows_refine (d.refine^[k] d.acceptMarks)
      have agree : d.Agree k i j := by
        by_contra early
        exact unmarked (grows.contains (ih hi hj early))
      have alike : d.statesDiffer (d.refine^[k] d.acceptMarks) i j = false :=
        Bool.eq_false_iff.mpr fun differ => unmarked (contains_refine square less hj differ)
      have edges : List.Forall₂ (fun e f => e.label = f.label ∧ d.Agree k e.target f.target)
          (d.graph.edges i) (d.graph.edges j) := by
        obtain ⟨lengths, each⟩ := List.forall₂_iff_zip.mp (statesDiffer_eq_false_iff.mp alike)
        refine List.forall₂_iff_zip.mpr ⟨lengths, fun {e f} mem => ?_⟩
        obtain ⟨inI, inJ⟩ := List.of_mem_zip mem
        obtain ⟨label, same | free⟩ := each mem
        · exact ⟨label, same ▸ fun _ _ => rfl⟩
        · refine ⟨label, ?_⟩
          by_contra early
          rw [ih (target_lt inI) (target_lt inJ) early] at free
          cases free
      refine apart fun w short => ?_
      cases w with
      | nil => exact agree [] (Nat.zero_le k)
      | cons b rest =>
          apply responseFrom_cons_eq_of_edges
          exact edges.imp fun e f both => ⟨both.1, both.2 rest (Nat.le_of_succ_le_succ short)⟩

theorem refine_iterate (d : Dfa) :
    d.refine (d.refine^[d.size - 1] d.acceptMarks) = d.refine^[d.size - 1] d.acceptMarks := by
  have sound := d.sound_iterate (d.size - 1)
  refine refine_eq_self fun i j less hj differ => ?_
  have hi : i < d.size := Nat.lt_trans less hj
  refine contains_iterate hi hj fun agree => ?_
  exact sound.differ_of_statesDiffer differ (responseFrom_eq_of_agree hi hj agree)

theorem settle_eq_iterate (d : Dfa) (passes : Nat) (m : Marks)
    (enough : m.cells.size < passes + m.marked.card) :
    ∃ k, d.settle passes m = (k + 1, d.refine^[k] m) ∧
      ∀ l < k, d.refine (d.refine^[l] m) ≠ d.refine^[l] m := by
  induction passes generalizing m with
  | zero =>
      have bound := m.card_marked_le
      omega
  | succ passes ih =>
      rw [settle]
      split
      · exact ⟨0, rfl, fun l less => absurd less (Nat.not_lt_zero l)⟩
      · rename_i changed
        have grows := d.grows_refine m
        have more := grows.card_lt changed
        have cells := grows.cells_eq
        obtain ⟨k, settled, before⟩ := ih (d.refine m) (by omega)
        refine ⟨k + 1, by rw [settled]; rfl, fun l less => ?_⟩
        cases l with
        | zero => exact changed
        | succ l => exact before l (Nat.lt_of_succ_lt_succ less)

end Pass

/-- The walks on some byte string tell two states apart: only one of them stops, or they come to states
with different markers. -/
def Distinguished (d : Dfa) (i j : Nat) : Prop :=
  ∃ w, (d.walk i w).isSome ≠ (d.walk j w).isSome ∨
    ∃ p q, d.walk i w = some p ∧ d.walk j w = some q ∧ d.accept p ≠ d.accept q

theorem distinguished_iff : d.Distinguished i j ↔ d.responseFrom i ≠ d.responseFrom j := by
  rw [Function.ne_iff]
  refine exists_congr fun w => ?_
  rw [responseFrom, responseFrom]
  cases d.walk i w <;> cases d.walk j w <;> simp

/-- The marking of an automaton with states takes no more passes than there are states.  Each of them
but the last marks a pair, the last changes nothing, and then the pairs that walks tell apart are
marked, and no others. -/
theorem marking_passes (d : Dfa) (states : 0 < d.size) :
    d.marking.1 ≤ d.size ∧
      (∃ before, d.marking.1 = before + 1 ∧
        d.marking.2 = d.refine^[before] d.acceptMarks ∧
        (∀ l < before, ∃ i j, i < j ∧ j < d.size ∧
          (d.refine^[l] d.acceptMarks).contains i j = false ∧
          (d.refine^[l + 1] d.acceptMarks).contains i j = true) ∧
        d.refine d.marking.2 = d.marking.2) ∧
      ∀ i j, i < d.size → j < d.size →
        (d.marking.2.contains i j = true ↔ d.Distinguished i j) := by
  have cells := d.sound_acceptMarks.cells_eq
  obtain ⟨before, settled, changed⟩ :=
    d.settle_eq_iterate (d.size * d.size + 1) d.acceptMarks (by omega)
  have count : d.marking.1 = before + 1 := congrArg Prod.fst settled
  have enough : before ≤ d.size - 1 :=
    Nat.le_of_not_lt fun less => changed _ less d.refine_iterate
  refine ⟨by omega, ⟨before, count, congrArg Prod.snd settled, fun l less => ?_, d.refine_marking⟩,
    fun i j hi hj => ?_⟩
  · rw [Function.iterate_succ_apply']
    exact exists_marked_of_refine_ne (d.sound_iterate l).toSquare (changed l less)
  · rw [contains_marking_iff hi hj, distinguished_iff]

def barrenRow : Automaton where
  states := #[⟨[⟨.byte 97, 1⟩], none⟩, ⟨[⟨.byte 97, 2⟩], none⟩, ⟨[], none⟩]
  entry := 0
  target_lt := by decide
  entry_lt := by decide

def barrenRowDfa : Dfa :=
  .freeze barrenRow (by decide)

/-- The bound is met: one pass finds that the last state stands apart, the next one that the others
do, and the third one nothing. -/
theorem marking_passes_barrenRowDfa :
    0 < barrenRowDfa.size ∧ barrenRowDfa.marking.1 = 3 ∧ barrenRowDfa.size = 3 ∧
      (barrenRowDfa.refine^[1] barrenRowDfa.acceptMarks).contains 0 1 = false ∧
      barrenRowDfa.Distinguished 0 1 := by
  have states : 0 < barrenRowDfa.size := by decide +kernel
  have size : barrenRowDfa.size = 3 := by decide +kernel
  have marked : barrenRowDfa.marking.2.contains 0 1 = true := by decide +kernel
  obtain ⟨-, -, exactly⟩ := marking_passes barrenRowDfa states
  refine ⟨states, by decide +kernel, size, by decide +kernel, ?_⟩
  exact (exactly 0 1 (by omega) (by omega)).mp marked

end Dfa

end Munch
