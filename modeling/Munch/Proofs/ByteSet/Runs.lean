import Munch.ByteSet.Runs
import Munch.Proofs.ByteSet.Construction

/-!
The runs of a byte set as its canonical form.

Lists of runs that are `Separated` and ascending lists of bytes are two forms of the same thing.
`bytesOf` writes the bytes of the runs out, and `consRun`, byte by byte from the last one, collects
them again (`foldr_consRun`, `Separated.foldr_bytesOf`).  So a set has one list of separated runs
that holds its members, and this list is `runs` (`runs_spec`).
-/

set_option autoImplicit false

namespace Munch.ByteSet

variable {s : ByteSet} {b c lo hi : UInt8} {bytes : List UInt8} {run : UInt8 × UInt8}
  {runs rest : List (UInt8 × UInt8)}

def InRun (b : UInt8) (run : UInt8 × UInt8) : Prop :=
  run.1.toNat ≤ b.toNat ∧ b.toNat ≤ run.2.toNat

section Interval

theorem interval_ascending (lo hi : UInt8) : (interval lo hi).Pairwise (· < ·) :=
  allBytes_lt.filter _

theorem mem_interval : b ∈ interval lo hi ↔ InRun b (lo, hi) := by
  simp [interval, mem_allBytes, InRun, UInt8.le_iff_toNat_le]

theorem interval_self (b : UInt8) : interval b b = [b] := by
  refine (interval_ascending b b).eq_of_mem_iff (List.pairwise_singleton _ b) fun c => ?_
  simp only [mem_interval, InRun, List.mem_singleton, ← UInt8.toNat_inj]
  omega

theorem interval_cons (next : b.toNat + 1 = lo.toNat) (proper : lo.toNat ≤ hi.toNat) :
    interval b hi = b :: interval lo hi := by
  refine (interval_ascending b hi).eq_of_mem_iff ?_ fun c => ?_
  · refine List.pairwise_cons.mpr ⟨fun c mem => ?_, interval_ascending lo hi⟩
    have above : lo.toNat ≤ c.toNat := (mem_interval.mp mem).1
    exact UInt8.lt_iff_toNat_lt.mpr (by omega)
  · simp only [List.mem_cons, mem_interval, InRun, ← UInt8.toNat_inj]
    omega

/-- Induction along an interval, from its upper bound down. -/
theorem interval_induction {motive : UInt8 → Prop} (last : motive hi)
    (before : ∀ b lo : UInt8, b.toNat + 1 = lo.toNat → lo.toNat ≤ hi.toNat → motive lo → motive b)
    (proper : lo.toNat ≤ hi.toNat) : motive lo := by
  obtain ⟨n, distance⟩ := Nat.exists_eq_add_of_le proper
  induction n generalizing lo with
  | zero =>
      have same : lo = hi := UInt8.toNat_inj.mp distance.symm
      exact same ▸ last
  | succ n ih =>
      have bound := hi.toNat_lt
      have next : lo.toNat + 1 = (UInt8.ofNat (lo.toNat + 1)).toNat := by
        rw [UInt8.toNat_ofNat']
        omega
      exact before lo _ next (by omega) (ih (by omega) (by omega))

theorem length_interval (proper : lo.toNat ≤ hi.toNat) :
    (interval lo hi).length = hi.toNat - lo.toNat + 1 := by
  refine interval_induction (motive := fun lo => (interval lo hi).length = hi.toNat - lo.toNat + 1)
    ?_ (fun b lo next proper ih => ?_) proper
  · simp [interval_self]
  · rw [interval_cons next proper, List.length_cons, ih]
    omega

theorem foldr_consRun_interval (gap : ∀ next ∈ rest.head?, hi.toNat + 1 ≠ next.1.toNat)
    (proper : lo.toNat ≤ hi.toNat) :
    (interval lo hi).foldr consRun rest = (lo, hi) :: rest := by
  refine interval_induction
    (motive := fun lo => (interval lo hi).foldr consRun rest = (lo, hi) :: rest)
    ?_ (fun b lo next proper ih => ?_) proper
  · cases rest with
    | nil => simp [interval_self, consRun]
    | cons next rest => simp [interval_self, consRun, gap next rfl]
  · rw [interval_cons next proper, List.foldr_cons, ih, consRun, if_pos next]

end Interval

/-- Runs in ascending order, with a byte between each and the next that is in neither. -/
structure Separated (runs : List (UInt8 × UInt8)) : Prop where
  proper : ∀ run ∈ runs, run.1.toNat ≤ run.2.toNat
  apart : runs.IsChain fun run next => run.2.toNat + 2 ≤ next.1.toNat

instance (runs : List (UInt8 × UInt8)) : Decidable (Separated runs) :=
  have := List.decidableBAll (fun run : UInt8 × UInt8 => run.1.toNat ≤ run.2.toNat) runs
  decidable_of_iff
    ((∀ run ∈ runs, run.1.toNat ≤ run.2.toNat) ∧
      runs.IsChain fun run next => run.2.toNat + 2 ≤ next.1.toNat)
    ⟨fun ⟨proper, apart⟩ => ⟨proper, apart⟩, fun ⟨proper, apart⟩ => ⟨proper, apart⟩⟩

theorem separated_nil : Separated [] := by
  decide

theorem separated_cons :
    Separated (run :: rest) ↔
      run.1.toNat ≤ run.2.toNat ∧ (∀ next ∈ rest.head?, run.2.toNat + 2 ≤ next.1.toNat) ∧
        Separated rest := by
  constructor
  · intro ⟨proper, apart⟩
    obtain ⟨gap, apart⟩ := List.isChain_cons.mp apart
    obtain ⟨proper, later⟩ := List.forall_mem_cons.mp proper
    exact ⟨proper, gap, later, apart⟩
  · intro ⟨proper, gap, separated⟩
    exact ⟨List.forall_mem_cons.mpr ⟨proper, separated.proper⟩,
      List.isChain_cons.mpr ⟨gap, separated.apart⟩⟩

def bytesOf (runs : List (UInt8 × UInt8)) : List UInt8 :=
  runs.flatMap fun run => interval run.1 run.2

theorem bytesOf_cons : bytesOf (run :: rest) = interval run.1 run.2 ++ bytesOf rest :=
  List.flatMap_cons

theorem mem_bytesOf : b ∈ bytesOf runs ↔ ∃ run ∈ runs, InRun b run := by
  simp [bytesOf, mem_interval]

section Collect

theorem separated_consRun (below : ∀ run ∈ runs, b.toNat < run.1.toNat)
    (separated : Separated runs) : Separated (consRun b runs) := by
  cases runs with
  | nil => simp [consRun, separated_cons, separated_nil]
  | cons run rest =>
      obtain ⟨lo, hi⟩ := run
      obtain ⟨proper, gap, later⟩ := separated_cons.mp separated
      have lower : b.toNat < lo.toNat := below (lo, hi) List.mem_cons_self
      rw [consRun]
      split
      · have proper' : b.toNat ≤ hi.toNat := Nat.le_trans (Nat.le_of_lt lower) proper
        exact separated_cons.mpr ⟨proper', gap, later⟩
      · refine separated_cons.mpr ⟨Nat.le_refl _, ?_, separated⟩
        simp
        omega

theorem bytesOf_consRun (separated : Separated runs) :
    bytesOf (consRun b runs) = b :: bytesOf runs := by
  cases runs with
  | nil => simp [consRun, bytesOf, interval_self]
  | cons run rest =>
      obtain ⟨lo, hi⟩ := run
      rw [consRun]
      split
      · rename_i next
        rw [bytesOf_cons, bytesOf_cons, interval_cons next (separated_cons.mp separated).1]
        rfl
      · rw [bytesOf_cons, interval_self]
        rfl

/-- The runs that ascending bytes are collected into are separated and hold these bytes. -/
theorem foldr_consRun (ascending : bytes.Pairwise (· < ·)) :
    Separated (bytes.foldr consRun []) ∧ bytesOf (bytes.foldr consRun []) = bytes := by
  induction bytes with
  | nil => exact ⟨separated_nil, rfl⟩
  | cons b rest ih =>
      obtain ⟨first, later⟩ := List.pairwise_cons.mp ascending
      obtain ⟨separated, written⟩ := ih later
      -- The lower bound of a run is one of the bytes behind `b`.
      have below : ∀ run ∈ rest.foldr consRun [], b.toNat < run.1.toNat := by
        intro run mem
        have listed : run.1 ∈ bytesOf (rest.foldr consRun []) :=
          mem_bytesOf.mpr ⟨run, mem, Nat.le_refl _, separated.proper run mem⟩
        rw [written] at listed
        exact UInt8.lt_iff_toNat_lt.mp (first run.1 listed)
      rw [List.foldr_cons, bytesOf_consRun separated, written]
      exact ⟨separated_consRun below separated, rfl⟩

theorem separated_runs (s : ByteSet) : Separated s.runs :=
  (foldr_consRun s.toList_ascending).1

theorem bytesOf_runs (s : ByteSet) : bytesOf s.runs = s.toList :=
  (foldr_consRun s.toList_ascending).2

theorem mem_iff_runs : c ∈ s ↔ ∃ run ∈ s.runs, InRun c run := by
  rw [← mem_toList, ← bytesOf_runs, mem_bytesOf]

theorem le_of_mem_runs (mem : run ∈ s.runs) : run.1.toNat ≤ run.2.toNat :=
  s.separated_runs.proper run mem

/-- Takes the next byte after the runs: it extends the last run if it comes just after it, or else
it opens a run of its own. -/
def appendRun : List (UInt8 × UInt8) → UInt8 → List (UInt8 × UInt8)
  | [], b => [(b, b)]
  | [(lo, hi)], b => if hi.toNat + 1 = b.toNat then [(lo, b)] else [(lo, hi), (b, b)]
  | run :: next :: rest, b => run :: appendRun (next :: rest) b

theorem consRun_appendRun (b : UInt8) (runs : List (UInt8 × UInt8)) (c : UInt8) :
    consRun b (appendRun runs c) = appendRun (consRun b runs) c := by
  match runs with
  | [] =>
      simp only [appendRun, consRun]
  | [(lo, hi)] =>
      by_cases behind : hi.toNat + 1 = c.toNat <;> by_cases inFront : b.toNat + 1 = lo.toNat <;>
        simp [appendRun, consRun, behind, inFront]
  | (lo, hi) :: next :: rest =>
      simp only [appendRun, consRun]
      split <;> rfl

theorem foldl_appendRun_consRun (b : UInt8) (runs : List (UInt8 × UInt8)) (bytes : List UInt8) :
    bytes.foldl appendRun (consRun b runs) = consRun b (bytes.foldl appendRun runs) := by
  induction bytes generalizing runs with
  | nil => rfl
  | cons c rest ih => rw [List.foldl_cons, ← consRun_appendRun, ih, List.foldl_cons]

/-- Collecting the bytes from the first one on gives the same runs. -/
theorem foldl_appendRun (bytes : List UInt8) :
    bytes.foldl appendRun [] = bytes.foldr consRun [] := by
  induction bytes with
  | nil => rfl
  | cons b rest ih =>
      rw [List.foldl_cons, List.foldr_cons, ← ih]
      exact foldl_appendRun_consRun b [] rest

end Collect

section Canonical

theorem Separated.lt_of_mem_bytesOf (separated : Separated (run :: rest)) :
    ∀ b ∈ bytesOf rest, run.2.toNat < b.toNat := by
  induction rest generalizing run with
  | nil => simp [bytesOf]
  | cons next rest ih =>
      obtain ⟨-, gap, later⟩ := separated_cons.mp separated
      have apart : run.2.toNat + 2 ≤ next.1.toNat := gap next rfl
      have proper : next.1.toNat ≤ next.2.toNat := (separated_cons.mp later).1
      intro b mem
      rw [bytesOf_cons, List.mem_append, mem_interval] at mem
      cases mem with
      | inl inNext =>
          have above : next.1.toNat ≤ b.toNat := inNext.1
          omega
      | inr behind =>
          have above : next.2.toNat < b.toNat := ih later b behind
          omega

theorem Separated.ascending (separated : Separated runs) : (bytesOf runs).Pairwise (· < ·) := by
  induction runs with
  | nil => exact List.Pairwise.nil
  | cons run rest ih =>
      have later : Separated rest := (separated_cons.mp separated).2.2
      rw [bytesOf_cons, List.pairwise_append]
      refine ⟨interval_ascending run.1 run.2, ih later, fun b inRun c behind => ?_⟩
      have upper : b.toNat ≤ run.2.toNat := (mem_interval.mp inRun).2
      have above : run.2.toNat < c.toNat := separated.lt_of_mem_bytesOf c behind
      exact UInt8.lt_iff_toNat_lt.mpr (by omega)

theorem Separated.foldr_bytesOf (separated : Separated runs) :
    (bytesOf runs).foldr consRun [] = runs := by
  induction runs with
  | nil => rfl
  | cons run rest ih =>
      obtain ⟨proper, gap, later⟩ := separated_cons.mp separated
      rw [bytesOf_cons, List.foldr_append, ih later]
      refine foldr_consRun_interval (fun next first => ?_) proper
      have apart : run.2.toNat + 2 ≤ next.1.toNat := gap next first
      omega

theorem length_bytesOf (proper : ∀ run ∈ runs, run.1.toNat ≤ run.2.toNat) :
    (bytesOf runs).length = (runs.map fun run => run.2.toNat - run.1.toNat + 1).sum := by
  rw [bytesOf, List.length_flatMap]
  refine congrArg List.sum (List.map_congr_left fun run mem => ?_)
  exact length_interval (proper run mem)

theorem mem_insertRun : b ∈ s.insertRange run.1 run.2 ↔ b ∈ s ∨ InRun b run := by
  rw [mem_insertRange, UInt8.le_iff_toNat_le, UInt8.le_iff_toNat_le, InRun]

theorem mem_foldl_insertRange :
    b ∈ runs.foldl (fun s run => s.insertRange run.1 run.2) s ↔
      b ∈ s ∨ ∃ run ∈ runs, InRun b run := by
  induction runs generalizing s with
  | nil => simp
  | cons run rest ih =>
      rw [List.foldl_cons, ih, mem_insertRun]
      simp [or_assoc]

theorem mem_ofRanges : b ∈ ofRanges runs ↔ ∃ run ∈ runs, InRun b run := by
  rw [ofRanges, mem_foldl_insertRange]
  exact or_iff_right (not_mem_empty b)

theorem Separated.runs_ofRanges (separated : Separated runs) : (ofRanges runs).runs = runs := by
  have written : (ofRanges runs).toList = bytesOf runs := by
    refine (toList_ascending _).eq_of_mem_iff separated.ascending fun b => ?_
    rw [mem_toList, mem_ofRanges, mem_bytesOf]
  rw [ByteSet.runs, written, separated.foldr_bytesOf]

/-- A gap of one byte stays, and nothing goes on after the last byte. -/
example : (ofRanges [(250, 252), (254, 255)]).runs = [(250, 252), (254, 255)] :=
  Separated.runs_ofRanges (by decide)

theorem eq_ofRanges (holds : ∀ b, b ∈ s ↔ ∃ run ∈ runs, InRun b run) : s = ofRanges runs :=
  ext_of_mem fun b => (holds b).trans mem_ofRanges.symm

/-- The runs of a set are the only list of separated runs that holds its members, whichever end they
are collected from.  Added to the empty set they give the set, their lengths add up to its size, and
every list of separated runs is the runs of the set that it gives. -/
theorem runs_spec (s : ByteSet) (runs : List (UInt8 × UInt8)) :
    ((Separated runs ∧ ∀ b, b ∈ s ↔ ∃ run ∈ runs, InRun b run) ↔ runs = s.runs) ∧
      s.runs = s.toList.foldl appendRun [] ∧ ofRanges s.runs = s ∧
      (s.runs.map fun run => run.2.toNat - run.1.toNat + 1).sum = s.size ∧
      (Separated runs ↔ (ofRanges runs).runs = runs) := by
  refine ⟨⟨?_, ?_⟩, ?_, ?_, ?_, Separated.runs_ofRanges, fun same => ?_⟩
  · intro ⟨separated, holds⟩
    rw [eq_ofRanges holds, separated.runs_ofRanges]
  · rintro rfl
    exact ⟨s.separated_runs, fun b => mem_iff_runs⟩
  · exact (foldl_appendRun s.toList).symm
  · exact (eq_ofRanges fun b => mem_iff_runs).symm
  · rw [← length_bytesOf s.separated_runs.proper, bytesOf_runs, size_eq_length_toList]
  · exact same ▸ separated_runs (ofRanges runs)

end Canonical

end Munch.ByteSet
