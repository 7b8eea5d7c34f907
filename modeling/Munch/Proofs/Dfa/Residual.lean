import Mathlib.Data.List.Forall2
import Mathlib.Data.List.Sort
import Munch.ByteSet.Basic
import Munch.Proofs.Dfa.Walk

/-!
The edges of a state, from its responses.

A response is a function of byte strings, and a byte leads from it to the response that remains.  The
edges of a state of a frozen automaton are, byte by byte in ascending order, what remains of the
response of the state (`map_edges_eq_residuals`).  So states that respond alike have the same labels
in the same order, and their edges lead to states that respond alike
(`forall₂_edges_of_responseFrom_eq`); and states respond alike if they are related by a relation that
keeps markers and edges (`responseFrom_eq_of_related`).
-/

set_option autoImplicit false

namespace Munch

/-- What walks on all byte strings come to. -/
abbrev Response :=
  List UInt8 → Option (Option Nat)

namespace Response

/-- What remains of a response after a byte, if a walk does not stop at the byte. -/
def residual (f : Response) (b : UInt8) : Option (Label × Response) :=
  if (f [b]).isSome then some (.byte b, fun w => f (b :: w)) else none

def residuals (f : Response) : List (Label × Response) :=
  ByteSet.allBytes.filterMap f.residual

def marker (f : Response) : Option Nat :=
  (f []).join

end Response

namespace Dfa

variable {d : Dfa} {i j k : Nat} {b : UInt8}

theorem mem_edges_iff {e : Edge} :
    e ∈ d.graph.edges i ↔ ∃ b, e.label = .byte b ∧ d.next i b = some e.target := by
  obtain ⟨label, target⟩ := e
  constructor
  · intro mem
    cases label with
    | epsilon => exact absurd (Automaton.mem_labelledTargets.mpr mem) (d.not_mem_epsilon i target)
    | byte b => exact ⟨b, rfl, next_eq_some_iff.mpr (Automaton.mem_labelledTargets.mpr mem)⟩
  · rintro ⟨b, same, found⟩
    cases same
    exact Automaton.mem_labelledTargets.mp (next_eq_some_iff.mp found)

def edgeFor (d : Dfa) (i : Nat) (b : UInt8) : Option Edge :=
  (d.next i b).map (Edge.mk (.byte b))

theorem edgeFor_eq_some_iff {e : Edge} :
    d.edgeFor i b = some e ↔ e.label = .byte b ∧ d.next i b = some e.target := by
  obtain ⟨label, target⟩ := e
  rw [edgeFor, Option.map_eq_some_iff]
  constructor
  · rintro ⟨j, found, same⟩
    cases same
    exact ⟨rfl, found⟩
  · rintro ⟨same, found⟩
    cases same
    exact ⟨target, found, rfl⟩

theorem ascending_edgesFor (d : Dfa) (i : Nat) :
    Ascending (ByteSet.allBytes.filterMap (d.edgeFor i)) := by
  refine List.Pairwise.filterMap (R := fun b c => b.toNat < c.toNat) _ ?_
    ByteSet.allBytes_ascending
  intro b c lt e first f second
  rw [(edgeFor_eq_some_iff.mp first).1, (edgeFor_eq_some_iff.mp second).1]
  simp only [Label.rank]
  omega

theorem edges_eq_filterMap (d : Dfa) (i : Nat) :
    d.graph.edges i = ByteSet.allBytes.filterMap (d.edgeFor i) := by
  have irreflexive : Std.Irrefl fun e f : Edge => e.label.rank < f.label.rank := ⟨fun e => Nat.lt_irrefl _⟩
  have antisymmetric : Std.Antisymm fun e f : Edge => e.label.rank < f.label.rank :=
    ⟨fun e f first second => absurd first (Nat.lt_asymm second)⟩
  refine List.Pairwise.eq_of_mem_iff (d.edges_ascending i) (d.ascending_edgesFor i) fun e => ?_
  rw [mem_edges_iff, List.mem_filterMap]
  constructor
  · rintro ⟨b, found⟩
    exact ⟨b, ByteSet.mem_allBytes b, edgeFor_eq_some_iff.mpr found⟩
  · rintro ⟨b, -, found⟩
    exact ⟨b, edgeFor_eq_some_iff.mp found⟩

theorem residual_responseFrom (d : Dfa) (i : Nat) (b : UInt8) :
    (d.edgeFor i b).map (fun e => (e.label, d.responseFrom e.target)) =
      Response.residual (d.responseFrom i) b := by
  simp only [edgeFor, Response.residual, responseFrom_cons]
  cases d.next i b with
  | none => rfl
  | some j => simp [responseFrom_nil]

/-- The edges of a state lead, byte by byte, to what remains of its response. -/
theorem map_edges_eq_residuals (d : Dfa) (i : Nat) :
    (d.graph.edges i).map (fun e => (e.label, d.responseFrom e.target)) =
      Response.residuals (d.responseFrom i) := by
  rw [edges_eq_filterMap, List.map_filterMap, Response.residuals]
  exact List.filterMap_congr fun b _ => d.residual_responseFrom i b

/-- Edges with the same label that lead to states that respond alike. -/
def Alike (d : Dfa) (e f : Edge) : Prop :=
  e.label = f.label ∧ d.responseFrom e.target = d.responseFrom f.target

theorem forall₂_edges_of_responseFrom_eq (same : d.responseFrom i = d.responseFrom j) :
    List.Forall₂ d.Alike (d.graph.edges i) (d.graph.edges j) := by
  have edges : (d.graph.edges i).map (fun e => (e.label, d.responseFrom e.target)) =
      (d.graph.edges j).map (fun e => (e.label, d.responseFrom e.target)) := by
    rw [map_edges_eq_residuals, map_edges_eq_residuals, same]
  rw [← List.forall₂_eq_eq_eq, List.forall₂_map_left_iff, List.forall₂_map_right_iff] at edges
  exact edges.imp fun e f eq => ⟨congrArg Prod.fst eq, congrArg Prod.snd eq⟩

theorem exists_mem_of_forall₂ {R : Edge → Edge → Prop} {first second : List Edge}
    (related : List.Forall₂ R first second) {e : Edge} (mem : e ∈ first) :
    ∃ f ∈ second, R e f := by
  induction related with
  | nil => cases mem
  | cons head _ ih =>
      rcases List.mem_cons.mp mem with rfl | later
      · exact ⟨_, List.mem_cons_self, head⟩
      · obtain ⟨f, found, related⟩ := ih later
        exact ⟨f, List.mem_cons_of_mem _ found, related⟩

theorem responseFrom_cons_eq_of_edges {w : List UInt8}
    (edges : List.Forall₂
      (fun e f => e.label = f.label ∧ d.responseFrom e.target w = d.responseFrom f.target w)
      (d.graph.edges i) (d.graph.edges j)) :
    d.responseFrom i (b :: w) = d.responseFrom j (b :: w) := by
  rw [responseFrom_cons, responseFrom_cons]
  cases fromI : d.next i b with
  | some k =>
      obtain ⟨⟨label, l⟩, mem, same, next⟩ := exists_mem_of_forall₂ edges
        (mem_edges_iff (e := ⟨.byte b, k⟩) |>.mpr ⟨b, rfl, fromI⟩)
      cases same
      have fromJ : d.next j b = some l := by
        obtain ⟨c, eq, found⟩ := mem_edges_iff.mp mem
        cases eq
        exact found
      rw [fromJ]
      exact next
  | none =>
      cases fromJ : d.next j b with
      | none => rfl
      | some l =>
          obtain ⟨⟨label, k⟩, mem, same, -⟩ := exists_mem_of_forall₂ edges.flip
            (mem_edges_iff (e := ⟨.byte b, l⟩) |>.mpr ⟨b, rfl, fromJ⟩)
          cases same
          obtain ⟨c, eq, found⟩ := mem_edges_iff.mp mem
          cases eq
          rw [fromI] at found
          cases found

/-- States respond alike if they are related by a relation that keeps markers and edges. -/
theorem responseFrom_eq_of_related {R : Nat → Nat → Prop}
    (accepts : ∀ i j, R i j → d.accept i = d.accept j)
    (steps : ∀ i j, R i j → List.Forall₂ (fun e f => e.label = f.label ∧ R e.target f.target)
      (d.graph.edges i) (d.graph.edges j))
    (related : R i j) : d.responseFrom i = d.responseFrom j := by
  funext w
  induction w generalizing i j with
  | nil => rw [responseFrom_nil, responseFrom_nil, accepts i j related]
  | cons b rest ih =>
      apply responseFrom_cons_eq_of_edges
      exact (steps i j related).imp fun e f both => ⟨both.1, ih both.2⟩

end Dfa

end Munch
