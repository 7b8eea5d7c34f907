import Mathlib.Data.Nat.Find
import Munch.Proofs.Automaton.Exploration
import Munch.Automaton.Deterministic

/-!
Runs of a labelled graph, and what becomes of them when its nodes are numbered.

`Run edges x w y` says that the byte string `w` leads from `x` to `y`, edges that consume nothing
being free, and `Yields edges accept x w rule` that it leads to a node that accepts the rule.  Both are
about graphs on nodes of any kind: an automaton is such a graph on its state numbers.  Numbering the
nodes of a graph (`run_ofNodes`), dropping what cannot be reached (`run_compact`) and sorting edges
(`run_sortEdges`) keep the runs.
-/

set_option autoImplicit false

namespace Munch

/-- The lowest of the rules with a property, if any rule has it. -/
def IsLowest (P : Nat → Prop) : Option Nat → Prop
  | none => ∀ rule, ¬ P rule
  | some least => P least ∧ ∀ rule, P rule → least ≤ rule

theorem exists_isLowest (P : Nat → Prop) : ∃ i, IsLowest P i := by
  classical
  by_cases inhabited : ∃ rule, P rule
  · refine ⟨some (Nat.find inhabited), Nat.find_spec inhabited, ?_⟩
    intro rule found
    exact Nat.find_min' inhabited found
  · refine ⟨none, ?_⟩
    intro rule found
    exact inhabited ⟨rule, found⟩

/-- Some rules of a set, with one for each that is not higher. -/
structure Minorizes (P Q : Nat → Prop) : Prop where
  sub : ∀ rule, P rule → Q rule
  lower : ∀ rule, Q rule → ∃ least, least ≤ rule ∧ P least

namespace IsLowest

variable {P Q : Nat → Prop} {i j : Option Nat}

theorem unique (first : IsLowest P i) (second : IsLowest P j) : i = j := by
  cases i with
  | none =>
      cases j with
      | none => rfl
      | some s => exact absurd second.1 (first s)
  | some r =>
      cases j with
      | none => exact absurd first.1 (second r)
      | some s => exact congrArg some (Nat.le_antisymm (first.2 s second.1) (second.2 r first.1))

theorem congr (same : ∀ rule, P rule ↔ Q rule) (lowest : IsLowest P i) : IsLowest Q i := by
  have eq : P = Q := funext fun rule => propext (same rule)
  rwa [← eq]

theorem self (i : Option Nat) : IsLowest (fun rule => i = some rule) i := by
  cases i with
  | none => exact fun rule found => by cases found
  | some r => exact ⟨rfl, fun rule found => Nat.le_of_eq (Option.some.inj found)⟩

theorem minAccept (first : IsLowest P i) (second : IsLowest Q j) :
    IsLowest (fun rule => P rule ∨ Q rule) (minAccept i j) := by
  cases i with
  | none =>
      refine second.congr fun rule => ?_
      rw [or_iff_right (first rule)]
  | some r =>
      cases j with
      | none =>
          refine congr (fun rule => ?_) first
          rw [or_iff_left (second rule)]
      | some s =>
          constructor
          · rcases Nat.le_total r s with le | le
            · rw [Nat.min_eq_left le]
              exact .inl first.1
            · rw [Nat.min_eq_right le]
              exact .inr second.1
          · rintro rule (found | found)
            · exact Nat.le_trans (Nat.min_le_left r s) (first.2 rule found)
            · exact Nat.le_trans (Nat.min_le_right r s) (second.2 rule found)

theorem minorizes (lowest : IsLowest P i) : Minorizes (fun rule => i = some rule) P := by
  cases i with
  | none =>
      refine ⟨fun rule found => ?_, fun rule found => absurd found (lowest rule)⟩
      cases found
  | some r =>
      refine ⟨?_, fun rule found => ⟨r, lowest.2 rule found, rfl⟩⟩
      rintro rule found
      cases found
      exact lowest.1

theorem of_minorizes (minorizes : Minorizes P Q) (lowest : IsLowest P i) : IsLowest Q i := by
  cases i with
  | none =>
      intro rule found
      obtain ⟨least, _, mem⟩ := minorizes.lower rule found
      exact lowest least mem
  | some r =>
      refine ⟨minorizes.sub r lowest.1, fun rule found => ?_⟩
      obtain ⟨least, le, mem⟩ := minorizes.lower rule found
      exact Nat.le_trans (lowest.2 least mem) le

end IsLowest

theorem Minorizes.refl (P : Nat → Prop) : Minorizes P P :=
  ⟨fun _ mem => mem, fun rule mem => ⟨rule, Nat.le_refl _, mem⟩⟩

theorem Minorizes.trans {P Q R : Nat → Prop} (first : Minorizes P Q) (second : Minorizes Q R) :
    Minorizes P R := by
  refine ⟨fun rule mem => second.sub rule (first.sub rule mem), fun rule mem => ?_⟩
  obtain ⟨middle, le, found⟩ := second.lower rule mem
  obtain ⟨least, le', found'⟩ := first.lower middle found
  exact ⟨least, Nat.le_trans le' le, found'⟩

def Label.bytes : Label → List UInt8
  | .epsilon => []
  | .byte b => [b]

section Run

variable {α : Type}

/-- A byte string leads from one node of a graph to another. -/
inductive Run (edges : α → List (Label × α)) : α → List UInt8 → α → Prop where
  | stop (x : α) : Run edges x [] x
  | skip {x y z : α} {w : List UInt8} :
      (.epsilon, y) ∈ edges x → Run edges y w z → Run edges x w z
  | take {x y z : α} {b : UInt8} {w : List UInt8} :
      (.byte b, y) ∈ edges x → Run edges y w z → Run edges x (b :: w) z

/-- A byte string leads from a node to one that accepts the rule. -/
def Yields (edges : α → List (Label × α)) (accept : α → Option Nat) (x : α) (w : List UInt8)
    (rule : Nat) : Prop :=
  ∃ y, Run edges x w y ∧ accept y = some rule

/-- A byte leads from a node to another, after edges that consume nothing. -/
def Moves (edges : α → List (Label × α)) (x : α) (b : UInt8) (y : α) : Prop :=
  ∃ z, Run edges x [] z ∧ (.byte b, y) ∈ edges z

namespace Run

variable {edges other : α → List (Label × α)} {x y z : α} {u v w : List UInt8} {b : UInt8}

theorem append (first : Run edges x u y) (second : Run edges y v z) : Run edges x (u ++ v) z := by
  induction first with
  | stop => exact second
  | skip edge _ ih => exact .skip edge (ih second)
  | take edge _ ih => exact .take edge (ih second)

theorem snoc (first : Run edges x w y) {label : Label} (edge : (label, z) ∈ edges y) :
    Run edges x (w ++ label.bytes) z := by
  cases label with
  | epsilon => exact first.append (.skip edge (.stop z))
  | byte b => exact first.append (.take edge (.stop z))

theorem mono (sub : ∀ x, ∀ e ∈ edges x, e ∈ other x) (run : Run edges x w y) : Run other x w y := by
  induction run with
  | stop x => exact .stop x
  | skip edge _ ih => exact .skip (sub _ _ edge) ih
  | take edge _ ih => exact .take (sub _ _ edge) ih

theorem invariant {P : α → List UInt8 → Prop}
    (step : ∀ y w label z, P y w → (label, z) ∈ edges y → P z (w ++ label.bytes))
    (run : Run edges x w y) (start : P x u) : P y (u ++ w) := by
  induction run generalizing u with
  | stop => rwa [List.append_nil]
  | skip edge _ ih =>
      have next := step _ _ _ _ start edge
      simp only [Label.bytes, List.append_nil] at next
      exact ih next
  | take edge _ ih =>
      have next := ih (step _ _ _ _ start edge)
      rwa [Label.bytes, List.append_assoc, List.singleton_append] at next

theorem nil_iff : Run edges x [] y ↔
    Relation.ReflTransGen (fun x y => (Label.epsilon, y) ∈ edges x) x y := by
  constructor
  · intro run
    generalize empty : ([] : List UInt8) = w at run
    induction run with
    | stop => exact .refl
    | skip edge _ ih => exact .head edge (ih empty)
    | take => cases empty
  · intro leads
    induction leads using Relation.ReflTransGen.head_induction_on with
    | refl => exact .stop _
    | head edge _ ih => exact .skip edge ih

theorem cons_iff : Run edges x (b :: w) y ↔ ∃ z, Moves edges x b z ∧ Run edges z w y := by
  constructor
  · intro run
    generalize given : b :: w = v at run
    induction run with
    | stop => cases given
    | skip edge _ ih =>
        obtain ⟨z, ⟨before, free, taken⟩, rest⟩ := ih given
        exact ⟨z, ⟨before, .skip edge free, taken⟩, rest⟩
    | take edge rest =>
        cases given
        exact ⟨_, ⟨_, .stop _, edge⟩, rest⟩
  · rintro ⟨z, ⟨before, free, taken⟩, rest⟩
    exact free.append (.take taken rest)

theorem eq_of_no_edges (bare : edges x = []) (run : Run edges x w y) : y = x ∧ w = [] := by
  cases run with
  | stop => exact ⟨rfl, rfl⟩
  | skip edge =>
      rw [bare] at edge
      cases edge
  | take edge =>
      rw [bare] at edge
      cases edge

theorem eq_nil_of_fresh (fresh : ∀ z label, (label, x) ∉ edges z) (run : Run edges x w x) :
    w = [] := by
  have trapped := run.invariant (u := []) (P := fun z w => z = x → w = [])
    (by
      rintro z w label y - edge rfl
      exact absurd edge (fresh z label))
    fun _ => rfl
  exact trapped rfl

theorem leads (run : Run edges x w y) : Leads (fun x => (edges x).map Prod.snd) x y := by
  induction run with
  | stop => exact .refl
  | skip edge _ ih => exact .head (List.mem_map_of_mem edge) ih
  | take edge _ ih => exact .head (List.mem_map_of_mem edge) ih

theorem ofLeads (leads : Leads (fun x => (edges x).map Prod.snd) x y) : ∃ w, Run edges x w y := by
  induction leads using Relation.ReflTransGen.head_induction_on with
  | refl => exact ⟨[], .stop _⟩
  | head edge _ ih =>
      obtain ⟨w, run⟩ := ih
      obtain ⟨⟨label, target⟩, mem, rfl⟩ := List.mem_map.mp edge
      cases label with
      | epsilon => exact ⟨w, .skip mem run⟩
      | byte b => exact ⟨b :: w, .take mem run⟩

end Run

theorem Yields.cons_iff {edges : α → List (Label × α)} {accept : α → Option Nat} {x : α} {b : UInt8}
    {w : List UInt8} {rule : Nat} :
    Yields edges accept x (b :: w) rule ↔ ∃ y, Moves edges x b y ∧ Yields edges accept y w rule := by
  constructor
  · rintro ⟨z, run, accepts⟩
    obtain ⟨y, moves, rest⟩ := Run.cons_iff.mp run
    exact ⟨y, moves, z, rest, accepts⟩
  · rintro ⟨y, moves, z, rest, accepts⟩
    exact ⟨z, Run.cons_iff.mpr ⟨y, moves, rest⟩, accepts⟩

end Run

namespace Automaton

theorem mem_labelledTargets {a : Automaton} {i j : Nat} {label : Label} :
    (label, j) ∈ a.labelledTargets i ↔ (⟨label, j⟩ : Edge) ∈ a.edges i := by
  unfold labelledTargets
  constructor
  · intro mem
    obtain ⟨e, edge, eq⟩ := List.mem_map.mp mem
    cases eq
    exact edge
  · exact fun edge => List.mem_map.mpr ⟨_, edge, rfl⟩

theorem labelledTargets_snd (a : Automaton) (i : Nat) :
    (a.labelledTargets i).map Prod.snd = a.targets i := by
  simp [labelledTargets, targets, Function.comp_def]

theorem state_eq_of_getElem? {a : Automaton} {i : Nat} {s : State} (found : a.states[i]? = some s) :
    a.state i = s := by
  simp [state, found]

theorem state_eq_default {a : Automaton} {i : Nat} (beyond : a.size ≤ i) : a.state i = {} := by
  unfold state
  rw [Array.getElem?_eq_none beyond]
  rfl

theorem lt_size_of_mem_edges {a : Automaton} {i : Nat} {e : Edge} (mem : e ∈ a.edges i) :
    i < a.size := by
  refine Nat.lt_of_not_le fun beyond => ?_
  unfold edges at mem
  rw [state_eq_default beyond] at mem
  cases mem

theorem lt_size_of_accept {a : Automaton} {i rule : Nat} (accepts : a.accept i = some rule) :
    i < a.size := by
  refine Nat.lt_of_not_le fun beyond => ?_
  rw [accept, state_eq_default beyond] at accepts
  cases accepts

section OfNodes

variable {α : Type} [DecidableEq α] {nodes : List α} {edges : α → List (Label × α)}
  {accept : α → Option Nat}

theorem idxOf?_eq_some_iff (nodup : nodes.Nodup) {x : α} {k : Nat} :
    nodes.idxOf? x = some k ↔ nodes[k]? = some x := by
  rw [List.idxOf?, List.findIdx?_eq_some_iff_getElem]
  constructor
  · rintro ⟨inside, found, _⟩
    rw [List.getElem?_eq_getElem inside, eq_of_beq found]
  · intro found
    obtain ⟨inside, eq⟩ := List.getElem?_eq_some_iff.mp found
    refine ⟨inside, by simp [eq], ?_⟩
    intro j before same
    have again : nodes[j]? = some x := by
      rw [List.getElem?_eq_getElem (Nat.lt_trans before inside), eq_of_beq same]
    have index : k = j := (List.getElem?_inj inside nodup).mp (found.trans again.symm)
    omega

@[simp]
theorem size_ofNodes : (ofNodes nodes edges accept).size = nodes.length := by
  simp [size, ofNodes]

theorem state_ofNodes {k : Nat} {x : α} (found : nodes[k]? = some x) :
    (ofNodes nodes edges accept).state k = ⟨numberEdges nodes (edges x), accept x⟩ := by
  apply state_eq_of_getElem?
  simp [ofNodes, found]

theorem accept_ofNodes {k : Nat} {x : α} (found : nodes[k]? = some x) :
    (ofNodes nodes edges accept).accept k = accept x := by
  rw [Automaton.accept, state_ofNodes found]

theorem mem_numberEdges (nodup : nodes.Nodup) {listed : List (Label × α)} {label : Label} {k : Nat} :
    (⟨label, k⟩ : Edge) ∈ numberEdges nodes listed ↔
      ∃ y, nodes[k]? = some y ∧ (label, y) ∈ listed := by
  unfold numberEdges
  rw [List.mem_filterMap]
  constructor
  · rintro ⟨⟨given, y⟩, mem, numbered⟩
    obtain ⟨index, found, eq⟩ := Option.map_eq_some_iff.mp numbered
    cases eq
    exact ⟨y, (idxOf?_eq_some_iff nodup).mp found, mem⟩
  · rintro ⟨y, found, mem⟩
    refine ⟨(label, y), mem, ?_⟩
    rw [(idxOf?_eq_some_iff nodup).mpr found]
    rfl

theorem mem_labelledTargets_ofNodes (nodup : nodes.Nodup) {k l : Nat} {x : α}
    (found : nodes[k]? = some x) {label : Label} :
    (label, l) ∈ (ofNodes nodes edges accept).labelledTargets k ↔
      ∃ y, nodes[l]? = some y ∧ (label, y) ∈ edges x := by
  rw [mem_labelledTargets, Automaton.edges, state_ofNodes found]
  exact mem_numberEdges nodup

theorem exists_run_of_ofNodes (nodup : nodes.Nodup) {k l : Nat} {x : α} (found : nodes[k]? = some x)
    {w : List UInt8} (run : Run (ofNodes nodes edges accept).labelledTargets k w l) :
    ∃ y, nodes[l]? = some y ∧ Run edges x w y := by
  induction run generalizing x with
  | stop => exact ⟨x, found, .stop x⟩
  | skip edge _ ih =>
      obtain ⟨y, target, step⟩ := (mem_labelledTargets_ofNodes nodup found).mp edge
      obtain ⟨z, last, rest⟩ := ih target
      exact ⟨z, last, .skip step rest⟩
  | take edge _ ih =>
      obtain ⟨y, target, step⟩ := (mem_labelledTargets_ofNodes nodup found).mp edge
      obtain ⟨z, last, rest⟩ := ih target
      exact ⟨z, last, .take step rest⟩

theorem run_ofNodes (nodup : nodes.Nodup) (closed : ∀ x ∈ nodes, ∀ e ∈ edges x, e.2 ∈ nodes)
    {k l : Nat} {x : α} (found : nodes[k]? = some x) {w : List UInt8} :
    Run (ofNodes nodes edges accept).labelledTargets k w l ↔
      ∃ y, nodes[l]? = some y ∧ Run edges x w y := by
  constructor
  · exact exists_run_of_ofNodes nodup found
  · rintro ⟨y, last, run⟩
    induction run generalizing k with
    | stop =>
        have same : k = l := (List.getElem?_inj (List.getElem?_eq_some_iff.mp found).1 nodup).mp
          (found.trans last.symm)
        rw [same]
        exact .stop l
    | skip edge _ ih =>
        obtain ⟨m, target⟩ := List.mem_iff_getElem?.mp
          (closed _ (List.mem_of_getElem? found) _ edge)
        exact .skip ((mem_labelledTargets_ofNodes nodup found).mpr ⟨_, target, edge⟩)
          (ih target last)
    | take edge _ ih =>
        obtain ⟨m, target⟩ := List.mem_iff_getElem?.mp
          (closed _ (List.mem_of_getElem? found) _ edge)
        exact .take ((mem_labelledTargets_ofNodes nodup found).mpr ⟨_, target, edge⟩)
          (ih target last)

/-- What a listed node yields does not change if all nodes that yield anything are listed. -/
theorem yields_ofNodes_of_kept (nodup : nodes.Nodup)
    (kept : ∀ x ∈ nodes, ∀ e ∈ edges x, ∀ w rule, Yields edges accept e.2 w rule → e.2 ∈ nodes)
    {k : Nat} {x : α} (found : nodes[k]? = some x) {w : List UInt8} {rule : Nat} :
    Yields (ofNodes nodes edges accept).labelledTargets (ofNodes nodes edges accept).accept k w rule ↔
      Yields edges accept x w rule := by
  constructor
  · rintro ⟨l, run, accepts⟩
    obtain ⟨y, last, original⟩ := exists_run_of_ofNodes nodup found run
    exact ⟨y, original, by rwa [accept_ofNodes last] at accepts⟩
  · rintro ⟨y, original, accepts⟩
    induction original generalizing k with
    | stop => exact ⟨k, .stop k, by rwa [accept_ofNodes found]⟩
    | skip edge rest ih =>
        have mem := kept _ (List.mem_of_getElem? found) _ edge _ rule ⟨_, rest, accepts⟩
        obtain ⟨m, target⟩ := List.mem_iff_getElem?.mp mem
        obtain ⟨l, run, last⟩ := ih target accepts
        exact ⟨l, .skip ((mem_labelledTargets_ofNodes nodup found).mpr ⟨_, target, edge⟩) run, last⟩
    | take edge rest ih =>
        have mem := kept _ (List.mem_of_getElem? found) _ edge _ rule ⟨_, rest, accepts⟩
        obtain ⟨m, target⟩ := List.mem_iff_getElem?.mp mem
        obtain ⟨l, run, last⟩ := ih target accepts
        exact ⟨l, .take ((mem_labelledTargets_ofNodes nodup found).mpr ⟨_, target, edge⟩) run, last⟩

theorem yields_ofNodes (nodup : nodes.Nodup) (closed : ∀ x ∈ nodes, ∀ e ∈ edges x, e.2 ∈ nodes)
    {k : Nat} {x : α} (found : nodes[k]? = some x) {w : List UInt8} {rule : Nat} :
    Yields (ofNodes nodes edges accept).labelledTargets (ofNodes nodes edges accept).accept k w rule ↔
      Yields edges accept x w rule :=
  yields_ofNodes_of_kept nodup (fun x mem e edge _ _ _ => closed x mem e edge) found

end OfNodes

theorem isEmpty_iff {a : Automaton} : a.isEmpty = true ↔ a.size = 0 :=
  decide_eq_true_iff

theorem isEmpty_eq_false_iff {a : Automaton} : a.isEmpty = false ↔ 0 < a.size := by
  rw [isEmpty, decide_eq_false_iff_not]
  omega

theorem entry_lt_size {a : Automaton} (nonempty : a.isEmpty = false) : a.entry < a.size := by
  have states := isEmpty_eq_false_iff.mp nonempty
  have bound := a.entry_lt
  unfold size at states ⊢
  omega

theorem targets_closed (a : Automaton) :
    ∀ i ∈ List.range a.size, ∀ j ∈ a.targets i, j ∈ List.range a.size := by
  intro i _ j target
  obtain ⟨e, edge, rfl⟩ := List.mem_map.mp target
  exact List.mem_range.mpr (edge_target_lt edge)

theorem reachable_explored {a : Automaton} (nonempty : a.isEmpty = false) :
    Explored a.targets a.entry a.reachable := by
  unfold reachable
  rw [nonempty]
  exact exploreFrom_explored a.targets_closed (List.mem_range.mpr (entry_lt_size nonempty)) (by simp)

theorem nonempty_of_mem_reachable {a : Automaton} {i : Nat} (mem : i ∈ a.reachable) :
    a.isEmpty = false := by
  cases none : a.isEmpty with
  | false => rfl
  | true => simp [reachable, none] at mem

theorem reachable_closed {a : Automaton} {i : Nat} (mem : i ∈ a.reachable) :
    ∀ e ∈ a.labelledTargets i, e.2 ∈ a.reachable := by
  intro e edge
  refine (reachable_explored (nonempty_of_mem_reachable mem)).closed i mem e.2 ?_
  rw [← labelledTargets_snd]
  exact List.mem_map_of_mem edge

theorem nodup_reachable (a : Automaton) : a.reachable.Nodup := by
  cases none : a.isEmpty with
  | false => exact (reachable_explored none).nodup
  | true => simp [reachable, none]

theorem reachable_zero {a : Automaton} (nonempty : a.isEmpty = false) :
    a.reachable[0]? = some a.entry := by
  rw [← List.head?_eq_getElem?]
  exact (reachable_explored nonempty).head

theorem reachable_lt {a : Automaton} {i : Nat} (mem : i ∈ a.reachable) : i < a.size := by
  have nonempty := nonempty_of_mem_reachable mem
  have leads := (reachable_explored nonempty).reached i mem
  cases leads with
  | refl => exact entry_lt_size nonempty
  | tail _ target =>
      obtain ⟨e, edge, rfl⟩ := List.mem_map.mp target
      exact edge_target_lt edge

theorem length_reachable_le (a : Automaton) : a.reachable.length ≤ a.size := by
  have inside : a.reachable ⊆ List.range a.size := by
    intro i mem
    exact List.mem_range.mpr (reachable_lt mem)
  have bound := List.Nodup.length_le_of_subset (nodup_reachable a) inside
  rwa [List.length_range] at bound

@[simp]
theorem size_compact (a : Automaton) : a.compact.size = a.reachable.length :=
  size_ofNodes

@[simp]
theorem isEmpty_compact (a : Automaton) : a.compact.isEmpty = a.isEmpty := by
  rw [isEmpty, size_compact]
  cases none : a.isEmpty with
  | true => simp [reachable, none]
  | false =>
      have first := reachable_zero none
      cases listed : a.reachable with
      | nil => simp [listed] at first
      | cons i rest => simp

theorem mem_reachable_iff {a : Automaton} (nonempty : a.isEmpty = false) {i : Nat} :
    i ∈ a.reachable ↔ ∃ w, Run a.labelledTargets a.entry w i := by
  rw [(reachable_explored nonempty).mem_iff]
  have same : a.targets = fun i => (a.labelledTargets i).map Prod.snd :=
    funext fun i => (a.labelledTargets_snd i).symm
  rw [same]
  exact ⟨Run.ofLeads, fun ⟨_, run⟩ => run.leads⟩

theorem mem_reachable_of_run {a : Automaton} {i j : Nat} {w : List UInt8} (mem : i ∈ a.reachable)
    (run : Run a.labelledTargets i w j) : j ∈ a.reachable := by
  have nonempty := nonempty_of_mem_reachable mem
  obtain ⟨u, first⟩ := (mem_reachable_iff nonempty).mp mem
  exact (mem_reachable_iff nonempty).mpr ⟨u ++ w, first.append run⟩

/-- The compact form has the runs of the automaton, under other numbers. -/
theorem run_compact {a : Automaton} {k l i : Nat} (found : a.reachable[k]? = some i)
    {w : List UInt8} :
    Run a.compact.labelledTargets k w l ↔
      ∃ j, a.reachable[l]? = some j ∧ Run a.labelledTargets i w j :=
  run_ofNodes (nodup_reachable a) (fun _ => reachable_closed) found

theorem yields_compact {a : Automaton} (nonempty : a.isEmpty = false) {w : List UInt8}
    {rule : Nat} :
    Yields a.compact.labelledTargets a.compact.accept 0 w rule ↔
      Yields a.labelledTargets a.accept a.entry w rule :=
  yields_ofNodes (nodup_reachable a) (fun _ => reachable_closed) (reachable_zero nonempty)

theorem mem_edges_sortEdges {a : Automaton} {i : Nat} {e : Edge} :
    e ∈ a.sortEdges.edges i ↔ e ∈ a.edges i := by
  rw [edges_sortEdges]
  exact List.mem_mergeSort

@[simp]
theorem accept_sortEdges (a : Automaton) (i : Nat) : a.sortEdges.accept i = a.accept i := by
  rw [accept, state_sortEdges]

@[simp]
theorem size_sortEdges (a : Automaton) : a.sortEdges.size = a.size := by
  simp [size, sortEdges]

theorem run_sortEdges {a : Automaton} {i j : Nat} {w : List UInt8} :
    Run a.sortEdges.labelledTargets i w j ↔ Run a.labelledTargets i w j := by
  have same : ∀ i, ∀ e, e ∈ a.sortEdges.labelledTargets i ↔ e ∈ a.labelledTargets i :=
    fun i e => by rw [mem_labelledTargets, mem_labelledTargets, mem_edges_sortEdges]
  exact ⟨Run.mono fun i e => (same i e).mp, Run.mono fun i e => (same i e).mpr⟩

end Automaton

end Munch
