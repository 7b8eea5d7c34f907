import Munch.Proofs.Dfa.Residual

/-!
Frozen automata whose states respond differently.

An automaton carries responses if each state is assigned one such that the edges of the state lead,
byte by byte, to what remains of it (`Responds`).  The responses so assigned are what walks come to
(`Responds.run_iff`).  If no two states have the same one, numbering the states in breadth-first order
is numbering the responses in breadth-first order, and no trace of the automaton is left but the
response of its entry (`Responds.compact_eq`).
-/

set_option autoImplicit false

namespace Munch

namespace Automaton

theorem ext_of_states {a b : Automaton} (states : a.states = b.states) (entry : a.entry = b.entry) :
    a = b := by
  cases a
  cases b
  cases states
  cases entry
  rfl

section Rename

variable {α β : Type} [DecidableEq α] [DecidableEq β] {f : α → β} {nodes : List α}

theorem idxOf?_map {x : α} (same : ∀ y ∈ nodes, f y = f x ↔ y = x) :
    (nodes.map f).idxOf? (f x) = nodes.idxOf? x := by
  induction nodes with
  | nil => rfl
  | cons y rest ih =>
      have here : (f y == f x) = (y == x) := by
        rw [Bool.eq_iff_iff, beq_iff_eq, beq_iff_eq]
        exact same y List.mem_cons_self
      rw [List.map_cons, List.idxOf?_cons, List.idxOf?_cons, here,
        ih fun z mem => same z (List.mem_cons_of_mem _ mem)]

theorem numberEdges_map (inj : ∀ x ∈ nodes, ∀ y ∈ nodes, f x = f y → x = y)
    {edges : List (Label × α)} (inside : ∀ e ∈ edges, e.2 ∈ nodes) :
    numberEdges (nodes.map f) (edges.map fun e => (e.1, f e.2)) = numberEdges nodes edges := by
  rw [numberEdges, List.filterMap_map, numberEdges]
  refine List.filterMap_congr fun e mem => ?_
  rw [Function.comp_apply, idxOf?_map fun y listed => ⟨inj y listed e.2 (inside e mem), congrArg f⟩]

theorem ofNodes_map (inj : ∀ x ∈ nodes, ∀ y ∈ nodes, f x = f y → x = y)
    {edges : α → List (Label × α)} {renamed : β → List (Label × β)}
    {accept : α → Option Nat} {renamedAccept : β → Option Nat}
    (closed : ∀ x ∈ nodes, ∀ e ∈ edges x, e.2 ∈ nodes)
    (edgesEq : ∀ x ∈ nodes, renamed (f x) = (edges x).map fun e => (e.1, f e.2))
    (acceptEq : ∀ x ∈ nodes, renamedAccept (f x) = accept x) :
    ofNodes (nodes.map f) renamed renamedAccept = ofNodes nodes edges accept := by
  refine ext_of_states (congrArg List.toArray ?_) rfl
  rw [List.map_map]
  refine List.map_congr_left fun x mem => ?_
  rw [Function.comp_apply, edgesEq x mem, numberEdges_map inj (closed x mem), acceptEq x mem]

omit [DecidableEq β] in
theorem map_numberEdges (nodup : nodes.Nodup) {edges : List (Label × α)}
    (inside : ∀ e ∈ edges, e.2 ∈ nodes) {g : Nat → β}
    (agree : ∀ k x, nodes[k]? = some x → g k = f x) :
    (numberEdges nodes edges).map (fun e => (e.label, g e.target)) =
      edges.map fun e => (e.1, f e.2) := by
  rw [numberEdges, List.map_filterMap, ← List.filterMap_eq_map']
  refine List.filterMap_congr fun e mem => ?_
  obtain ⟨k, found⟩ := List.mem_iff_getElem?.mp (inside e mem)
  rw [(idxOf?_eq_some_iff nodup).mpr found, Option.map_some, Option.map_some, agree k e.2 found]

end Rename

end Automaton

structure Responds (a : Automaton) (response : Nat → Response) : Prop where
  nil_eq : ∀ i < a.size, response i [] = some (a.accept i)
  stops : ∀ i b w, response i [b] = none → response i (b :: w) = none
  edges_eq : ∀ i < a.size,
    (a.labelledTargets i).map (fun e => (e.1, response e.2)) = Response.residuals (response i)

theorem Response.mem_residuals {f : Response} {e : Label × Response} :
    e ∈ f.residuals ↔
      ∃ b, (f [b]).isSome = true ∧ e.1 = .byte b ∧ e.2 = fun w => f (b :: w) := by
  obtain ⟨label, g⟩ := e
  rw [residuals, List.mem_filterMap]
  constructor
  · rintro ⟨b, -, found⟩
    rw [residual] at found
    split at found
    · cases found
      exact ⟨b, by assumption, rfl, rfl⟩
    · cases found
  · rintro ⟨b, continues, rfl, rfl⟩
    exact ⟨b, ByteSet.mem_allBytes b, if_pos continues⟩

namespace Responds

variable {a : Automaton} {response : Nat → Response} {i j : Nat} {w : List UInt8}

theorem edge (responds : Responds a response) {label : Label}
    (mem : (label, j) ∈ a.labelledTargets i) :
    ∃ b, label = .byte b ∧ response j = fun w => response i (b :: w) := by
  have inside := Automaton.lt_size_of_mem_edges (Automaton.mem_labelledTargets.mp mem)
  have image : (label, response j) ∈ Response.residuals (response i) := by
    rw [← responds.edges_eq i inside]
    exact List.mem_map.mpr ⟨(label, j), mem, rfl⟩
  obtain ⟨b, -, same, rest⟩ := Response.mem_residuals.mp image
  exact ⟨b, same, rest⟩

theorem exists_edge (responds : Responds a response) (inside : i < a.size) {b : UInt8}
    (continues : (response i (b :: w)).isSome = true) :
    ∃ j, (Label.byte b, j) ∈ a.labelledTargets i ∧ response j = fun w => response i (b :: w) := by
  have first : (response i [b]).isSome = true := by
    cases none : response i [b] with
    | some answer => rfl
    | none =>
        rw [responds.stops i b w none] at continues
        cases continues
  have image : (Label.byte b, fun w => response i (b :: w)) ∈ Response.residuals (response i) :=
    Response.mem_residuals.mpr ⟨b, first, rfl, rfl⟩
  rw [← responds.edges_eq i inside] at image
  obtain ⟨⟨label, j⟩, mem, same⟩ := List.mem_map.mp image
  cases (congrArg Prod.fst same : label = .byte b)
  exact ⟨j, mem, congrArg Prod.snd same⟩

theorem run_iff (responds : Responds a response) (inside : i < a.size) {answer : Option Nat} :
    (∃ j, Run a.labelledTargets i w j ∧ a.accept j = answer) ↔ response i w = some answer := by
  constructor
  · rintro ⟨j, run, rfl⟩
    induction run with
    | stop i => exact responds.nil_eq i inside
    | skip edge =>
        obtain ⟨b, same, -⟩ := responds.edge edge
        cases same
    | take edge _ ih =>
        have later := ih (Automaton.edge_target_lt (Automaton.mem_labelledTargets.mp edge))
        obtain ⟨b, same, rest⟩ := responds.edge edge
        cases same
        rwa [rest] at later
  · intro found
    induction w generalizing i with
    | nil =>
        rw [responds.nil_eq i inside] at found
        exact ⟨i, .stop i, Option.some.inj found⟩
    | cons b rest ih =>
        obtain ⟨k, edge, remains⟩ := responds.exists_edge inside (Option.isSome_of_mem found)
        have later : response k rest = some answer := by rwa [remains]
        obtain ⟨j, run, accepts⟩ :=
          ih (Automaton.edge_target_lt (Automaton.mem_labelledTargets.mp edge)) later
        exact ⟨j, .take edge run, accepts⟩

section Freeze

variable {deterministic : a.isDeterministic = true}

theorem responseFrom_freeze (responds : Responds a response) {k : Nat}
    (found : a.reachable[k]? = some i) :
    (Dfa.freeze a deterministic).responseFrom k = response i := by
  funext w
  refine Option.ext fun answer => ?_
  rw [Dfa.responseFrom_freeze_eq_some_iff found]
  exact responds.run_iff (Automaton.reachable_lt (List.mem_of_getElem? found))

theorem response_freeze (responds : Responds a response) :
    (Dfa.freeze a deterministic).response w =
      if a.isEmpty then none else response a.entry w := by
  cases empty : a.isEmpty with
  | true => simp [Dfa.response, empty]
  | false =>
      have states : (Dfa.freeze a deterministic).isEmpty = false := by
        rw [Dfa.isEmpty_freeze, empty]
      rw [Dfa.response, states, Dfa.entry_eq_zero,
        responds.responseFrom_freeze (Automaton.reachable_zero empty)]

end Freeze

end Responds

theorem Dfa.responds_graph (d : Dfa) : Responds d.graph d.responseFrom := by
  refine ⟨fun i _ => rfl, fun i b w none => ?_, fun i _ => ?_⟩
  · rw [Dfa.responseFrom_cons] at none ⊢
    cases next : d.next i b with
    | none => rfl
    | some j =>
        rw [next] at none
        cases none
  · rw [Automaton.labelledTargets, List.map_map]
    exact d.map_edges_eq_residuals i

open scoped Classical in
/-- The responses that remain of one after byte strings, with the search for them stopped after some
steps, numbered in breadth-first order. -/
noncomputable def Response.automaton (f : Response) (steps : Nat) : Automaton :=
  .ofNodes (if (f []).isSome then exploreFrom (fun f => f.residuals.map Prod.snd) steps f else [])
    residuals marker

open scoped Classical in
/-- The compact form of an automaton whose states have different responses depends on the response
of the entry alone. -/
theorem Responds.compact_eq {a : Automaton} {response : Nat → Response}
    (responds : Responds a response) (nonempty : a.isEmpty = false)
    (inj : ∀ i < a.size, ∀ j < a.size, response i = response j → i = j)
    {steps : Nat} (enough : a.size ≤ steps) :
    a.compact = Response.automaton (response a.entry) steps := by
  have inRange : ∀ {i}, i ∈ List.range a.size → i < a.size := List.mem_range.mp
  have closed := a.targets_closed
  have listed : a.entry ∈ List.range a.size := List.mem_range.mpr (Automaton.entry_lt_size nonempty)
  have distinct : ∀ i ∈ List.range a.size, ∀ j ∈ List.range a.size,
      response i = response j → i = j :=
    fun i hi j hj => inj i (inRange hi) j (inRange hj)
  have commutes : ∀ i ∈ List.range a.size,
      (Response.residuals (response i)).map Prod.snd = (a.targets i).map response := by
    intro i mem
    rw [← responds.edges_eq i (inRange mem), List.map_map, ← Automaton.labelledTargets_snd,
      List.map_map]
    rfl
  -- states and responses are found in the same order, since they have the same successors
  have order : exploreFrom (fun f : Response => f.residuals.map Prod.snd) steps
      (response a.entry) = a.reachable.map response := by
    rw [exploreFrom_map distinct closed commutes steps listed, Automaton.reachable, nonempty,
      exploreFrom_steps closed listed (by simp) enough]
    rfl
  have starts : (response a.entry []).isSome = true := by
    rw [responds.nil_eq a.entry (inRange listed)]
    rfl
  rw [Response.automaton, if_pos starts, order, Automaton.compact]
  refine (Automaton.ofNodes_map ?_ (fun i => Automaton.reachable_closed) ?_ ?_).symm
  · intro i hi j hj
    exact inj i (Automaton.reachable_lt hi) j (Automaton.reachable_lt hj)
  · intro i mem
    exact (responds.edges_eq i (Automaton.reachable_lt mem)).symm
  · intro i mem
    rw [Response.marker, responds.nil_eq i (Automaton.reachable_lt mem)]
    rfl

end Munch
