import Mathlib.Order.Lattice.Nat
import Munch.Proofs.Automaton.Exploration

/-!
The order in which breadth-first exploration finds nodes.

The distance of a node from the start is the least number of steps that lead to it.  While a search is
under way, the nodes found so far stand in ascending distance, those that wait are at most one step
further than each other, and no node that is as near as the first of them is missing (`Layered`,
`Layered.mem_of_distance_le`).  So what a look adds is one step further than the node looked at, and the
search lists the nodes in ascending distance (`exploreFrom_ascending`).
-/

set_option autoImplicit false

namespace Munch

section Distance

variable {α : Type} {successors : α → List α} {x y z : α} {n : Nat}

def LeadsIn (successors : α → List α) (x : α) : Nat → α → Prop
  | 0, y => y = x
  | n + 1, y => ∃ z, LeadsIn successors x n z ∧ y ∈ successors z

noncomputable def distance (successors : α → List α) (x y : α) : Nat :=
  sInf {n | LeadsIn successors x n y}

theorem LeadsIn.leads (steps : LeadsIn successors x n y) : Leads successors x y := by
  induction n generalizing y with
  | zero =>
      cases steps
      exact .refl
  | succ n ih =>
      obtain ⟨z, before, next⟩ := steps
      exact (ih before).tail next

theorem exists_leadsIn (leads : Leads successors x y) : ∃ n, LeadsIn successors x n y := by
  induction leads with
  | refl => exact ⟨0, rfl⟩
  | tail _ next ih =>
      obtain ⟨n, before⟩ := ih
      exact ⟨n + 1, _, before, next⟩

theorem leadsIn_distance (leads : Leads successors x y) :
    LeadsIn successors x (distance successors x y) y :=
  Nat.sInf_mem (exists_leadsIn leads)

theorem distance_le (steps : LeadsIn successors x n y) : distance successors x y ≤ n :=
  Nat.sInf_le steps

theorem distance_next (leads : Leads successors x y) (next : z ∈ successors y) :
    distance successors x z ≤ distance successors x y + 1 :=
  distance_le ⟨y, leadsIn_distance leads, next⟩

theorem exists_nearer (leads : Leads successors x y) (far : distance successors x y = n + 1) :
    ∃ z, Leads successors x z ∧ distance successors x z = n ∧ y ∈ successors z := by
  have steps := leadsIn_distance leads
  rw [far] at steps
  obtain ⟨z, before, next⟩ := steps
  have near := distance_le before
  have bound := distance_next before.leads next
  exact ⟨z, before.leads, by omega, next⟩

theorem eq_of_distance_zero (leads : Leads successors x y) (near : distance successors x y = 0) :
    y = x := by
  have steps := leadsIn_distance leads
  rwa [near] at steps

end Distance

section Layers

variable {α : Type} {successors : α → List α} {start x y : α} {all done waiting : List α}

/-- A search that has found nodes in ascending distance, with no more than two distances among those that
wait. -/
structure Layered (successors : α → List α) (start : α) (done waiting : List α) : Prop where
  start_mem : start ∈ done ++ waiting
  reached : ∀ x ∈ done ++ waiting, Leads successors start x
  ascending : (done ++ waiting).Pairwise fun x y =>
    distance successors start x ≤ distance successors start y
  narrow : ∀ x ∈ waiting, ∀ y ∈ waiting, distance successors start y ≤ distance successors start x + 1

namespace Layered

theorem head_le (layered : Layered successors start done (x :: waiting)) (mem : y ∈ x :: waiting) :
    distance successors start x ≤ distance successors start y := by
  obtain ⟨-, later, -⟩ := List.pairwise_append.mp layered.ascending
  rcases List.mem_cons.mp mem with rfl | mem
  · exact Nat.le_refl _
  · exact List.rel_of_pairwise_cons later mem

theorem le_head (layered : Layered successors start done (x :: waiting)) (mem : y ∈ done) :
    distance successors start y ≤ distance successors start x := by
  obtain ⟨-, -, across⟩ := List.pairwise_append.mp layered.ascending
  exact across y mem x List.mem_cons_self

theorem mem_of_distance_le (layered : Layered successors start done (x :: waiting))
    (frontier : Frontier successors all done (x :: waiting)) (leads : Leads successors start y)
    (near : distance successors start y ≤ distance successors start x) :
    y ∈ done ++ x :: waiting := by
  induction far : distance successors start y generalizing y with
  | zero =>
      rw [eq_of_distance_zero leads far]
      exact layered.start_mem
  | succ n ih =>
      obtain ⟨z, before, nearer, next⟩ := exists_nearer leads far
      have found := ih before (by omega) nearer
      -- a node that waits is no nearer than the first one, so `z` was looked at
      have looked : z ∈ done := by
        rcases List.mem_append.mp found with old | waits
        · exact old
        · have bound := layered.head_le waits
          omega
      exact frontier.looked z looked y next

variable [DecidableEq α]

/-- What a look adds is one step further than the node that is looked at. -/
theorem distance_new (layered : Layered successors start done (x :: waiting))
    (frontier : Frontier successors all done (x :: waiting))
    (new : y ∈ newNodes (done ++ x :: waiting) (successors x)) :
    distance successors start y = distance successors start x + 1 := by
  obtain ⟨next, unknown⟩ := mem_newNodes.mp new
  have leads : Leads successors start x := layered.reached x (by simp)
  have bound := distance_next leads next
  have beyond : ¬ distance successors start y ≤ distance successors start x :=
    fun near => unknown (layered.mem_of_distance_le frontier (leads.tail next) near)
  omega

theorem look (layered : Layered successors start done (x :: waiting))
    (frontier : Frontier successors all done (x :: waiting)) :
    Layered successors start (done ++ [x])
      (waiting ++ newNodes (done ++ x :: waiting) (successors x)) := by
  have new := fun y => layered.distance_new frontier (y := y)
  have within : ∀ y ∈ waiting ++ newNodes (done ++ x :: waiting) (successors x),
      distance successors start x ≤ distance successors start y ∧
        distance successors start y ≤ distance successors start x + 1 := by
    intro y mem
    rcases List.mem_append.mp mem with waits | fresh
    · have waits := List.mem_cons_of_mem x waits
      exact ⟨layered.head_le waits, layered.narrow x List.mem_cons_self y waits⟩
    · rw [new y fresh]
      omega
  refine ⟨?_, ?_, ?_, fun y memY z memZ => ?_⟩
  · rw [append_look]
    exact List.mem_append_left _ layered.start_mem
  · rw [append_look]
    intro y mem
    rcases List.mem_append.mp mem with old | fresh
    · exact layered.reached y old
    · exact (layered.reached x (by simp)).tail (mem_newNodes.mp fresh).1
  · rw [append_look, List.pairwise_append]
    refine ⟨layered.ascending, List.pairwise_of_forall_mem_list fun y memY z memZ => ?_,
      fun y old z fresh => ?_⟩
    · rw [new y memY, new z memZ]
    · rw [new z fresh]
      rcases List.mem_append.mp old with looked | waits
      · exact Nat.le_succ_of_le (layered.le_head looked)
      · exact layered.narrow x List.mem_cons_self y waits
  · have boundY := within y memY
    have boundZ := within z memZ
    omega

end Layered

variable [DecidableEq α]

/-- A search among finitely many nodes lists them in ascending distance from the start. -/
theorem exploreFrom_ascending (closed : ∀ x ∈ all, ∀ y ∈ successors x, y ∈ all)
    (listed : start ∈ all) {steps : Nat} (enough : all.length ≤ steps) :
    (exploreFrom successors steps start).Pairwise fun x y =>
      distance successors start x ≤ distance successors start y := by
  have frontier : Frontier successors all [] [start] :=
    ⟨by simp, by simpa using listed, by simp⟩
  have layered : Layered successors start [] [start] :=
    ⟨by simp, fun x mem => by rw [List.mem_singleton.mp mem]; exact .refl, by simp, by simp⟩
  obtain ⟨-, last⟩ := explore_induction closed (P := Layered successors start)
    (fun _ _ _ frontier layered => layered.look frontier) steps [] [start] frontier
    (by simpa using enough) layered
  simpa [exploreFrom] using last.ascending

end Layers

end Munch
