import Mathlib.Logic.Relation
import Munch.Automaton.Explore

/-!
What breadth-first exploration finds.

A search that may look at as many nodes as there are finds every node that the start leads to, and
nothing else, each once and the start first (`exploreFrom_explored`).  Its order depends on nothing
but the successor lists: more steps change nothing (`exploreFrom_steps`), and renaming the nodes
renames the result (`exploreFrom_map`).
-/

set_option autoImplicit false

namespace Munch

section Explore

variable {α : Type} [DecidableEq α]

theorem mem_newNodes {known xs : List α} {x : α} :
    x ∈ newNodes known xs ↔ x ∈ xs ∧ x ∉ known := by
  induction xs generalizing known with
  | nil => simp [newNodes]
  | cons y ys ih =>
      unfold newNodes
      split
      · rename_i old
        rw [ih]
        grind
      · rw [List.mem_cons, ih]
        grind

theorem nodup_newNodes (known xs : List α) : (newNodes known xs).Nodup := by
  induction xs generalizing known with
  | nil => simp [newNodes]
  | cons y ys ih =>
      unfold newNodes
      split
      · exact ih known
      · refine List.nodup_cons.mpr ⟨?_, ih _⟩
        intro again
        exact (mem_newNodes.mp again).2 List.mem_cons_self

omit [DecidableEq α] in
/-- Looking at a node takes it to the nodes that were looked at; what it adds stands behind all others. -/
theorem append_look (done : List α) (x : α) (waiting fresh : List α) :
    (done ++ [x]) ++ (waiting ++ fresh) = (done ++ x :: waiting) ++ fresh := by
  simp

structure Frontier (successors : α → List α) (all done waiting : List α) : Prop where
  nodup : (done ++ waiting).Nodup
  inside : ∀ x ∈ done ++ waiting, x ∈ all
  looked : ∀ x ∈ done, ∀ y ∈ successors x, y ∈ done ++ waiting

namespace Frontier

variable {successors : α → List α} {all done waiting : List α} {x : α}

omit [DecidableEq α] in
theorem length_le (frontier : Frontier successors all done waiting) :
    done.length + waiting.length ≤ all.length := by
  have bound := List.Nodup.length_le_of_subset frontier.nodup frontier.inside
  rwa [List.length_append] at bound

theorem look (closed : ∀ x ∈ all, ∀ y ∈ successors x, y ∈ all)
    (frontier : Frontier successors all done (x :: waiting)) :
    Frontier successors all (done ++ [x])
      (waiting ++ newNodes (done ++ x :: waiting) (successors x)) := by
  have listed : x ∈ all := frontier.inside x (by simp)
  refine ⟨?_, ?_, ?_⟩
  · rw [append_look]
    refine List.nodup_append.mpr ⟨frontier.nodup, nodup_newNodes _ _, ?_⟩
    rintro y old z new rfl
    exact (mem_newNodes.mp new).2 old
  · rw [append_look]
    intro y mem
    rcases List.mem_append.mp mem with old | new
    · exact frontier.inside y old
    · exact closed x listed y (mem_newNodes.mp new).1
  · rw [append_look]
    intro y seen z next
    by_cases known : z ∈ done ++ x :: waiting
    · exact List.mem_append_left _ known
    · rcases List.mem_append.mp seen with old | same
      · exact absurd (frontier.looked y old z next) known
      · rw [List.mem_singleton.mp same] at next
        exact List.mem_append_right _ (mem_newNodes.mpr ⟨next, known⟩)

end Frontier

def Leads (successors : α → List α) : α → α → Prop :=
  Relation.ReflTransGen fun x y => y ∈ successors x

/-- A list of exactly the nodes that a start leads to, each once and the start first. -/
structure Explored (successors : α → List α) (start : α) (order : List α) : Prop where
  head : order.head? = some start
  nodup : order.Nodup
  closed : ∀ x ∈ order, ∀ y ∈ successors x, y ∈ order
  reached : ∀ x ∈ order, Leads successors start x

/-- What holds of the nodes that were looked at and of those that wait, and is kept by every look, holds
at the end, when no node waits. -/
theorem explore_induction {successors : α → List α} {all : List α}
    (closed : ∀ x ∈ all, ∀ y ∈ successors x, y ∈ all) {P : List α → List α → Prop}
    (look : ∀ done x waiting, Frontier successors all done (x :: waiting) → P done (x :: waiting) →
      P (done ++ [x]) (waiting ++ newNodes (done ++ x :: waiting) (successors x)))
    (steps : Nat) (done waiting : List α) (frontier : Frontier successors all done waiting)
    (enough : all.length ≤ steps + done.length) (holds : P done waiting) :
    Frontier successors all (explore successors steps (done ++ waiting) waiting) [] ∧
      P (explore successors steps (done ++ waiting) waiting) [] := by
  induction steps generalizing done waiting with
  | zero =>
      have bound := frontier.length_le
      cases waiting with
      | nil => simpa [explore] using And.intro frontier holds
      | cons x rest =>
          rw [List.length_cons] at bound
          omega
  | succ steps ih =>
      cases waiting with
      | nil => simpa [explore] using And.intro frontier holds
      | cons x rest =>
          have next := ih (done ++ [x])
            (rest ++ newNodes (done ++ x :: rest) (successors x)) (frontier.look closed)
            (by simp only [List.length_append, List.length_singleton]; omega)
            (look done x rest frontier holds)
          rwa [append_look] at next

theorem explore_spec {successors : α → List α} {all : List α}
    (closed : ∀ x ∈ all, ∀ y ∈ successors x, y ∈ all) (start : α) (steps : Nat)
    (done waiting : List α) (frontier : Frontier successors all done waiting)
    (enough : all.length ≤ steps + done.length)
    (head : (done ++ waiting).head? = some start)
    (reached : ∀ x ∈ done ++ waiting, Leads successors start x) :
    Explored successors start (explore successors steps (done ++ waiting) waiting) := by
  obtain ⟨last, first, leads⟩ := explore_induction closed (P := fun done waiting =>
      (done ++ waiting).head? = some start ∧ ∀ x ∈ done ++ waiting, Leads successors start x)
    (fun done x rest _ holds => by
      obtain ⟨head, reached⟩ := holds
      rw [append_look, List.head?_append, head]
      refine ⟨rfl, fun y mem => ?_⟩
      rcases List.mem_append.mp mem with old | new
      · exact reached y old
      · exact (reached x (by simp)).tail (mem_newNodes.mp new).1)
    steps done waiting frontier enough ⟨head, reached⟩
  rw [List.append_nil] at first leads
  exact ⟨first, by simpa using last.nodup, by simpa using last.looked, leads⟩

/-- A search among finitely many nodes, with a step for each of them, finds what there is to be
found. -/
theorem exploreFrom_explored {successors : α → List α} {all : List α}
    (closed : ∀ x ∈ all, ∀ y ∈ successors x, y ∈ all) {start : α} (listed : start ∈ all)
    {steps : Nat} (enough : all.length ≤ steps) :
    Explored successors start (exploreFrom successors steps start) := by
  refine explore_spec closed start steps [] [start] ⟨by simp, ?_, by simp⟩ (by simpa using enough)
    rfl ?_
  · intro x mem
    rw [List.mem_singleton.mp mem]
    exact listed
  · intro x mem
    rw [List.mem_singleton.mp mem]
    exact .refl

omit [DecidableEq α] in
theorem Explored.mem_iff {successors : α → List α} {start : α} {order : List α}
    (explored : Explored successors start order) {x : α} :
    x ∈ order ↔ Leads successors start x := by
  refine ⟨explored.reached x, ?_⟩
  intro leads
  induction leads with
  | refl => exact List.mem_of_head? explored.head
  | tail _ next before => exact explored.closed _ before _ next

theorem explore_steps {successors : α → List α} {all : List α}
    (closed : ∀ x ∈ all, ∀ y ∈ successors x, y ∈ all) {few many : Nat} (le : few ≤ many)
    (done waiting : List α) (frontier : Frontier successors all done waiting)
    (enough : all.length ≤ few + done.length) :
    explore successors many (done ++ waiting) waiting =
      explore successors few (done ++ waiting) waiting := by
  induction few generalizing many done waiting with
  | zero =>
      have bound := frontier.length_le
      cases waiting with
      | nil => simp [explore]
      | cons x rest =>
          rw [List.length_cons] at bound
          omega
  | succ few ih =>
      cases waiting with
      | nil => simp [explore]
      | cons x rest =>
          obtain ⟨more, rfl⟩ := Nat.exists_eq_add_of_le' le
          have next := @ih (more + few) (by omega) (done ++ [x])
            (rest ++ newNodes (done ++ x :: rest) (successors x)) (frontier.look closed)
            (by rw [List.length_append, List.length_singleton]; omega)
          rwa [append_look] at next

theorem exploreFrom_steps {successors : α → List α} {all : List α}
    (closed : ∀ x ∈ all, ∀ y ∈ successors x, y ∈ all) {start : α} (listed : start ∈ all)
    {few many : Nat} (enough : all.length ≤ few) (le : few ≤ many) :
    exploreFrom successors many start = exploreFrom successors few start := by
  refine explore_steps closed le [] [start] ⟨by simp, ?_, by simp⟩ (by simpa using enough)
  intro x mem
  rw [List.mem_singleton.mp mem]
  exact listed

section Rename

variable {β : Type} [DecidableEq β] {f : α → β} {all : List α}

theorem newNodes_map (inj : ∀ x ∈ all, ∀ y ∈ all, f x = f y → x = y) {known xs : List α}
    (knownInside : ∀ x ∈ known, x ∈ all) (inside : ∀ x ∈ xs, x ∈ all) :
    newNodes (known.map f) (xs.map f) = (newNodes known xs).map f := by
  induction xs generalizing known with
  | nil => rfl
  | cons x rest ih =>
      have listed : x ∈ all := inside x List.mem_cons_self
      have restInside : ∀ y ∈ rest, y ∈ all := fun y mem => inside y (List.mem_cons_of_mem _ mem)
      have mapped : f x ∈ known.map f ↔ x ∈ known := by
        refine ⟨?_, List.mem_map_of_mem⟩
        intro mem
        obtain ⟨y, old, eq⟩ := List.mem_map.mp mem
        rwa [← inj y (knownInside y old) x listed eq]
      simp only [List.map_cons, newNodes, mapped]
      split
      · exact ih knownInside restInside
      · have extended : ∀ y ∈ x :: known, y ∈ all := by
          intro y mem
          rcases List.mem_cons.mp mem with rfl | old
          · exact listed
          · exact knownInside y old
        have next := ih extended restInside
        rw [List.map_cons] at next
        rw [List.map_cons, next]

theorem explore_map {successors : α → List α} {renamed : β → List β}
    (inj : ∀ x ∈ all, ∀ y ∈ all, f x = f y → x = y)
    (closed : ∀ x ∈ all, ∀ y ∈ successors x, y ∈ all)
    (commutes : ∀ x ∈ all, renamed (f x) = (successors x).map f) (steps : Nat)
    (found waiting : List α) (foundInside : ∀ x ∈ found, x ∈ all)
    (waitingInside : ∀ x ∈ waiting, x ∈ all) :
    explore renamed steps (found.map f) (waiting.map f) =
      (explore successors steps found waiting).map f := by
  induction steps generalizing found waiting with
  | zero => cases waiting <;> rfl
  | succ steps ih =>
      cases waiting with
      | nil => rfl
      | cons x rest =>
          have listed : x ∈ all := waitingInside x List.mem_cons_self
          have fresh : newNodes (found.map f) (renamed (f x)) =
              (newNodes found (successors x)).map f := by
            rw [commutes x listed]
            exact newNodes_map inj foundInside (closed x listed)
          have freshInside : ∀ y ∈ newNodes found (successors x), y ∈ all :=
            fun y mem => closed x listed y (mem_newNodes.mp mem).1
          simp only [List.map_cons, explore, fresh, ← List.map_append]
          refine ih _ _ ?_ ?_
          · intro y mem
            rcases List.mem_append.mp mem with old | new
            · exact foundInside y old
            · exact freshInside y new
          · intro y mem
            rcases List.mem_append.mp mem with old | new
            · exact waitingInside y (List.mem_cons_of_mem _ old)
            · exact freshInside y new

theorem exploreFrom_map {successors : α → List α} {renamed : β → List β}
    (inj : ∀ x ∈ all, ∀ y ∈ all, f x = f y → x = y)
    (closed : ∀ x ∈ all, ∀ y ∈ successors x, y ∈ all)
    (commutes : ∀ x ∈ all, renamed (f x) = (successors x).map f) (steps : Nat) {start : α}
    (listed : start ∈ all) :
    exploreFrom renamed steps (f start) = (exploreFrom successors steps start).map f := by
  have inside : ∀ x ∈ [start], x ∈ all := by
    intro x mem
    rw [List.mem_singleton.mp mem]
    exact listed
  exact explore_map inj closed commutes steps [start] [start] inside inside

end Rename

end Explore

end Munch
