import Munch.Automaton.Basic
import Munch.Proofs.Automaton.Exploration

/-!
Computations that check what they rely on.

A list that is asked for an element beyond its end, an automaton for a state that it does not have or
for the removal of an edge that is not there, and an assertion that does not hold have no result to
give.  The computations of this library are total and go on with a default there.  Their checked forms
stop instead and say why (`Panic`), and so does a loop that is not over when its rounds are used up.
A checked form that comes to the plain result (`= pure ..`) has met none of this on its way.

Here are the checks, and what is checked of loops over lists (`foldlM_eq_pure`) and of explorations
(`exploreFrom_eq`).
-/

set_option autoImplicit false

namespace Munch

/-- Why a checked computation has no result. -/
inductive Panic where
  | outOfRange (index size : Nat)
  /-- An edge to be removed is missing, or an assertion does not hold. -/
  | fault (f : Fault)
  /-- A loop is not over after as many rounds as it was given. -/
  | endless
  deriving DecidableEq

namespace Checked

def check (i n : Nat) : Except Panic Unit :=
  if i < n then return else throw (.outOfRange i n)

def checkAll (indices : List Nat) (n : Nat) : Except Panic Unit :=
  forM indices fun i => check i n

def require (fault : Fault) (holds : Bool) : Except Panic Unit :=
  if holds then return else throw (.fault fault)

@[simp]
theorem check_of_lt {i n : Nat} (inside : i < n) : check i n = pure () :=
  if_pos inside

theorem bind_eq_ok {α β : Type} {x : Except Panic α} {f : α → Except Panic β} {y : β} :
    (x >>= f) = .ok y ↔ ∃ z, x = .ok z ∧ f z = .ok y := by
  cases x with
  | error p => simp [bind, Except.bind]
  | ok z => simp [bind, Except.bind]

theorem forM_eq_pure {α : Type} {f : α → Except Panic Unit} {xs : List α}
    (each : ∀ x ∈ xs, f x = pure ()) : forM xs f = pure () := by
  induction xs with
  | nil => rfl
  | cons x rest ih =>
      obtain ⟨first, later⟩ := List.forall_mem_cons.mp each
      rw [List.forM_cons, first, pure_bind]
      exact ih later

theorem checkAll_of_lt {indices : List Nat} {n : Nat} (inside : ∀ i ∈ indices, i < n) :
    checkAll indices n = pure () :=
  forM_eq_pure fun i mem => check_of_lt (inside i mem)

/-- A loop is checked if every round is, for as long as what the rounds keep holds. -/
theorem foldlM_eq_pure {α β : Type} {f : β → α → Except Panic β} {g : β → α → β} (P : β → Prop)
    {xs : List α} {b : β} (start : P b) (keeps : ∀ b, P b → ∀ x ∈ xs, P (g b x))
    (agree : ∀ b, P b → ∀ x ∈ xs, f b x = pure (g b x)) :
    xs.foldlM f b = pure (xs.foldl g b) := by
  induction xs generalizing b with
  | nil => rfl
  | cons x rest ih =>
      rw [List.foldlM_cons, agree b start x List.mem_cons_self, pure_bind, List.foldl_cons]
      apply ih (keeps b start x List.mem_cons_self)
      · intro c holds y mem
        exact keeps c holds y (List.mem_cons_of_mem x mem)
      · intro c holds y mem
        exact agree c holds y (List.mem_cons_of_mem x mem)

section Explore

variable {α : Type} [DecidableEq α]

/-- The exploration of a graph whose successor lists may be missing. -/
def explore (successors : α → Except Panic (List α)) :
    (steps : Nat) → (found waiting : List α) → Except Panic (List α)
  | _, found, [] => return found
  | 0, _, _ :: _ => throw .endless
  | steps + 1, found, x :: waiting => do
      let next ← successors x
      let fresh := newNodes found next
      explore successors steps (found ++ fresh) (waiting ++ fresh)

def exploreFrom (successors : α → Except Panic (List α)) (steps : Nat) (start : α) :
    Except Panic (List α) :=
  explore successors steps [start] [start]

variable {successors : α → List α} {checked : α → Except Panic (List α)} {all : List α}

theorem explore_eq (closed : ∀ x ∈ all, ∀ y ∈ successors x, y ∈ all)
    (agree : ∀ x ∈ all, checked x = pure (successors x)) (steps : Nat) (done waiting : List α)
    (frontier : Frontier successors all done waiting) (enough : all.length ≤ steps + done.length) :
    explore checked steps (done ++ waiting) waiting =
      pure (Munch.explore successors steps (done ++ waiting) waiting) := by
  induction steps generalizing done waiting with
  | zero =>
      have bound := frontier.length_le
      cases waiting with
      | nil => simp [explore, Munch.explore]
      | cons x rest =>
          rw [List.length_cons] at bound
          omega
  | succ steps ih =>
      cases waiting with
      | nil => simp [explore, Munch.explore]
      | cons x rest =>
          have listed : x ∈ all := frontier.inside x (by simp)
          have next := ih (done ++ [x]) (rest ++ newNodes (done ++ x :: rest) (successors x))
            (frontier.look closed) (by simp; omega)
          have assoc : (done ++ [x]) ++ (rest ++ newNodes (done ++ x :: rest) (successors x)) =
              (done ++ x :: rest) ++ newNodes (done ++ x :: rest) (successors x) := by simp
          rw [assoc] at next
          simp only [explore, agree x listed, pure_bind, Munch.explore]
          exact next

/-- An exploration among finitely many nodes, with a step for each of them, looks at no other node
and comes to its end. -/
theorem exploreFrom_eq (closed : ∀ x ∈ all, ∀ y ∈ successors x, y ∈ all)
    (agree : ∀ x ∈ all, checked x = pure (successors x)) {start : α} (listed : start ∈ all)
    {steps : Nat} (enough : all.length ≤ steps) :
    exploreFrom checked steps start = pure (Munch.exploreFrom successors steps start) := by
  apply explore_eq closed agree steps [] [start] ⟨by simp, ?_, by simp⟩ (by simpa using enough)
  intro x mem
  rw [List.mem_singleton.mp mem]
  exact listed

end Explore

end Checked

end Munch
