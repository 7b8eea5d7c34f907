import Mathlib.Data.List.Basic
import Std.Data.String.ToInt

/-!
Texts made of parts that can be told apart.

Parts that each end with a mark, or begin with one, are known from the text as a whole if the mark
stands in none of them (`ended_injective`, `led_injective`), as lines are (`join_lines_injective`).  A part
is also known if everything in it is of one kind and what follows it is not (`append_cons_cancel`), as the
digits of a number are of a kind (`toString_append_cancel`).
-/

set_option autoImplicit false

namespace Munch.Text

section Parts

variable {α : Type}

/-- Elements of a kind end where one of another kind follows them. -/
theorem append_cons_cancel {kind : α → Prop} {xs ys s t : List α} {x y : α}
    (left : ∀ a ∈ xs, kind a) (right : ∀ a ∈ ys, kind a) (leftEnd : ¬ kind x) (rightEnd : ¬ kind y)
    (same : xs ++ x :: s = ys ++ y :: t) : xs = ys ∧ x :: s = y :: t := by
  induction xs generalizing ys with
  | nil =>
      cases ys with
      | nil => exact ⟨rfl, same⟩
      | cons b ys =>
          cases same
          exact absurd (right x List.mem_cons_self) leftEnd
  | cons a xs ih =>
      cases ys with
      | nil =>
          cases same
          exact absurd (left y List.mem_cons_self) rightEnd
      | cons b ys =>
          rw [List.cons_append, List.cons_append, List.cons.injEq] at same
          obtain ⟨head, tail⟩ := same
          obtain ⟨rest, behind⟩ := ih (List.forall_mem_cons.mp left).2
            (List.forall_mem_cons.mp right).2 tail
          exact ⟨by rw [head, rest], behind⟩

variable {mark : α} {parts others : List (List α)}

theorem cons_flatMap_ended (mark : α) (parts : List (List α)) :
    parts.flatMap (mark :: ·) ++ [mark] = mark :: parts.flatMap (· ++ [mark]) := by
  induction parts with
  | nil => rfl
  | cons part rest ih =>
      rw [List.flatMap_cons, List.flatMap_cons, List.append_assoc, ih, List.cons_append,
        List.append_assoc, List.singleton_append]

variable [DecidableEq α]

theorem splitOn_ended (free : ∀ part ∈ parts, mark ∉ part) :
    (parts.flatMap (· ++ [mark])).splitOn mark = parts ++ [[]] := by
  induction parts with
  | nil => rfl
  | cons part rest ih =>
      obtain ⟨own, later⟩ := List.forall_mem_cons.mp free
      rw [List.flatMap_cons, List.append_assoc, List.singleton_append,
        List.splitOn_append_cons_self_of_not_mem own, ih later, List.cons_append]

theorem ended_injective (left : ∀ part ∈ parts, mark ∉ part) (right : ∀ part ∈ others, mark ∉ part)
    (same : parts.flatMap (· ++ [mark]) = others.flatMap (· ++ [mark])) : parts = others := by
  have split := congrArg (·.splitOn mark) same
  simp only [splitOn_ended left, splitOn_ended right] at split
  exact List.append_cancel_right split

theorem led_injective (left : ∀ part ∈ parts, mark ∉ part) (right : ∀ part ∈ others, mark ∉ part)
    (same : parts.flatMap (mark :: ·) = others.flatMap (mark :: ·)) : parts = others := by
  apply ended_injective left right
  have ended := congrArg (· ++ [mark]) same
  simp only [cons_flatMap_ended, List.cons.injEq, true_and] at ended
  exact ended

end Parts

/-- Parts that are numbered are known from what is made of them and of their numbers. -/
theorem map_zipIdx_injective {α β : Type} {f : α × Nat → β} {xs ys : List α}
    (apart : ∀ i, ∀ x ∈ xs, ∀ y ∈ ys, f (x, i) = f (y, i) → x = y)
    (same : xs.zipIdx.map f = ys.zipIdx.map f) : xs = ys := by
  refine List.ext_getElem? fun i => ?_
  have entry := congrArg (·[i]?) same
  simp only [List.getElem?_map, List.getElem?_zipIdx, Option.map_map, Nat.zero_add] at entry
  cases left : xs[i]? with
  | none =>
      rw [left] at entry
      exact (Option.map_eq_none_iff.mp entry.symm).symm
  | some x =>
      rw [left, Option.map_some] at entry
      obtain ⟨y, right, eq⟩ := Option.map_eq_some_iff.mp entry.symm
      rw [right, apart i x (List.mem_of_getElem? left) y (List.mem_of_getElem? right) eq.symm]

theorem toList_join_lines (lines : List String) : (String.join (lines.map (· ++ "\n"))).toList =
    (lines.map String.toList).flatMap (· ++ ['\n']) := by
  rw [String.toList_join, List.flatMap_map, List.flatMap_map]
  refine List.flatMap_congr fun line _ => ?_
  rw [String.toList_append]
  rfl

theorem join_lines_injective {xs ys : List String} (left : ∀ line ∈ xs, '\n' ∉ line.toList)
    (right : ∀ line ∈ ys, '\n' ∉ line.toList)
    (same : String.join (xs.map (· ++ "\n")) = String.join (ys.map (· ++ "\n"))) : xs = ys := by
  have texts := congrArg String.toList same
  rw [toList_join_lines, toList_join_lines] at texts
  have lines := ended_injective (List.forall_mem_map.mpr left) (List.forall_mem_map.mpr right) texts
  exact List.map_injective_iff.mpr (fun _ _ => String.toList_injective) lines

theorem take_one_append {front : String} (long : 1 ≤ front.toList.length) (rest : String) :
    (front ++ rest).toList.take 1 = front.toList.take 1 := by
  rw [String.toList_append, List.take_append_of_le_length long]

section Numbers

theorem isDigit_of_mem_toString {n : Nat} {c : Char} (mem : c ∈ (toString n).toList) :
    c.isDigit = true := by
  rw [Nat.toString_eq_repr, Nat.toList_repr] at mem
  exact Nat.isDigit_of_mem_toDigits (by decide) (by decide) mem

theorem not_mem_toString {c : Char} (notDigit : c.isDigit = false) (n : Nat) :
    c ∉ (toString n).toList := by
  intro mem
  rw [isDigit_of_mem_toString mem] at notDigit
  cases notDigit

theorem not_mem_toString_int {c : Char} (notDigit : c.isDigit = false) (notMinus : c ≠ '-') (z : Int) :
    c ∉ (toString z).toList := by
  rw [Int.toString_eq_repr]
  cases z with
  | ofNat n => exact not_mem_toString notDigit n
  | negSucc n =>
      have signed : (Int.negSucc n).repr = "-" ++ toString (n + 1) := rfl
      rw [signed, String.toList_append, List.mem_append, not_or]
      exact ⟨fun mem => notMinus (List.mem_singleton.mp mem), not_mem_toString notDigit (n + 1)⟩

theorem toString_append_cancel {m n : Nat} {c d : Char} {s t : List Char}
    (left : c.isDigit = false) (right : d.isDigit = false)
    (same : (toString m).toList ++ c :: s = (toString n).toList ++ d :: t) :
    m = n ∧ c :: s = d :: t := by
  have digit : ∀ k : Nat, ∀ c ∈ (toString k).toList, c.isDigit = true :=
    fun _ _ => isDigit_of_mem_toString
  obtain ⟨digits, behind⟩ := append_cons_cancel (digit m) (digit n)
    (Bool.eq_false_iff.mp left) (Bool.eq_false_iff.mp right) same
  exact ⟨Nat.repr_injective (String.toList_injective digits), behind⟩

end Numbers

end Munch.Text
