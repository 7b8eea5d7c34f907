import Mathlib.Data.List.Basic
import Munch.Text.Lines

/-!
The lines of a text and its first lines.

A text has no line feed, or it is a line, a line feed and another text (`line_induction`); its lines are
those of the other text behind the line (`lines_feed`).  The first lines of a text, taken with their line
feeds, are the beginning of the text up to a line feed (`firstLines_isPrefix`, `firstLines_succ`), and
whatever follows them adds its own lines to theirs (`lines_firstLines_append`).
-/

set_option autoImplicit false

namespace Munch.Text

/-- The beginning of a text that ends behind its line feed of the given number. -/
def firstLines : Nat → List Char → List Char
  | 0, _ => []
  | _ + 1, [] => []
  | k + 1, c :: rest => c :: firstLines (if c = '\n' then k else k + 1) rest

variable {s line rest more : List Char} {k : Nat}

/-- A text is a line without an end, or a line with a line feed before another text. -/
@[elab_as_elim]
theorem line_induction {motive : List Char → Prop} (last : ∀ line, '\n' ∉ line → motive line)
    (feed : ∀ line rest, '\n' ∉ line → motive rest → motive (line ++ '\n' :: rest))
    (s : List Char) : motive s := by
  by_cases mem : '\n' ∈ s
  · obtain ⟨line, rest, rfl, noFeed⟩ := List.eq_append_cons_of_mem mem
    exact feed line rest noFeed (line_induction last feed rest)
  · exact last s mem
termination_by s.length
decreasing_by
  subst s
  simp only [List.length_append, List.length_cons]
  omega

section Lines

/-- A character goes to the front of the first line, unless it is an end of a line. -/
theorem lines_cons {c : Char} (noFeed : c ≠ '\n') (apart : c = '\r' → rest.head? ≠ some '\n') :
    lines (c :: rest) = consLine c (lines rest) := by
  rw [lines]
  · exact noFeed
  · rintro tail rfl rfl
    exact apart rfl rfl

theorem lines_of_not_mem (noFeed : '\n' ∉ line) (nonempty : line ≠ []) : lines line = [line] := by
  induction line with
  | nil => exact absurd rfl nonempty
  | cons c rest ih =>
      rw [List.mem_cons, not_or] at noFeed
      have apart : c = '\r' → rest.head? ≠ some '\n' :=
        fun _ first => noFeed.2 (List.mem_of_mem_head? first)
      rw [lines_cons (Ne.symm noFeed.1) apart]
      cases rest with
      | nil => rfl
      | cons d rest =>
          rw [ih noFeed.2 (List.cons_ne_nil d rest)]
          rfl

theorem chopReturn_cons {c : Char} (nonempty : s ≠ []) : chopReturn (c :: s) = c :: chopReturn s := by
  obtain ⟨d, rest, rfl⟩ := List.exists_cons_of_ne_nil nonempty
  rw [chopReturn, chopReturn, List.getLast?_cons_cons]
  split <;> rfl

theorem lines_feed (noFeed : '\n' ∉ line) (rest : List Char) :
    lines (line ++ '\n' :: rest) = chopReturn line :: lines rest := by
  induction line with
  | nil => simp [lines, chopReturn]
  | cons c line ih =>
      rw [List.mem_cons, not_or] at noFeed
      have next := ih noFeed.2
      cases line with
      | nil =>
          -- a carriage return before the line feed is the only character that the line loses
          by_cases returns : c = '\r'
          · rw [returns]
            simp [lines, chopReturn]
          · rw [List.singleton_append, lines_cons (Ne.symm noFeed.1) fun same => absurd same returns]
            simp [lines, chopReturn, consLine, returns]
      | cons d line =>
          have apart : c = '\r' → ((d :: line) ++ '\n' :: rest).head? ≠ some '\n' := by
            rintro - first
            rw [List.cons_append, List.head?_cons, Option.some_inj] at first
            exact noFeed.2 (first ▸ List.mem_cons_self)
          rw [chopReturn_cons (List.cons_ne_nil d line), List.cons_append, lines_cons _ apart, next]
          · rfl
          · exact Ne.symm noFeed.1

theorem length_lines_le (s : List Char) : (lines s).length ≤ s.count '\n' + 1 := by
  induction s using line_induction with
  | last line noFeed =>
      by_cases empty : line = []
      · simp [empty, lines]
      · simp [lines_of_not_mem noFeed empty]
  | feed line rest noFeed ih =>
      rw [lines_feed noFeed, List.length_cons, List.count_append, List.count_cons_self]
      omega

end Lines

section FirstLines

theorem firstLines_isPrefix (k : Nat) (s : List Char) : firstLines k s <+: s := by
  fun_induction firstLines k s with
  | case1 => exact List.nil_prefix
  | case2 => exact List.nil_prefix
  | case3 k c rest ih => exact List.cons_prefix_cons.mpr ⟨rfl, ih⟩

theorem firstLines_feed (noFeed : '\n' ∉ line) (k : Nat) (rest : List Char) :
    firstLines (k + 1) (line ++ '\n' :: rest) = line ++ '\n' :: firstLines k rest := by
  induction line with
  | nil => rfl
  | cons c line ih =>
      rw [List.mem_cons, not_or] at noFeed
      rw [List.cons_append, firstLines, if_neg (Ne.symm noFeed.1), ih noFeed.2]
      rfl

/-- Behind the line feed of the given number the first lines end. -/
theorem firstLines_succ (ended : k < s.count '\n') :
    ∃ before, firstLines (k + 1) s = before ++ ['\n'] ∧ before.count '\n' = k := by
  induction s using line_induction generalizing k with
  | last line noFeed =>
      rw [List.count_eq_zero_of_not_mem noFeed] at ended
      cases ended
  | feed line rest noFeed ih =>
      have unfed := List.count_eq_zero_of_not_mem noFeed
      rw [firstLines_feed noFeed]
      cases k with
      | zero => exact ⟨line, by rw [firstLines], unfed⟩
      | succ k =>
          rw [List.count_append, unfed, Nat.zero_add, List.count_cons_self,
            Nat.add_lt_add_iff_right] at ended
          obtain ⟨before, same, count⟩ := ih ended
          refine ⟨line ++ '\n' :: before, ?_, ?_⟩
          · rw [same, List.append_assoc, List.cons_append]
          · rw [List.count_append, unfed, List.count_cons_self, count, Nat.zero_add]

theorem lines_firstLines_append (ended : k ≤ s.count '\n') (more : List Char) :
    lines (firstLines k s ++ more) = (lines s).take k ++ lines more := by
  induction s using line_induction generalizing k with
  | last line noFeed =>
      rw [List.count_eq_zero_of_not_mem noFeed, Nat.le_zero] at ended
      rw [ended, firstLines, List.take_zero, List.nil_append, List.nil_append]
  | feed line rest noFeed ih =>
      cases k with
      | zero =>
          rw [firstLines, List.take_zero, List.nil_append, List.nil_append]
      | succ k =>
          have count : (line ++ '\n' :: rest).count '\n' = rest.count '\n' + 1 := by
            rw [List.count_append, List.count_eq_zero_of_not_mem noFeed, Nat.zero_add,
              List.count_cons_self]
          rw [count, Nat.add_le_add_iff_right] at ended
          rw [firstLines_feed noFeed, List.append_assoc, List.cons_append, lines_feed noFeed,
            lines_feed noFeed, ih ended]
          rfl

theorem lines_firstLines (ended : k ≤ s.count '\n') : lines (firstLines k s) = (lines s).take k := by
  have alone := lines_firstLines_append ended []
  rwa [List.append_nil, lines, List.append_nil] at alone

end FirstLines

/-- A line feed alone ends a line, and a carriage return before it belongs to the end. -/
example : lines (firstLines 2 "a\r\n\nb\nc".toList) = ["a".toList, []] := by decide

end Munch.Text
