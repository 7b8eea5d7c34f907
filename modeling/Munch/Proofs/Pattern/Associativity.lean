import Munch.Proofs.Pattern.Assembly
import Munch.Proofs.Pattern.RoundTrip

/-!
The algebra of tidy patterns.

Appending items to items is associative, even where a literal melts into one that has just melted
into another (`foldl_appendItem_assoc`).  Tidy patterns give the items back that they were put
together of (`Tidy.sequenceItems_concat`), so their concatenation is associative, with the empty
literal as its identity (`Tidy.concat_assoc`).  Tidy patterns are exactly what texts are parsed to
(`tidy_iff_parse`).
-/

set_option autoImplicit false

namespace Munch.Pattern

section Items

variable {p q : Pattern} {xs ys : List Pattern}

theorem foldl_appendItem_appendItem (xs ys : List Pattern) (q : Pattern) :
    (appendItem ys q).foldl appendItem xs = appendItem (ys.foldl appendItem xs) q := by
  rcases ys.eq_nil_or_concat' with rfl | ⟨zs, p, rfl⟩
  · simp [appendItem_nil]
  · by_cases apart : p.isLiteral = false ∨ q.isLiteral = false
    · simp [appendItem_apart apart]
    · obtain ⟨a, b, rfl, rfl⟩ := exists_literals apart
      -- the items before end in the bytes `c`, which both literals melt into
      obtain ⟨ws, c, added⟩ := exists_appendItem_literal (zs.foldl appendItem xs)
      simp [appendItem_literal, added]

theorem foldl_appendItem_assoc (xs ys zs : List Pattern) :
    zs.foldl appendItem (ys.foldl appendItem xs) =
      (zs.foldl appendItem ys).foldl appendItem xs := by
  induction zs generalizing ys with
  | nil => rfl
  | cons q rest ih =>
      rw [List.foldl_cons, List.foldl_cons, ← foldl_appendItem_appendItem, ih]

theorem Spaced.foldl_appendItem (spaced : Spaced xs) (items : ∀ q ∈ ys, IsItem q) :
    Spaced (ys.foldl Pattern.appendItem xs) := by
  induction ys generalizing xs with
  | nil => exact spaced
  | cons q rest ih =>
      exact ih (spaced.appendItem (items q (by simp))) fun r mem => items r (by simp [mem])

theorem eq_empty_or_filled (p : Pattern) : p = .empty ∨ p.isEmpty = false := by
  cases p with
  | literal bytes => cases bytes <;> simp [empty, isEmpty]
  | _ => exact .inr rfl

end Items

namespace Tidy

variable {p q r : Pattern}

theorem sequenceItems_concat (first : Tidy p) (second : Tidy q) (filledP : p.isEmpty = false)
    (filledQ : q.isEmpty = false) :
    (Pattern.concat p q).sequenceItems = q.sequenceItems.foldl appendItem p.sequenceItems ∧
      (Pattern.concat p q).isEmpty = false := by
  obtain ⟨-, spaced, -⟩ := first.sequenceItems filledP
  obtain ⟨-, items, -⟩ := second.sequenceItems filledQ
  have joined := spaced.foldl_appendItem items.each
  rw [concat_eq filledP filledQ]
  exact ⟨joined.sequenceItems, joined.isEmpty_eq_false⟩

theorem concat_assoc (first : Tidy p) (second : Tidy q) (third : Tidy r) :
    Pattern.concat (Pattern.concat p q) r = Pattern.concat p (Pattern.concat q r) := by
  rcases eq_empty_or_filled p with rfl | filledP
  · rw [empty_concat, empty_concat]
  rcases eq_empty_or_filled q with rfl | filledQ
  · rw [concat_empty, empty_concat]
  rcases eq_empty_or_filled r with rfl | filledR
  · rw [concat_empty, concat_empty]
  obtain ⟨front, filledFront⟩ := first.sequenceItems_concat second filledP filledQ
  obtain ⟨back, filledBack⟩ := second.sequenceItems_concat third filledQ filledR
  rw [concat_eq filledFront filledR, concat_eq filledP filledBack, front, back,
    foldl_appendItem_assoc]

end Tidy

/-- Tidy patterns are exactly what texts are parsed to. -/
theorem tidy_iff_parse {u : Universe} {p : Pattern} : Tidy p ↔ ∃ text, parse u text = .ok p := by
  constructor
  · intro tidy
    refine ⟨p.text, ?_⟩
    rw [parse, Pattern.text, String.toList_ofList]
    exact parseChars_print tidy u
  · intro found
    obtain ⟨text, parsed⟩ := found
    exact parseChars_tidy parsed

/-- Patterns put together match what their parts match, one after the other or either of them, whatever
the parts are.  Of tidy parts the result is tidy, and both ways of putting together are associative, with
the empty literal as the identity of concatenation.  Tidy patterns are what texts are parsed to. -/
theorem assembly_laws (p q r : Pattern) (u : Universe) :
    (concat p q).language = p.language * q.language ∧
      (alternate p q).language = p.language + q.language ∧
      (Tidy p → Tidy q → Tidy (concat p q) ∧ Tidy (alternate p q)) ∧
      (Tidy p → Tidy q → Tidy r → concat (concat p q) r = concat p (concat q r)) ∧
      concat .empty p = p ∧ concat p .empty = p ∧
      alternate (alternate p q) r = alternate p (alternate q r) ∧
      (Tidy p ↔ ∃ text, parse u text = .ok p) := by
  refine ⟨language_concat p q, language_alternate p q, fun first second => ?_,
    Tidy.concat_assoc, empty_concat p, concat_empty p, alternate_assoc p q r, tidy_iff_parse⟩
  exact ⟨first.concat second, first.alternate second⟩

theorem assembly_laws_literals :
    Tidy (.sequence [.zeroOrMore (.literal [97]), .literal [98]]) ∧ Tidy (.literal [99]) ∧
      Tidy (.sequence [.literal [100], .optional .empty]) ∧
      concat (concat (.sequence [.zeroOrMore (.literal [97]), .literal [98]]) (.literal [99]))
          (.sequence [.literal [100], .optional .empty]) =
        .sequence [.zeroOrMore (.literal [97]), .literal [98, 99, 100], .optional .empty] ∧
      concat (.sequence [.zeroOrMore (.literal [97]), .literal [98]])
          (concat (.literal [99]) (.sequence [.literal [100], .optional .empty])) =
        .sequence [.zeroOrMore (.literal [97]), .literal [98, 99, 100], .optional .empty] := by
  have first : Tidy (.sequence [.zeroOrMore (.literal [97]), .literal [98]]) :=
    parseChars_tidy (by cbv : parseChars .ascii ['a', '*', 'b'] = _)
  have third : Tidy (.sequence [.literal [100], .optional .empty]) :=
    parseChars_tidy (by cbv : parseChars .ascii ['d', '(', ')', '?'] = _)
  obtain ⟨-, -, -, associates, -⟩ := assembly_laws
    (.sequence [.zeroOrMore (.literal [97]), .literal [98]]) (.literal [99])
    (.sequence [.literal [100], .optional .empty]) .ascii
  have same := associates first (.literal [99]) third
  exact ⟨first, .literal [99], third, rfl, same.symm⟩

end Munch.Pattern
