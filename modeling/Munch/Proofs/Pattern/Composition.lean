import Mathlib.Data.List.Permutation
import Munch.Proofs.Pattern.Units

/-!
Pattern texts that are put together.

A text that is parsed is read as the same symbols whatever stands behind it, since none of its units is
still open (`exists_spelled`).  So putting such texts together puts their symbols together, and the
grammar says what comes of it: in parentheses a text is a base, with any quantifiers behind it
(`AltOf.group`, `AltOf.juxtapose`), and with a bar between two texts the alternatives of the second are
appended to those of the first (`AltOf.append_bar`).
-/

set_option autoImplicit false

namespace Munch.Pattern

section Symbols

variable {u v : List Symbol} {p q : Pattern}

theorem AltOf.group (alt : AltOf u p) (qs : List Quantifier) :
    AltOf (.opening :: (u ++ .closing :: qs.map .quantifier)) (wrapAll qs p) := by
  have seq := SeqOf.next qs (SeqOf.start []) (.group alt)
  simpa [wrapAll, empty_concat] using AltOf.one seq

theorem AltOf.juxtapose (first : AltOf u p) (second : AltOf v q) :
    AltOf (.opening :: (u ++ .closing :: .opening :: (v ++ [.closing]))) (concat p q) := by
  have seq := SeqOf.next [] (SeqOf.start []) (.group first)
  simpa [wrapAll, empty_concat] using AltOf.one (.next [] seq (.group second))

theorem AltOf.append_bar {v : List Symbol} {q : Pattern} (first : AltOf u p) (second : AltOf v q) :
    AltOf (u ++ .bar :: v) (alternate p q) := by
  cases second with
  | one seq => exact .more first seq
  | more alt seq =>
      have front := first.append_bar alt
      rw [← alternate_assoc]
      simpa using front.more seq
termination_by v.length
decreasing_by simp

end Symbols

section Text

variable {u : Universe} {text : List Char} {p : Pattern}

/-- Nothing that stands behind a text changes the pieces that it is read as. -/
theorem readPieces_append {pieces : List Piece} (read : readPieces text = (pieces, none))
    (rest : List Char) :
    readPieces (text ++ rest) = (pieces ++ (readPieces rest).1, (readPieces rest).2) := by
  fun_induction readPieces text generalizing pieces with
  | case1 =>
      cases read
      rfl
  | case2 => cases read
  | case3 c text piece behind here later error next ih =>
      cases read
      obtain ⟨used, rfl, -, takes⟩ := exists_unitText here
      rw [List.cons_append, List.append_assoc, readPieces_cons (takes _), ih next]
      rfl

theorem exists_spelled (parsed : parseChars u text = .ok p) :
    ∃ v, Spelled u text v ∧ AltOf v p := by
  obtain ⟨pieces, v, read, spells, alt⟩ := exists_pieces_of_parseChars parsed
  exact ⟨v, ⟨pieces, spells, readPieces_append read⟩, alt⟩

end Text

/-- Texts of patterns compose: in parentheses, side by side in parentheses, with a bar between them,
and in parentheses with a quantifier they are the texts of what is put together of the patterns. -/
theorem parse_compose {u : Universe} {s t : String} {p q : Pattern} (first : parse u s = .ok p)
    (second : parse u t = .ok q) :
    parse u ("(" ++ s ++ ")") = .ok p ∧
      parse u ("(" ++ s ++ ")(" ++ t ++ ")") = .ok (concat p q) ∧
      parse u (s ++ "|" ++ t) = .ok (alternate p q) ∧
      parse u ("(" ++ s ++ ")?") = .ok (.optional p) ∧
      parse u ("(" ++ s ++ ")+") = .ok (.repetition p) ∧
      parse u ("(" ++ s ++ ")*") = .ok (.zeroOrMore p) := by
  obtain ⟨v, spelledV, altV⟩ := exists_spelled first
  obtain ⟨w, spelledW, altW⟩ := exists_spelled second
  have quantified := fun qs behind (spelled : Spelled u behind (qs.map .quantifier)) =>
    (spelledV.group spelled).parseChars_eq (altV.group qs)
  refine ⟨?_, ?_, ?_, ?_, ?_, ?_⟩
  · simpa [parse, wrapAll, Quantifier.wrap] using quantified [] [] (.nil u)
  · have side := spelledV.group (spelledW.group (.nil u))
    simpa [parse] using side.parseChars_eq (altV.juxtapose altW)
  · have sides := spelledV.append ((spelled_bar u).append spelledW)
    simpa [parse] using sides.parseChars_eq (altV.append_bar altW)
  · simpa [parse, wrapAll, Quantifier.wrap] using quantified [.optional] ['?'] (spelled_optional u)
  · simpa [parse, wrapAll, Quantifier.wrap] using quantified [.oneOrMore] ['+'] (spelled_oneOrMore u)
  · simpa [parse, wrapAll, Quantifier.wrap] using quantified [.zeroOrMore] ['*'] (spelled_zeroOrMore u)

/-- The last alternative of the first text does not take the escape of the second one with it. -/
theorem parse_compose_alternatives :
    parse .ascii "a|b+" = .ok (.alternation [.literal [97], .repetition (.literal [98])]) ∧
      parse .ascii "\\x2a|" = .ok (.alternation [.literal [42], .empty]) ∧
      parse .ascii ("a|b+" ++ "|" ++ "\\x2a|") =
        .ok (.alternation [.literal [97], .repetition (.literal [98]), .literal [42], .empty]) ∧
      parse .ascii ("(" ++ "a|b+" ++ ")(" ++ "\\x2a|" ++ ")") =
        .ok (.sequence [.alternation [.literal [97], .repetition (.literal [98])],
          .alternation [.literal [42], .empty]]) := by
  have first : parse .ascii "a|b+" =
      .ok (.alternation [.literal [97], .repetition (.literal [98])]) := by
    cbv
  have second : parse .ascii "\\x2a|" = .ok (.alternation [.literal [42], .empty]) := by
    cbv
  obtain ⟨-, juxtaposed, barred, -⟩ := parse_compose first second
  exact ⟨first, second, barred, juxtaposed⟩

end Munch.Pattern
