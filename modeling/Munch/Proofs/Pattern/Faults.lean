import Munch.Pattern.Reader

/-!
What reading fails for.

A unit of text fails for what is wrong inside it (`Error.OfUnit`): parentheses and operands are the
business of the builder (`readPieces_spec`).  A class fails for a range the wrong way round, or for a
character of several bytes where one byte has to be (`Class.addInterval_error`,
`Class.toPattern_error`).
-/

set_option autoImplicit false

namespace Munch.Pattern

/-- What is wrong with a unit of text or with a class. -/
def Error.OfUnit : Error → Prop
  | .unclosedClass | .invertedRange _ _ | .wideMember _ => True
  | .invalidEscape _ | .trailingEscape | .unclosedQuote => True
  | .unopenedGroup | .unclosedGroup | .unknownOperator _ | .missingOperand _ => False

section Class

variable {e : Error} {m lo hi : Member} {cls : Class}

theorem Member.single_error (failed : m.single = .error e) : ∃ x, e = .wideMember x := by
  unfold single at failed
  split at failed
  · cases failed
  · split at failed <;> cases failed
    exact ⟨_, rfl⟩

theorem Class.addInterval_error (failed : cls.addInterval lo hi = .error e) :
    (∃ x, e = .wideMember x) ∨ ∃ l h, e = .invertedRange l h := by
  unfold addInterval at failed
  split at failed
  · rename_i low
    cases failed
    exact .inl (Member.single_error low)
  · rename_i high
    cases failed
    exact .inl (Member.single_error high)
  · rw [addRange] at failed
    split at failed <;> cases failed
    exact .inr ⟨_, _, rfl⟩

theorem Class.toPattern_error {u : Universe} (failed : cls.toPattern u = .error e) :
    ∃ x, e = .wideMember x := by
  unfold toPattern at failed
  split at failed
  · cases failed
    exact ⟨_, rfl⟩
  · cases failed
  · cases failed
  · split at failed <;> cases failed

end Class

section Reading

variable {c : Char} {text rest : List Char} {e : Error}

theorem readEscape_error (failed : readEscape text = .error e) : e.OfUnit := by
  unfold readEscape at failed
  split at failed
  case h_1 =>
    cases failed
    trivial
  case h_5 =>
    split at failed <;> cases failed
    trivial
  case h_6 =>
    cases failed
    trivial
  all_goals cases failed

theorem readMember_error (failed : readMember c text = .error e) : e.OfUnit := by
  rw [readMember] at failed
  split at failed
  · exact readEscape_error failed
  · cases failed

theorem readMembers_error {cls : Class} (failed : readMembers cls text = .error e) : e.OfUnit := by
  fun_induction readMembers cls text with
  | case1 =>
      cases failed
      trivial
  | case2 => cases failed
  | case3 _ _ _ _ _ loFailed =>
      cases failed
      exact readMember_error loFailed
  | case4 _ _ _ _ _ _ _ _ ih => exact ih failed
  | case5 _ _ _ _ _ _ _ _ _ _ _ hiFailed =>
      cases failed
      exact readMember_error hiFailed
  | case6 _ _ _ _ _ _ _ _ _ _ _ _ _ _ grows =>
      cases failed
      rcases Class.addInterval_error grows with ⟨x, rfl⟩ | ⟨l, h, rfl⟩ <;> trivial
  | case7 _ _ _ _ _ _ _ _ _ _ _ _ _ _ _ ih => exact ih failed

theorem readQuoted_error {bytes : List UInt8} (failed : readQuoted bytes text = .error e) :
    e.OfUnit := by
  fun_induction readQuoted bytes text with
  | case1 =>
      cases failed
      trivial
  | case2 => cases failed
  | case3 _ _ _ _ _ memberFailed =>
      cases failed
      exact readMember_error memberFailed
  | case4 _ _ _ _ _ _ _ ih => exact ih failed

theorem readClass_error (failed : readClass text = .error e) : e.OfUnit := by
  unfold readClass at failed
  split at failed <;> exact readMembers_error failed

theorem error_of_map {α β : Type} {r : Except Error α} {f : α → β} (failed : r.map f = .error e) :
    r = .error e := by
  cases r with
  | error e' =>
      cases failed
      rfl
  | ok a => cases failed

theorem readPiece_error (failed : readPiece c text = .error e) : e.OfUnit := by
  unfold readPiece at failed
  split at failed
  · exact readEscape_error (error_of_map failed)
  split at failed
  · exact readClass_error (error_of_map failed)
  split at failed
  · exact readQuoted_error (error_of_map failed)
  · split at failed <;> cases failed

theorem readPiece_isOperator {x : Char} (read : readPiece c text = .ok (.operator x, rest)) :
    isOperator x = true := by
  have mapped : ∀ {α : Type} {r : Except Error (α × List Char)} {f : α → Piece},
      (∀ a, f a ≠ .operator x) → r.map (fun r => (f r.1, r.2)) ≠ .ok (.operator x, rest) := by
    intro α r f other same
    cases r with
    | error e => cases same
    | ok pair =>
        rw [Except.map, Except.ok.injEq, Prod.mk.injEq] at same
        exact other pair.1 same.1
  unfold readPiece at read
  split at read
  · exact absurd read (mapped (f := Member.piece) fun m => nofun)
  split at read
  · exact absurd read (mapped (f := Piece.cls) fun cls => nofun)
  split at read
  · exact absurd read (mapped (f := fun bytes => .atom (.literal bytes)) fun bytes => nofun)
  split at read
  · rename_i known
    cases read
    exact known
  · cases read

/-- The pieces of a text hold no unknown operator, and a unit is wrong if they break off. -/
theorem readPieces_spec (text : List Char) :
    (∀ x, .operator x ∈ (readPieces text).1 → isOperator x = true) ∧
      ∀ e, (readPieces text).2 = some e → e.OfUnit := by
  fun_induction readPieces text with
  | case1 => exact ⟨nofun, nofun⟩
  | case2 c text e failed =>
      refine ⟨nofun, fun e' same => ?_⟩
      cases same
      exact readPiece_error failed
  | case3 c text piece rest read pieces error later ih =>
      rw [later] at ih
      refine ⟨fun x mem => ?_, ih.2⟩
      rcases List.mem_cons.mp mem with here | behind
      · subst here
        exact readPiece_isOperator read
      · exact ih.1 x behind

end Reading

end Munch.Pattern
