import Munch.Proofs.Pattern.Faults
import Munch.Proofs.Pattern.Stages

/-!
Hexadecimal escapes.

Behind `\x` stand two hexadecimal digits of a byte, or a plus sign and one digit (`HexEscape`).
Whatever is being read when such an escape comes, reading goes on behind it with the byte, and with
anything else behind `\x` the text is no pattern (`parse_hexEscape`).  No text fails for an invalid
escape otherwise (`parse_eq_invalidEscape_iff`).
-/

set_option autoImplicit false

namespace Munch.Pattern

/-- What may stand behind `\x`, the byte that it means, and the text behind the escape. -/
inductive HexEscape : List Char → UInt8 → List Char → Prop where
  | digits {c d : Char} {hi lo : Nat} {b : UInt8} {rest : List Char}
      (high : Text.hexValue? c = some hi) (low : Text.hexValue? d = some lo)
      (value : b.toNat = 16 * hi + lo) : HexEscape (c :: d :: rest) b rest
  | signed {d : Char} {lo : Nat} {b : UInt8} {rest : List Char} (low : Text.hexValue? d = some lo)
      (value : b.toNat = lo) : HexEscape ('+' :: d :: rest) b rest

section Read

variable {c d : Char} {b : UInt8} {behind rest : List Char} {value : Nat}

theorem HexEscape.of_hexPair? (pair : hexPair? c d = some value) :
    HexEscape (c :: d :: rest) (UInt8.ofNat value) rest := by
  unfold hexPair? at pair
  split at pair
  · rename_i hi lo high low
    cases pair
    have := Text.hexValue?_lt high
    have := Text.hexValue?_lt low
    exact .digits high low (UInt8.toNat_ofNat_of_lt' (by simp only [UInt8.size]; omega))
  · rename_i lo high low
    split at pair
    · rename_i plus
      cases pair
      subst plus
      have := Text.hexValue?_lt low
      exact .signed low (UInt8.toNat_ofNat_of_lt' (by simp only [UInt8.size]; omega))
    · cases pair
  · cases pair

theorem HexEscape.readEscape_eq (escape : HexEscape behind b rest) :
    readEscape ('x' :: behind) = .ok (.byte b, rest) := by
  cases escape with
  | digits high low value =>
      simp only [readEscape, hexPair?, high, low]
      rw [← value, UInt8.ofNat_toNat]
  | signed low value =>
      have plus : Text.hexValue? '+' = none := by decide
      simp only [readEscape, hexPair?, plus, low, if_pos]
      rw [← value, UInt8.ofNat_toNat]

theorem readEscape_eq_error (noEscape : ∀ b rest, ¬ HexEscape behind b rest) :
    readEscape ('x' :: behind) = .error (.invalidEscape ('x' :: behind.take 2)) := by
  match behind with
  | [] => rfl
  | [c] => rfl
  | c :: d :: rest =>
      cases pair : hexPair? c d with
      | none => simp only [readEscape, pair, List.take_succ_cons, List.take_zero]
      | some value => exact absurd (.of_hexPair? pair) (noEscape _ rest)

end Read

theorem ComesTo.parseChars_eq_escape {u : Universe} {text behind : List Char} {s : Stage}
    (comes : ComesTo u text s ('\\' :: behind)) :
    parseChars u text = Stage.settle (do
      let r ← readEscape behind
      s.take r.1 r.2) := by
  rw [comes.parseChars_eq, Stage.run_cons]
  cases read : readEscape behind with
  | error e =>
      rw [Stage.next_of_error (s.mark?_escape behind) ((if_pos rfl).trans read)]
      rfl
  | ok r =>
      rw [Stage.next_of_member (s.mark?_escape behind) ((if_pos rfl).trans read)]
      rfl

/-- An escape of two hexadecimal digits, or of a plus sign and one, is a byte wherever members are
read, and whatever else stands behind `\x` is reported as far as it was read. -/
theorem parse_hexEscape {u : Universe} {text : String} {s : Stage} {behind : List Char}
    (comes : ComesTo u text.toList s ('\\' :: 'x' :: behind)) :
    (∀ b rest, HexEscape behind b rest →
      parse u text = Stage.settle (s.take (.byte b) rest)) ∧
    ((∀ b rest, ¬ HexEscape behind b rest) →
      parse u text = .error (.invalidEscape ('x' :: behind.take 2))) := by
  rw [parse, comes.parseChars_eq_escape]
  constructor
  · intro b rest escape
    rw [escape.readEscape_eq]
    rfl
  · intro noEscape
    rw [readEscape_eq_error noEscape]
    rfl

section Otherwise

variable {b : Builder} {piece : Piece} {s : Stage} {m : Member} {c : Char}
  {text rest t : List Char}

theorem reduce_ne_invalidEscape (rank : Nat) (operands : List Pattern) (ops : List Op) :
    (reduce rank operands ops).1 ≠ some (.invalidEscape t) := by
  fun_induction reduce rank operands ops <;> simp_all

theorem closeGroup_ne_invalidEscape (operands : List Pattern) (ops : List Op) :
    (closeGroup operands ops).1 ≠ some (.invalidEscape t) := by
  fun_induction closeGroup operands ops <;> simp_all

theorem applyAll_ne_invalidEscape (operands : List Pattern) (ops : List Op) :
    applyAll operands ops ≠ .error (.invalidEscape t) := by
  fun_induction applyAll operands ops <;> simp_all

namespace Builder

theorem after_ne_invalidEscape (rank : Nat) (change : Stacks → Stacks) :
    (b.after rank change).1 ≠ some (.invalidEscape t) := by
  have reduced : (reduce rank b.pending.operands b.pending.operators).1 ≠
      some (.invalidEscape t) := reduce_ne_invalidEscape _ _ _
  unfold after
  split <;> simp_all

theorem push_ne_invalidEscape : (b.push piece).1 ≠ some (.invalidEscape t) := by
  cases piece with
  | atom p => exact after_ne_invalidEscape _ _
  | cls cls =>
      rw [push, pushClass]
      cases found : cls.toPattern b.alphabet with
      | ok p => exact after_ne_invalidEscape _ _
      | error e =>
          obtain ⟨x, rfl⟩ := Class.toPattern_error found
          simp
  | operator c =>
      rw [push]
      unfold pushOperator
      split
      case h_3 => exact closeGroup_ne_invalidEscape _ _
      case h_8 => simp
      all_goals exact after_ne_invalidEscape _ _

end Builder

namespace Stage

theorem hand_ne_invalidEscape : hand b piece rest ≠ .error (.invalidEscape t) := by
  have pushed : (b.push piece).1 ≠ some (.invalidEscape t) := Builder.push_ne_invalidEscape
  unfold hand
  split <;> simp_all

theorem take_ne_invalidEscape : s.take m rest ≠ .error (.invalidEscape t) := by
  cases s with
  | outside b => exact hand_ne_invalidEscape
  | quoted b bytes => simp [take]
  | members b cls =>
      rw [take]
      split <;> simp
  | bound b cls lo =>
      rw [take]
      cases grown : cls.addInterval lo m with
      | ok cls' => simp [Except.map]
      | error e =>
          rcases Class.addInterval_error grown with ⟨x, rfl⟩ | ⟨l, h, rfl⟩ <;> simp [Except.map]

theorem mark?_ne_invalidEscape : s.mark? c text ≠ some (.error (.invalidEscape t)) := by
  have handed {b : Builder} {piece : Piece} :
      some (hand b piece text) ≠ some (.error (.invalidEscape t)) := fun same =>
    hand_ne_invalidEscape (Option.some.inj same)
  unfold mark?
  split
  case h_1 =>
    split
    · simp
    split
    · simp
    split
    · exact handed
    · simp
  case h_4 => simp
  all_goals
    split
    · exact handed
    · simp

theorem readEscape_of_next (failed : s.next c text = .error (.invalidEscape t)) :
    c = '\\' ∧ readEscape text = .error (.invalidEscape t) := by
  unfold next at failed
  split at failed
  · rename_i marked
    rw [failed] at marked
    exact absurd marked mark?_ne_invalidEscape
  split at failed
  · rename_i read
    rw [readMember] at read
    split at read
    · rename_i escape
      cases failed
      exact ⟨escape, read⟩
    · cases read
  · exact absurd failed take_ne_invalidEscape

end Stage

theorem exists_of_readEscape (failed : readEscape text = .error (.invalidEscape t)) :
    ∃ behind, text = 'x' :: behind ∧ (∀ b rest, ¬ HexEscape behind b rest) ∧
      t = 'x' :: behind.take 2 := by
  have hex : ∃ behind, text = 'x' :: behind := by
    unfold readEscape at failed
    split at failed
    case h_5 => exact ⟨_, rfl⟩
    case h_6 => exact ⟨_, rfl⟩
    all_goals cases failed
  obtain ⟨behind, rfl⟩ := hex
  have noEscape : ∀ b rest, ¬ HexEscape behind b rest := by
    intro b rest escape
    rw [escape.readEscape_eq] at failed
    cases failed
  rw [readEscape_eq_error noEscape] at failed
  cases failed
  exact ⟨behind, rfl, noEscape, rfl⟩

/-- A text fails for an invalid escape exactly if reading comes to one. -/
theorem parse_eq_invalidEscape_iff {u : Universe} {text : String} :
    parse u text = .error (.invalidEscape t) ↔
      ∃ s behind, ComesTo u text.toList s ('\\' :: 'x' :: behind) ∧
        (∀ b rest, ¬ HexEscape behind b rest) ∧ t = 'x' :: behind.take 2 := by
  constructor
  · intro failed
    have run : (Stage.outside (.new u)).run text.toList = .error (.invalidEscape t) := by
      rw [← ComesTo.start.parseChars_eq]
      exact failed
    rcases ComesTo.start.exists_failure run with ⟨s, c, rest, comes, moves⟩ | ⟨s, -, ended⟩
    · obtain ⟨rfl, read⟩ := Stage.readEscape_of_next moves
      obtain ⟨behind, rfl, noEscape, same⟩ := exists_of_readEscape read
      exact ⟨s, behind, comes, noEscape, same⟩
    · cases s with
      | outside b =>
          rw [Stage.run] at ended
          exact absurd ended (applyAll_ne_invalidEscape _ _)
      | quoted b bytes => rw [Stage.run] at ended; cases ended
      | members b cls => rw [Stage.run] at ended; cases ended
      | bound b cls lo => rw [Stage.run] at ended; cases ended
  · rintro ⟨s, behind, comes, noEscape, rfl⟩
    rw [parse, comes.parseChars_eq_escape, readEscape_eq_error noEscape]
    rfl

end Otherwise

theorem comesTo_bound : ComesTo .ascii "[!-\\x7e]".toList
    (.bound (.new .ascii) .empty (.char '!')) ['\\', 'x', '7', 'e', ']'] :=
  .step (.step .start rfl) rfl

theorem parse_hexEscape_bound :
    ComesTo .ascii "[!-\\x7e]".toList (.bound (.new .ascii) .empty (.char '!'))
      ['\\', 'x', '7', 'e', ']'] ∧
    HexEscape ['7', 'e', ']'] 126 [']'] ∧
    parse .ascii "[!-\\x7e]" =
      Stage.settle ((Stage.bound (.new .ascii) .empty (.char '!')).take (.byte 126) [']']) := by
  have high : Text.hexValue? '7' = some 7 := by decide
  have low : Text.hexValue? 'e' = some 14 := by decide
  have escape : HexEscape ['7', 'e', ']'] 126 [']'] := .digits high low rfl
  exact ⟨comesTo_bound, escape, (parse_hexEscape comesTo_bound).1 126 [']'] escape⟩

/-- A plus sign stands for the first digit. -/
theorem not_parse_hexEscape_digits :
    ¬ ∀ (u : Universe) (text : String) (s : Stage) (behind : List Char),
      ComesTo u text.toList s ('\\' :: 'x' :: behind) →
      (∀ c d rest, behind = c :: d :: rest →
        Text.hexValue? c = none ∨ Text.hexValue? d = none) →
      parse u text = .error (.invalidEscape ('x' :: behind.take 2)) := by
  intro refused
  have comes : ComesTo .ascii "\\x+f".toList (.outside (.new .ascii)) ['\\', 'x', '+', 'f'] := .start
  have failed := refused .ascii "\\x+f" _ _ comes fun c d rest same => by
    cases same
    exact .inl (by decide)
  have accepted : parse .ascii "\\x+f" = .ok (.literal [15]) := by
    rw [parse, comes.parseChars_eq_escape]
    change Stage.run _ [] = _
    rw [Stage.run]
    rfl
  rw [accepted] at failed
  cases failed

end Munch.Pattern
