import Munch.Pattern.Builder
import Munch.Text.Hex

/-!
Reading pattern text.

The text is cut into pieces from the left: an escape, a class in brackets, a literal in quotes, an
operator, or a character that stands for itself.  The pieces go to a builder in order.  Cutting
stops at the first piece that cannot be read; its error counts only if the builder took everything
before it.

The reading functions give what they read and the text after it, which is never longer than the text
they were given.
-/

set_option autoImplicit false

namespace Munch.Pattern

/-- The value of two digits of a hexadecimal escape.  A plus sign may stand for the first digit. -/
def hexPair? (c d : Char) : Option Nat :=
  match Text.hexValue? c, Text.hexValue? d with
  | some hi, some lo => some (16 * hi + lo)
  | none, some lo => if c = '+' then some lo else none
  | _, none => none

def readEscape : List Char → Except Error (Member × List Char)
  | [] => .error .trailingEscape
  | 'n' :: rest => .ok (.byte 10, rest)
  | 'r' :: rest => .ok (.byte 13, rest)
  | 't' :: rest => .ok (.byte 9, rest)
  | 'x' :: c :: d :: rest =>
      match hexPair? c d with
      | some value => .ok (.byte (UInt8.ofNat value), rest)
      | none => .error (.invalidEscape ['x', c, d])
  | 'x' :: rest => .error (.invalidEscape ('x' :: rest))
  | c :: rest => .ok (.char c, rest)

def readMember (c : Char) (rest : List Char) : Except Error (Member × List Char) :=
  if c = '\\' then readEscape rest else .ok (.char c, rest)

theorem readEscape_length {text : List Char} {m : Member} {rest : List Char}
    (read : readEscape text = .ok (m, rest)) : rest.length < text.length := by
  unfold readEscape at read
  split at read
  case h_1 => simp at read
  case h_5 =>
    split at read
    · simp only [Except.ok.injEq, Prod.mk.injEq] at read
      obtain ⟨_, rfl⟩ := read
      simp only [List.length_cons]
      omega
    · simp at read
  case h_6 => simp at read
  all_goals
    simp only [Except.ok.injEq, Prod.mk.injEq] at read
    obtain ⟨_, rfl⟩ := read
    simp

theorem readMember_length {c : Char} {text : List Char} {m : Member} {rest : List Char}
    (read : readMember c text = .ok (m, rest)) : rest.length ≤ text.length := by
  unfold readMember at read
  split at read
  · exact Nat.le_of_lt (readEscape_length read)
  · simp only [Except.ok.injEq, Prod.mk.injEq] at read
    obtain ⟨_, rfl⟩ := read
    exact Nat.le_refl _

/-- The text from the upper bound of a range on, if a minus sign and a bound follow.  A minus sign
before the closing bracket or at the end of the text makes no range. -/
def rangeEnd? : List Char → Option (Char × List Char)
  | '-' :: c :: rest => if c = ']' then none else some (c, rest)
  | _ => none

theorem rangeEnd?_length {text : List Char} {c : Char} {rest : List Char}
    (found : rangeEnd? text = some (c, rest)) : rest.length < text.length := by
  unfold rangeEnd? at found
  split at found
  · split at found
    · simp at found
    · simp only [Option.some.injEq, Prod.mk.injEq] at found
      obtain ⟨_, rfl⟩ := found
      simp only [List.length_cons]
      omega
  · simp at found

/-- Reads the members of a class up to its closing bracket.  A member that a range begins with makes
the range together with the next member. -/
def readMembers (cls : Class) : List Char → Except Error (Class × List Char)
  | [] => .error .unclosedClass
  | ']' :: rest => .ok (cls, rest)
  | c :: text =>
      match _loRead : readMember c text with
      | .error e => .error e
      | .ok (lo, afterLo) =>
          match _range : rangeEnd? afterLo with
          | none => readMembers (cls.addMember lo) afterLo
          | some (d, text') =>
              match _hiRead : readMember d text' with
              | .error e => .error e
              | .ok (hi, afterHi) =>
                  match cls.addInterval lo hi with
                  | .error e => .error e
                  | .ok cls' => readMembers cls' afterHi
termination_by text => text.length
decreasing_by
  · have loShorter := readMember_length _loRead
    simp only [List.length_cons]
    omega
  · have loShorter := readMember_length _loRead
    have rangeShorter := rangeEnd?_length _range
    have hiShorter := readMember_length _hiRead
    simp only [List.length_cons]
    omega

theorem readMembers_length {cls : Class} {text : List Char} {found : Class} {rest : List Char}
    (read : readMembers cls text = .ok (found, rest)) : rest.length < text.length := by
  fun_induction readMembers cls text with
  | case1 => simp at read
  | case2 => simp_all
  | case3 => simp at read
  | case4 _ _ _ _ _ _ loRead _ next =>
      have loShorter := readMember_length loRead
      have shorter := next read
      simp only [List.length_cons]
      omega
  | case5 => simp at read
  | case6 => simp at read
  | case7 _ _ _ _ _ _ loRead _ _ range _ _ hiRead _ _ next =>
      have loShorter := readMember_length loRead
      have rangeShorter := rangeEnd?_length range
      have hiShorter := readMember_length hiRead
      have shorter := next read
      simp only [List.length_cons]
      omega

def readClass : List Char → Except Error (Class × List Char)
  | '^' :: rest => readMembers Class.empty.negate rest
  | text => readMembers Class.empty text

def readQuoted (bytes : List UInt8) : List Char → Except Error (List UInt8 × List Char)
  | [] => .error .unclosedQuote
  | '"' :: rest => .ok (bytes, rest)
  | c :: text =>
      match _read : readMember c text with
      | .error e => .error e
      | .ok (m, rest) => readQuoted (bytes ++ m.bytes) rest
termination_by text => text.length
decreasing_by
  have shorter := readMember_length _read
  simp only [List.length_cons]
  omega

def isOperator (c : Char) : Bool :=
  c = '.' || c = '?' || c = '*' || c = '+' || c = '|' || c = '(' || c = ')'

def Member.piece (m : Member) : Piece :=
  .atom (.literal m.bytes)

theorem readClass_length {text : List Char} {cls : Class} {rest : List Char}
    (read : readClass text = .ok (cls, rest)) : rest.length < text.length := by
  unfold readClass at read
  split at read
  · have shorter := readMembers_length read
    simp only [List.length_cons]
    omega
  · exact readMembers_length read

theorem readQuoted_length {bytes : List UInt8} {text : List Char} {found : List UInt8}
    {rest : List Char} (read : readQuoted bytes text = .ok (found, rest)) :
    rest.length < text.length := by
  fun_induction readQuoted bytes text with
  | case1 => simp at read
  | case2 => simp_all
  | case3 => simp at read
  | case4 _ _ _ _ _ _ itemRead next =>
      have itemShorter := readMember_length itemRead
      have shorter := next read
      simp only [List.length_cons]
      omega

/-- Reads the piece that starts with the given character. -/
def readPiece (c : Char) (rest : List Char) : Except Error (Piece × List Char) :=
  if c = '\\' then (readEscape rest).map fun r => (r.1.piece, r.2)
  else if c = '[' then (readClass rest).map fun r => (.cls r.1, r.2)
  else if c = '"' then (readQuoted [] rest).map fun r => (.atom (.literal r.1), r.2)
  else if isOperator c then .ok (.operator c, rest)
  else .ok ((Member.char c).piece, rest)

theorem readPiece_length {c : Char} {text : List Char} {piece : Piece} {rest : List Char}
    (read : readPiece c text = .ok (piece, rest)) : rest.length ≤ text.length := by
  have mapped {α : Type} {r : Except Error (α × List Char)} (f : α → Piece)
      (eq : r.map (fun r => (f r.1, r.2)) = .ok (piece, rest)) :
      ∃ a, r = .ok (a, rest) := by
    cases r with
    | error e => simp [Except.map] at eq
    | ok pair =>
        simp only [Except.map, Except.ok.injEq, Prod.mk.injEq] at eq
        exact ⟨pair.1, by rw [← eq.2]⟩
  unfold readPiece at read
  split at read
  · obtain ⟨_, found⟩ := mapped Member.piece read
    exact Nat.le_of_lt (readEscape_length found)
  split at read
  · obtain ⟨_, found⟩ := mapped Piece.cls read
    exact Nat.le_of_lt (readClass_length found)
  split at read
  · obtain ⟨_, found⟩ := mapped (fun bytes => Piece.atom (.literal bytes)) read
    exact Nat.le_of_lt (readQuoted_length found)
  split at read
  all_goals
    simp only [Except.ok.injEq, Prod.mk.injEq] at read
    exact Nat.le_of_eq (congrArg List.length read.2.symm)

/-- The pieces of a text in order, and the error that ends them if there is one. -/
def readPieces : List Char → List Piece × Option Error
  | [] => ([], none)
  | c :: text =>
      match _read : readPiece c text with
      | .error e => ([], some e)
      | .ok (piece, rest) =>
          let (pieces, error) := readPieces rest
          (piece :: pieces, error)
termination_by text => text.length
decreasing_by
  have shorter := readPiece_length _read
  simp only [List.length_cons]
  omega

def parseChars (u : Universe) (text : List Char) : Except Error Pattern :=
  let (pieces, error) := readPieces text
  match (Builder.new u).pushAll pieces, error with
  | .error e, _ => .error e
  | .ok _, some e => .error e
  | .ok b, none => b.finish

def parse (u : Universe) (text : String) : Except Error Pattern :=
  parseChars u text.toList

end Munch.Pattern
