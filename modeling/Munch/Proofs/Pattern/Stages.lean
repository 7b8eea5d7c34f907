import Munch.Proofs.Pattern.Units

/-!
Reading and building in turns.

`parseChars` cuts a text into pieces before a builder takes any of them, and reads a class or a literal
in one go.  Here reading is a machine with small steps: each reads one member, or one character that
opens, closes or applies something, and a piece goes to the builder as soon as it is whole.  The stage
of the machine says what a member is read for: a piece, a byte of a quoted literal, a member of a class
or the upper bound of a range (`Stage.next`).

The machine comes to what the text stands for (`Stage.run_outside`).  So the outcome is, for every stage
on the way (`ComesTo`), what becomes of the text that is left there (`ComesTo.parseChars_eq`), and a
text that fails does so at one of the steps or at its end (`ComesTo.exists_failure`).
-/

set_option autoImplicit false

namespace Munch.Pattern

/-- What is being read. -/
inductive Stage where
  | outside (b : Builder)
  | quoted (b : Builder) (bytes : List UInt8)
  | members (b : Builder) (cls : Class)
  | bound (b : Builder) (cls : Class) (lo : Member)

namespace Stage

def hand (b : Builder) (piece : Piece) (rest : List Char) : Except Error (Stage × List Char) :=
  match b.push piece with
  | (none, b') => .ok (.outside b', rest)
  | (some e, _) => .error e

/-- What becomes of a stage and the text behind a member by that member. -/
def take (m : Member) (rest : List Char) : Stage → Except Error (Stage × List Char)
  | .outside b => hand b m.piece rest
  | .quoted b bytes => .ok (.quoted b (bytes ++ m.bytes), rest)
  | .members b cls =>
      match rangeEnd? rest with
      | none => .ok (.members b (cls.addMember m), rest)
      | some (d, behind) => .ok (.bound b cls m, d :: behind)
  | .bound b cls lo => (cls.addInterval lo m).map fun cls => (.members b cls, rest)

def openClass (b : Builder) : List Char → Stage × List Char
  | '^' :: rest => (.members b Class.empty.negate, rest)
  | text => (.members b .empty, text)

/-- What becomes of a stage by a character, unless a member starts with it. -/
def mark? (c : Char) (rest : List Char) : Stage → Option (Except Error (Stage × List Char))
  | .outside b =>
      if c = '[' then some (.ok (openClass b rest))
      else if c = '"' then some (.ok (.quoted b [], rest))
      else if isOperator c then some (hand b (.operator c) rest)
      else none
  | .quoted b bytes => if c = '"' then some (hand b (.atom (.literal bytes)) rest) else none
  | .members b cls => if c = ']' then some (hand b (.cls cls) rest) else none
  | .bound _ _ _ => none

def next (s : Stage) (c : Char) (text : List Char) : Except Error (Stage × List Char) :=
  match s.mark? c text with
  | some outcome => outcome
  | none =>
      match readMember c text with
      | .error e => .error e
      | .ok (m, rest) => s.take m rest

section Length

variable {s t : Stage} {b : Builder} {piece : Piece} {c : Char} {m : Member}
  {text rest : List Char}

theorem hand_rest (handed : hand b piece text = .ok (t, rest)) : rest = text := by
  unfold hand at handed
  split at handed <;> cases handed
  rfl

theorem take_length (took : s.take m text = .ok (t, rest)) : rest.length ≤ text.length := by
  cases s with
  | outside b => exact Nat.le_of_eq (congrArg List.length (hand_rest took))
  | quoted b bytes =>
      cases took
      exact Nat.le_refl _
  | members b cls =>
      rw [take] at took
      split at took
      · cases took
        exact Nat.le_refl _
      · rename_i range
        cases took
        exact rangeEnd?_length range
  | bound b cls lo =>
      rw [take] at took
      cases grown : cls.addInterval lo m with
      | error e =>
          rw [grown] at took
          cases took
      | ok cls' =>
          rw [grown] at took
          cases took
          exact Nat.le_refl _

theorem openClass_length (b : Builder) (text : List Char) :
    (openClass b text).2.length ≤ text.length := by
  unfold openClass
  split <;> simp

theorem mark?_length {outcome : Except Error (Stage × List Char)}
    (marked : s.mark? c text = some outcome) (moves : outcome = .ok (t, rest)) :
    rest.length ≤ text.length := by
  subst moves
  have handed {piece : Piece} {b : Builder}
      (same : some (hand b piece text) = some (.ok (t, rest))) : rest.length ≤ text.length :=
    Nat.le_of_eq (congrArg List.length (hand_rest (Option.some.inj same)))
  unfold mark? at marked
  split at marked
  case h_1 =>
    split at marked
    · have opened := openClass_length ‹_› text
      rwa [Except.ok.inj (Option.some.inj marked)] at opened
    split at marked
    · cases marked
      exact Nat.le_refl _
    split at marked
    · exact handed marked
    · cases marked
  case h_4 => cases marked
  all_goals
    split at marked
    · exact handed marked
    · cases marked

theorem next_length (moves : s.next c text = .ok (t, rest)) : rest.length ≤ text.length := by
  unfold next at moves
  split at moves
  · rename_i marked
    exact mark?_length marked moves
  · split at moves
    · cases moves
    · rename_i read
      exact Nat.le_trans (take_length moves) (readMember_length read)

end Length

def run : Stage → List Char → Except Error Pattern
  | .outside b, [] => b.finish
  | .quoted _ _, [] => .error .unclosedQuote
  | .members _ _, [] | .bound _ _ _, [] => .error .unclosedClass
  | s, c :: text =>
      match _moves : s.next c text with
      | .error e => .error e
      | .ok (t, rest) => t.run rest
termination_by _ text => text.length
decreasing_by exact Nat.lt_succ_of_le (next_length _moves)

variable {s t : Stage} {b : Builder} {cls : Class} {c : Char} {m : Member} {e : Error}
  {text rest : List Char}

def settle : Except Error (Stage × List Char) → Except Error Pattern
  | .error e => .error e
  | .ok (t, rest) => t.run rest

theorem run_cons (s : Stage) (c : Char) (text : List Char) :
    s.run (c :: text) = settle (s.next c text) := by
  rw [run.eq_def]
  cases s <;> (dsimp only; split <;> (rename_i moves; rw [moves]; rfl))

theorem next_of_mark {outcome : Except Error (Stage × List Char)}
    (marked : s.mark? c text = some outcome) : s.next c text = outcome := by
  rw [next, marked]

theorem next_of_member (unmarked : s.mark? c text = none) (read : readMember c text = .ok (m, rest)) :
    s.next c text = s.take m rest := by
  rw [next, unmarked]
  simp only [read]

theorem next_of_error (unmarked : s.mark? c text = none) (failed : readMember c text = .error e) :
    s.next c text = .error e := by
  rw [next, unmarked]
  simp only [failed]

section Mark

variable {bytes : List UInt8}

theorem mark?_closeQuote :
    (quoted b bytes).mark? '"' text = some (hand b (.atom (.literal bytes)) text) :=
  rfl

theorem mark?_quoted (inside : c ≠ '"') : (quoted b bytes).mark? c text = none :=
  if_neg inside

theorem mark?_closeClass : (members b cls).mark? ']' text = some (hand b (.cls cls) text) :=
  rfl

theorem mark?_members (inside : c ≠ ']') : (members b cls).mark? c text = none :=
  if_neg inside

theorem mark?_openClass : (outside b).mark? '[' text = some (.ok (openClass b text)) :=
  rfl

theorem mark?_openQuote : (outside b).mark? '"' text = some (.ok (quoted b [], text)) :=
  rfl

theorem mark?_outside (b : Builder) (text : List Char) (bracket : c ≠ '[') (quote : c ≠ '"') :
    (outside b).mark? c text =
      if isOperator c then some (hand b (.operator c) text) else none := by
  rw [mark?, if_neg bracket, if_neg quote]

theorem mark?_escape (s : Stage) (text : List Char) : s.mark? '\\' text = none := by
  cases s <;> rfl

end Mark

theorem run_quoted (b : Builder) (bytes : List UInt8) (text : List Char) :
    (quoted b bytes).run text = settle (do
      let r ← readQuoted bytes text
      hand b (.atom (.literal r.1)) r.2) := by
  fun_induction readQuoted bytes text with
  | case1 => rw [run]; rfl
  | case2 bytes rest =>
      rw [run_cons, next_of_mark mark?_closeQuote]
      rfl
  | case3 bytes c text inside e failed =>
      rw [run_cons, next_of_error (mark?_quoted inside) failed]
      rfl
  | case4 bytes c text inside m rest read ih =>
      rw [run_cons, next_of_member (mark?_quoted inside) read]
      exact ih

theorem run_members (b : Builder) (cls : Class) (text : List Char) :
    (members b cls).run text = settle (do
      let r ← readMembers cls text
      hand b (.cls r.1) r.2) := by
  fun_induction readMembers cls text with
  | case1 => rw [run]; rfl
  | case2 cls rest =>
      rw [run_cons, next_of_mark mark?_closeClass]
      rfl
  | case3 cls c text inside e failed =>
      rw [run_cons, next_of_error (mark?_members inside) failed]
      rfl
  | case4 cls c text inside lo afterLo read alone ih =>
      rw [run_cons, next_of_member (mark?_members inside) read, take, alone]
      exact ih
  | case5 cls c text inside lo afterLo read d behind range e failed =>
      rw [run_cons, next_of_member (mark?_members inside) read, take, range]
      change (bound b cls lo).run (d :: behind) = _
      rw [run_cons, next_of_error rfl failed]
      rfl
  | case6 cls c text inside lo afterLo read d behind range hi afterHi hiRead e failed =>
      rw [run_cons, next_of_member (mark?_members inside) read, take, range]
      change (bound b cls lo).run (d :: behind) = _
      rw [run_cons, next_of_member rfl hiRead, take, failed]
      rfl
  | case7 cls c text inside lo afterLo read d behind range hi afterHi hiRead cls' grows ih =>
      rw [run_cons, next_of_member (mark?_members inside) read, take, range]
      change (bound b cls lo).run (d :: behind) = _
      rw [run_cons, next_of_member rfl hiRead, take, grows]
      exact ih

theorem run_openClass (b : Builder) (text : List Char) :
    settle (.ok (openClass b text)) = settle (do
      let r ← readClass text
      hand b (.cls r.1) r.2) := by
  unfold openClass
  split
  · exact run_members b Class.empty.negate _
  · rename_i notNegated
    rw [readClass]
    · exact run_members b .empty _
    · exact notNegated

theorem run_outside_cons (b : Builder) (c : Char) (text : List Char) :
    (outside b).run (c :: text) = settle (do
      let r ← readPiece c text
      hand b r.1 r.2) := by
  have mapped {α : Type} (r : Except Error (α × List Char)) (f : α → Piece) :
      (do let r ← r.map fun r => (f r.1, r.2); hand b r.1 r.2) =
        (do let r ← r; hand b (f r.1) r.2 : Except Error (Stage × List Char)) := by
    cases r <;> rfl
  rw [run_cons]
  by_cases escape : c = '\\'
  · subst escape
    rw [readPiece, if_pos rfl, mapped]
    cases read : readEscape text with
    | error e => rw [next_of_error rfl ((if_pos rfl).trans read)]; rfl
    | ok r => rw [next_of_member rfl ((if_pos rfl).trans read)]; rfl
  by_cases bracket : c = '['
  · subst bracket
    rw [readPiece, if_neg escape, if_pos rfl, mapped, next_of_mark mark?_openClass, run_openClass]
  by_cases quote : c = '"'
  · subst quote
    rw [readPiece, if_neg escape, if_neg bracket, if_pos rfl,
      mapped _ fun bytes => .atom (.literal bytes), next_of_mark mark?_openQuote]
    exact run_quoted b [] text
  have marked := mark?_outside b text bracket quote
  rw [readPiece, if_neg escape, if_neg bracket, if_neg quote]
  split
  · rename_i known
    rw [next_of_mark (marked.trans (if_pos known))]
    rfl
  · rename_i plain
    rw [next_of_member (marked.trans (if_neg plain)) (if_neg escape)]
    rfl

end Stage

def Builder.readOn (b : Builder) (text : List Char) : Except Error Pattern :=
  let (pieces, error) := readPieces text
  match b.pushAll pieces, error with
  | .error e, _ => .error e
  | .ok _, some e => .error e
  | .ok b, none => b.finish

namespace Stage

theorem settle_hand (b : Builder) (piece : Piece) {text rest : List Char}
    (pieces : readPieces text = (piece :: (readPieces rest).1, (readPieces rest).2))
    (ih : ∀ b, (outside b).run rest = b.readOn rest) :
    settle (hand b piece rest) = b.readOn text := by
  simp only [hand, Builder.readOn, pieces, Builder.pushAll]
  cases b.push piece with
  | mk error b' =>
      cases error with
      | none => exact ih b'
      | some e => rfl

/-- Reading and building in turns comes to the same as reading the whole text first. -/
theorem run_outside (b : Builder) (text : List Char) : (outside b).run text = b.readOn text := by
  induction size : text.length using Nat.strongRecOn generalizing b text with
  | ind n ih =>
      cases text with
      | nil => rw [run, Builder.readOn, readPieces]; rfl
      | cons c text =>
          rw [run_outside_cons]
          cases read : readPiece c text with
          | error e => rw [Builder.readOn, readPieces_error read]; rfl
          | ok r =>
              have shorter : r.2.length < n := by
                rw [← size]
                exact Nat.lt_succ_of_le (readPiece_length read)
              exact settle_hand b r.1 (readPieces_cons read) fun b => ih _ shorter b r.2 rfl

end Stage

/-- What the machine comes to on the way through a text: a stage, and the text that is left. -/
inductive ComesTo (u : Universe) (text : List Char) : Stage → List Char → Prop where
  | start : ComesTo u text (.outside (.new u)) text
  | step {s t : Stage} {c : Char} {behind rest : List Char} (before : ComesTo u text s (c :: behind))
      (moves : s.next c behind = .ok (t, rest)) : ComesTo u text t rest

namespace ComesTo

variable {u : Universe} {text rest : List Char} {s : Stage} {e : Error}

/-- The outcome is what becomes of the text that is left. -/
theorem parseChars_eq (comes : ComesTo u text s rest) : parseChars u text = s.run rest := by
  induction comes with
  | start => exact (Stage.run_outside (.new u) text).symm
  | step before moves ih => rw [ih, Stage.run_cons, moves]; rfl

theorem exists_failure (comes : ComesTo u text s rest) (failed : s.run rest = .error e) :
    (∃ t c behind, ComesTo u text t (c :: behind) ∧ t.next c behind = .error e) ∨
      ∃ t, ComesTo u text t [] ∧ t.run [] = .error e := by
  induction size : rest.length using Nat.strongRecOn generalizing s rest with
  | ind n ih =>
      cases rest with
      | nil => exact .inr ⟨s, comes, failed⟩
      | cons c behind =>
          rw [Stage.run_cons] at failed
          cases moves : s.next c behind with
          | error e' =>
              rw [moves] at failed
              cases failed
              exact .inl ⟨s, c, behind, comes, moves⟩
          | ok r =>
              rw [moves] at failed
              refine ih r.2.length ?_ (comes.step moves) failed rfl
              rw [← size]
              exact Nat.lt_succ_of_le (Stage.next_length moves)

end ComesTo

end Munch.Pattern
