import Munch.Proofs.Pattern.Faults
import Munch.Proofs.Pattern.Shunting

/-!
Calls of a builder in any order, also after some that were refused.

A call is refused for three reasons: a class that stands for no pattern, a character that is no
operator, or a parenthesis that closes a group which is not open (`Piece.refusal?`).  The first two
leave the builder as it is, and the last one applies what waits and closes nothing.  In every case the
builder comes to some levels again, as many as groups are open (`Reaches.push`, `Reaches.calls`).  So
there is always one operand more than operators wait for two (`Reaches.balanced`), no call runs short
of operands, and one pattern remains at the end if no group is open (`calls_balanced`).

A text is read by such calls, so it fails by what is wrong with one of its units or with its
parentheses (`parseChars_error_cases`).
-/

set_option autoImplicit false

namespace Munch.Pattern

def Op.isBinary : Op → Bool
  | .concat | .alternate => true
  | _ => false

section Balance

variable {operands operands' : List Pattern} {ops : List Op} {op : Op} {rank : Nat} {waiting : Stacks}

theorem Op.apply?_length (applied : op.apply? operands = some operands') :
    operands.length = operands'.length + if op.isBinary then 1 else 0 := by
  unfold Op.apply? at applied
  split at applied <;> cases applied <;> rfl

theorem reduce_balance (reduced : reduce rank operands ops = (none, waiting)) :
    operands.length + waiting.operators.countP Op.isBinary =
      waiting.operands.length + ops.countP Op.isBinary := by
  fun_induction reduce rank operands ops with
  | case1 operands =>
      cases reduced
      rfl
  | case2 operands op ops blocked =>
      cases reduced
      rfl
  | case3 operands op ops free operands' applied ih =>
      have lengths := Op.apply?_length applied
      have later := ih reduced
      rw [List.countP_cons]
      omega
  | case4 => cases reduced

theorem Level.balance (l : Level) : l.operands.length = l.operators.countP Op.isBinary + 1 := by
  obtain ⟨alts, seq, item⟩ := l
  cases item <;> cases alts <;> rfl

theorem Levels.balance (s : Levels) :
    s.pending.operands.length = s.pending.operators.countP Op.isBinary + 1 := by
  have around : (outerOperands s.outer).length =
      (outerOperators s.outer).countP Op.isBinary := by
    rw [outerOperands, outerOperators]
    induction s.outer with
    | nil => rfl
    | cons l rest ih =>
        rw [List.flatMap_cons, List.flatMap_cons, List.length_append, List.countP_append, ih]
        cases l.alts <;> rfl
  rw [pending, List.length_append, List.countP_append, around, Level.balance]
  omega

end Balance

section Pieces

variable (u : Universe)

def Piece.openGroups (n : Nat) : Piece → Nat
  | .atom _ | .cls _ => n
  | .operator c => if c = '(' then n + 1 else if c = ')' then n - 1 else n

/-- Why a piece is refused while some groups are open. -/
def Piece.refusal? (n : Nat) : Piece → Option Error
  | .atom _ => none
  | .cls c =>
      match c.toPattern u with
      | .ok _ => none
      | .error e => some e
  | .operator c =>
      if isOperator c then if c = ')' ∧ n = 0 then some .unopenedGroup else none
      else some (.unknownOperator c)

end Pieces

/-- A call that pushes something onto a builder. -/
inductive Call where
  | char (c : Char)
  | byte (b : UInt8)
  | literal (bytes : List UInt8)
  | escaped (c : Char)
  | cls (c : Class)
  | node (p : Pattern)
  | operator (c : Char)

def escapedBytes : Char → List UInt8
  | 'n' => [10]
  | 'r' => [13]
  | 't' => [9]
  | c => String.utf8EncodeChar c

namespace Call

def piece : Call → Piece
  | .char c => .atom (.literal (String.utf8EncodeChar c))
  | .byte b => .atom (.literal [b])
  | .literal bytes => .atom (.literal bytes)
  | .escaped c => .atom (.literal (escapedBytes c))
  | .cls c => .cls c
  | .node p => .atom p
  | .operator c => .operator c

def openGroups (n : Nat) (calls : List Call) : Nat :=
  calls.foldl (fun n c => c.piece.openGroups n) n

def refusals (u : Universe) : Nat → List Call → List (Option Error)
  | _, [] => []
  | n, c :: rest => c.piece.refusal? u n :: refusals u (c.piece.openGroups n) rest

end Call

namespace Builder

variable {b : Builder} {u : Universe} {s t : Levels}

def call (b : Builder) : Call → Option Error × Builder
  | .char c => b.pushChar c
  | .byte x => b.pushByte x
  | .literal bytes => b.pushLiteral bytes
  | .escaped c => b.pushEscaped c
  | .cls c => b.pushClass c
  | .node p => b.pushAtom p
  | .operator c => b.pushOperator c

/-- What comes of calls, each made whatever came of those before. -/
def calls (b : Builder) : List Call → List (Option Error) × Builder
  | [] => ([], b)
  | c :: rest =>
      let (answer, b) := b.call c
      let (answers, b) := b.calls rest
      (answer :: answers, b)

theorem call_eq_push (b : Builder) (c : Call) : b.call c = b.push c.piece := by
  cases c with
  | escaped c =>
      change b.pushEscaped c = b.pushAtom (.literal (escapedBytes c))
      unfold pushEscaped escapedBytes
      split <;> simp_all [pushByte, pushChar]
  | _ => rfl

theorem pushOperator_unknown {c : Char} (unknown : isOperator c = false) :
    b.pushOperator c = (some (.unknownOperator c), b) := by
  unfold pushOperator
  split <;> simp_all [isOperator]

theorem Reaches.push_of_step {piece : Piece} {x : Symbol} (reaches : b.Reaches u s)
    (same : b.push piece = b.take x) (stepped : s.step x = some t)
    (allowed : piece.refusal? u s.outer.length = none)
    (groups : t.outer.length = piece.openGroups s.outer.length) :
    (b.push piece).1 = piece.refusal? u s.outer.length ∧
      ∃ t, (b.push piece).2.Reaches u t ∧ t.outer.length = piece.openGroups s.outer.length := by
  obtain ⟨b', taken, next⟩ := reaches.take stepped
  rw [same, taken, allowed]
  exact ⟨rfl, t, next, groups⟩

/-- A parenthesis that closes no group leaves the value of the current level, and no group. -/
theorem Reaches.of_unopened (reaches : b.Reaches u s) (closed : s.outer = []) :
    (b.pushOperator ')').1 = some .unopenedGroup ∧
      (b.pushOperator ')').2.Reaches u ⟨⟨none, s.current.value, none⟩, []⟩ := by
  have answer := reaches.represents.closeGroup_eq
  rw [closed] at answer
  rw [pushOperator, answer]
  exact ⟨rfl, reaches.alphabet, rfl⟩

/-- Whatever comes of a piece, the builder comes to levels for the groups that are open. -/
theorem Reaches.push (reaches : b.Reaches u s) (piece : Piece) :
    (b.push piece).1 = piece.refusal? u s.outer.length ∧
      ∃ t, (b.push piece).2.Reaches u t ∧ t.outer.length = piece.openGroups s.outer.length := by
  cases piece with
  | atom p => exact reaches.push_of_step (x := .atom p) rfl rfl rfl rfl
  | cls c =>
      cases found : c.toPattern u with
      | ok p =>
          refine reaches.push_of_step (x := .atom p) ?_ rfl ?_ rfl
          · rw [Builder.push, pushClass, reaches.alphabet, found]
            rfl
          · rw [Piece.refusal?, found]
      | error e =>
          rw [Builder.push, pushClass, reaches.alphabet, Piece.refusal?, found]
          exact ⟨rfl, s, reaches, rfl⟩
  | operator c =>
      cases known : isOperator c with
      | false =>
          have neither : c ≠ '(' ∧ c ≠ ')' := by
            constructor <;> rintro rfl <;> cases known
          rw [Builder.push, pushOperator_unknown known, Piece.refusal?, known, Piece.openGroups,
            if_neg neither.1, if_neg neither.2]
          exact ⟨rfl, s, reaches, rfl⟩
      | true =>
          simp only [isOperator, Bool.or_eq_true, decide_eq_true_eq] at known
          rcases known with (((((rfl | rfl) | rfl) | rfl) | rfl) | rfl) | rfl
          · exact reaches.push_of_step (x := .atom (.range b.alphabet.wildcard)) rfl rfl rfl rfl
          · exact reaches.push_of_step (x := .quantifier .optional) rfl rfl rfl rfl
          · exact reaches.push_of_step (x := .quantifier .zeroOrMore) rfl rfl rfl rfl
          · exact reaches.push_of_step (x := .quantifier .oneOrMore) rfl rfl rfl rfl
          · exact reaches.push_of_step (x := .bar) rfl rfl rfl rfl
          · exact reaches.push_of_step (x := .opening) rfl rfl rfl rfl
          · obtain ⟨current, outer⟩ := s
            cases outer with
            | nil =>
                obtain ⟨answer, next⟩ := reaches.of_unopened rfl
                exact ⟨answer, _, next, rfl⟩
            | cons l rest => exact reaches.push_of_step (x := .closing) rfl rfl rfl rfl

/-- A piece that is refused leaves the builder as it is, unless it closes a group. -/
theorem Reaches.push_refused {piece : Piece} (reaches : b.Reaches u s)
    (refused : (b.push piece).1.isSome = true) (notClosing : piece ≠ .operator ')') :
    (b.push piece).2 = b := by
  have reason := (reaches.push piece).1
  cases piece with
  | atom p =>
      rw [reason] at refused
      cases refused
  | cls c =>
      cases found : c.toPattern u with
      | ok p =>
          rw [reason, Piece.refusal?, found] at refused
          cases refused
      | error e => rw [Builder.push, pushClass, reaches.alphabet, found]
  | operator c =>
      cases known : isOperator c with
      | false => rw [Builder.push, pushOperator_unknown known]
      | true =>
          have opened : ¬ (c = ')' ∧ s.outer.length = 0) := fun closing =>
            notClosing (congrArg Piece.operator closing.1)
          rw [reason, Piece.refusal?, if_pos known, if_neg opened] at refused
          cases refused

theorem calls_cons (b : Builder) (c : Call) (rest : List Call) :
    b.calls (c :: rest) = ((b.push c.piece).1 :: ((b.push c.piece).2.calls rest).1,
      ((b.push c.piece).2.calls rest).2) := by
  rw [calls, call_eq_push]

theorem Reaches.calls (reaches : b.Reaches u s) (calls : List Call) :
    (b.calls calls).1 = Call.refusals u s.outer.length calls ∧
      ∃ t, (b.calls calls).2.Reaches u t ∧
        t.outer.length = Call.openGroups s.outer.length calls := by
  induction calls generalizing b s with
  | nil => exact ⟨rfl, s, reaches, rfl⟩
  | cons c rest ih =>
      obtain ⟨answer, t, next, groups⟩ := reaches.push c.piece
      obtain ⟨answers, last⟩ := ih next
      rw [groups] at answers last
      rw [calls_cons, answer, answers]
      exact ⟨rfl, last⟩

/-- One operand more waits than operators wait for two. -/
theorem Reaches.balanced (reaches : b.Reaches u s) :
    b.pending.operands.length = b.pending.operators.countP Op.isBinary + 1 := by
  have kept := reduce_balance reaches.represents
  have balance := s.balance
  omega

end Builder

section Refusals

variable {u : Universe} {e : Error} {piece : Piece} {n : Nat}

theorem Piece.refusal?_cases (refused : piece.refusal? u n = some e) :
    e.OfUnit ∨ e = .unopenedGroup ∨ ∃ c, piece = .operator c ∧ isOperator c = false := by
  cases piece with
  | atom p => cases refused
  | cls c =>
      rw [refusal?] at refused
      cases found : c.toPattern u with
      | ok p =>
          rw [found] at refused
          cases refused
      | error e' =>
          rw [found] at refused
          cases refused
          obtain ⟨x, rfl⟩ := Class.toPattern_error found
          exact .inl trivial
  | operator c =>
      rw [refusal?] at refused
      split at refused
      · split at refused
        · cases refused
          exact .inr (.inl rfl)
        · cases refused
      · rename_i unknown
        exact .inr (.inr ⟨c, rfl, Bool.eq_false_iff.mpr unknown⟩)

end Refusals

namespace Builder

variable {b : Builder} {u : Universe} {s : Levels}

theorem Reaches.pushAll (reaches : b.Reaches u s) (pieces : List Piece) :
    (∃ b' t, b.pushAll pieces = .ok b' ∧ b'.Reaches u t) ∨
      ∃ e, b.pushAll pieces = .error e ∧ ∃ piece ∈ pieces, ∃ n, piece.refusal? u n = some e := by
  induction pieces generalizing b s with
  | nil => exact .inl ⟨b, s, rfl, reaches⟩
  | cons piece rest ih =>
      obtain ⟨answer, t, next, -⟩ := reaches.push piece
      rw [Builder.pushAll]
      cases pushed : b.push piece with
      | mk error b' =>
          rw [pushed] at answer next
          cases error with
          | some e => exact .inr ⟨e, rfl, piece, List.mem_cons_self, _, answer.symm⟩
          | none =>
              rcases ih next with ⟨last, t, taken, there⟩ | ⟨e, failed, other, mem, refused⟩
              · exact .inl ⟨last, t, taken, there⟩
              · exact .inr ⟨e, failed, other, List.mem_cons_of_mem _ mem, refused⟩

end Builder

theorem parseChars_error_cases {u : Universe} {text : List Char} {e : Error}
    (failed : parseChars u text = .error e) :
    e.OfUnit ∨ e = .unopenedGroup ∨ e = .unclosedGroup := by
  obtain ⟨operators, errors⟩ := readPieces_spec text
  rw [parseChars] at failed
  generalize readPieces text = read at operators errors failed
  obtain ⟨pieces, error⟩ := read
  rcases (Builder.reaches_new u).pushAll pieces with
    ⟨b, t, taken, reaches⟩ | ⟨e', refusal, piece, mem, n, refused⟩
  · simp only [taken] at failed
    cases error with
    | some e' =>
        cases failed
        exact .inl (errors e rfl)
    | none =>
        have finished : b.finish = .error e := failed
        rw [reaches.finish] at finished
        split at finished <;> cases finished
        exact .inr (.inr rfl)
  · simp only [refusal] at failed
    cases failed
    rcases Piece.refusal?_cases refused with unit | unopened | ⟨c, rfl, unknown⟩
    · exact .inl unit
    · exact .inr (.inl unopened)
    · rw [operators c mem] at unknown
      cases unknown

theorem Call.refusals_ne_missingOperand {u : Universe} {n : Nat} {calls : List Call}
    {answer : Option Error} (mem : answer ∈ refusals u n calls) (c : Char) :
    answer ≠ some (.missingOperand c) := by
  induction calls generalizing n with
  | nil => cases mem
  | cons call rest ih =>
      rcases List.mem_cons.mp mem with here | behind
      · rintro rfl
        rcases Piece.refusal?_cases here.symm with unit | unopened | ⟨x, operator, unknown⟩
        · exact unit
        · cases unopened
        · rw [operator, Piece.refusal?, unknown] at here
          cases here
      · exact ih behind

namespace Builder

/-- A builder answers each of a sequence of calls as the groups demand that are open then, and never
for want of an operand.  There is one operand more than operators wait for two, so at the end one
pattern remains unless a group is still open; and a text fails neither for want of an operand nor at
an unknown operator. -/
theorem calls_balanced (u : Universe) (calls : List Call) :
    ∃ answers b, (new u).calls calls = (answers, b) ∧
      answers = Call.refusals u 0 calls ∧
      (∀ answer ∈ answers, ∀ c, answer ≠ some (.missingOperand c)) ∧
      (∀ c : Call, c ≠ .operator ')' → (b.call c).1.isSome = true → (b.call c).2 = b) ∧
      b.pending.operands.length = b.pending.operators.countP Op.isBinary + 1 ∧
      (b.finish = .error .unclosedGroup ↔ 0 < Call.openGroups 0 calls) ∧
      ((∃ p, b.finish = .ok p) ↔ Call.openGroups 0 calls = 0) ∧
      ∀ text c, parse u text ≠ .error (.missingOperand c) ∧
        parse u text ≠ .error (.unknownOperator c) := by
  obtain ⟨answers, t, reaches, groups⟩ := (reaches_new u).calls calls
  have groups : t.outer.length = Call.openGroups 0 calls := groups
  refine ⟨_, _, rfl, answers, ?_, ?_, reaches.balanced, ?_, ?_, ?_⟩
  · intro answer mem
    rw [answers] at mem
    exact Call.refusals_ne_missingOperand mem
  · intro c notClosing refused
    rw [call_eq_push] at refused ⊢
    refine reaches.push_refused refused fun same => notClosing ?_
    cases c <;> cases same
    rfl
  · rw [reaches.finish, ← groups]
    cases t.outer <;> simp
  · rw [reaches.finish, ← groups]
    cases t.outer <;> simp
  · intro text c
    constructor <;> intro failed <;> simpa [Error.OfUnit] using parseChars_error_cases failed

/-- A closing parenthesis that is refused closes no group, and one behind it does not either. -/
example : Call.refusals .ascii 0 [.operator ')', .operator '(', .operator '{', .operator ')'] =
    [some .unopenedGroup, none, some (.unknownOperator '{'), none] := by
  decide

end Builder

end Munch.Pattern
