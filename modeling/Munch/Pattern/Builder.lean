import Munch.Pattern.Class

/-!
A builder that takes a pattern piece by piece.

The builder keeps a stack of operands and a stack of operators, and applies an operator as soon as
what follows cannot bind tighter.  Juxtaposition is an operator too: every atom is pushed together
with one, and the empty literal waits for it at the start of the text, of every group and of every
alternative.

A call that fails says why and leaves the builder usable: an unknown operator or a bad class changes
nothing, while a `)` without an open group has applied everything that was pending.
-/

set_option autoImplicit false

namespace Munch.Pattern

inductive Op where
  /-- An open group, which nothing is applied across. -/
  | group
  | optional
  | zeroOrMore
  | oneOrMore
  | concat
  | alternate
  deriving DecidableEq

/-- How loosely an operator binds: the lower, the tighter. -/
def Op.rank : Op → Nat
  | .group => 3
  | .optional | .zeroOrMore | .oneOrMore => 4
  | .concat => 5
  | .alternate => 7

/-- The character that stands for an operator; juxtaposition has the dot. -/
def Op.symbol : Op → Char
  | .group => '('
  | .optional => '?'
  | .zeroOrMore => '*'
  | .oneOrMore => '+'
  | .concat => '.'
  | .alternate => '|'

/-- The operands and the operators that wait, the latest first. -/
structure Stacks where
  operands : List Pattern
  operators : List Op

def Op.apply? : Op → List Pattern → Option (List Pattern)
  | .concat, q :: p :: rest => some (Pattern.concat p q :: rest)
  | .alternate, q :: p :: rest => some (Pattern.alternate p q :: rest)
  | .optional, p :: rest => some (.optional p :: rest)
  | .zeroOrMore, p :: rest => some (.zeroOrMore p :: rest)
  | .oneOrMore, p :: rest => some (.repetition p :: rest)
  | _, _ => none

/-- Applies the waiting operators that bind at least as tightly as the rank, up to an open group. -/
def reduce (rank : Nat) (operands : List Pattern) : List Op → Option Error × Stacks
  | [] => (none, ⟨operands, []⟩)
  | op :: ops =>
      if op = .group ∨ rank < op.rank then (none, ⟨operands, op :: ops⟩)
      else
        match op.apply? operands with
        | some operands' => reduce rank operands' ops
        | none => (some (.missingOperand op.symbol), ⟨[], ops⟩)

/-- Applies the waiting operators of the latest open group and closes it. -/
def closeGroup (operands : List Pattern) : List Op → Option Error × Stacks
  | [] => (some .unopenedGroup, ⟨operands, []⟩)
  | .group :: ops => (none, ⟨operands, ops⟩)
  | op :: ops =>
      match op.apply? operands with
      | some operands' => closeGroup operands' ops
      | none => (some (.missingOperand op.symbol), ⟨[], ops⟩)

def applyAll (operands : List Pattern) : List Op → Except Error Pattern
  | [] =>
      match operands with
      | [p] => .ok p
      | _ => .error (.missingOperand Op.concat.symbol)
  | .group :: _ => .error .unclosedGroup
  | op :: ops =>
      match op.apply? operands with
      | some operands' => applyAll operands' ops
      | none => .error (.missingOperand op.symbol)

inductive Piece where
  | atom (p : Pattern)
  | cls (c : Class)
  /-- One of `. ? * + | ( )`. -/
  | operator (c : Char)

structure Builder where
  alphabet : Universe
  pending : Stacks

namespace Builder

def new (u : Universe) : Builder :=
  ⟨u, ⟨[.empty], []⟩⟩

/-- What comes of reducing the stacks and, if that goes well, of changing them once more. -/
def after (b : Builder) (rank : Nat) (change : Stacks → Stacks) : Option Error × Builder :=
  match reduce rank b.pending.operands b.pending.operators with
  | (none, pending) => (none, { b with pending := change pending })
  | (some e, pending) => (some e, { b with pending })

def pushAtom (b : Builder) (p : Pattern) : Option Error × Builder :=
  b.after Op.concat.rank fun s => ⟨p :: s.operands, .concat :: s.operators⟩

def pushChar (b : Builder) (c : Char) : Option Error × Builder :=
  b.pushAtom (.literal (String.utf8EncodeChar c))

def pushByte (b : Builder) (byte : UInt8) : Option Error × Builder :=
  b.pushAtom (.literal [byte])

def pushLiteral (b : Builder) (bytes : List UInt8) : Option Error × Builder :=
  b.pushAtom (.literal bytes)

/-- Puts after what precedes it what the character means behind a backslash: a control byte for three
letters, and otherwise itself. -/
def pushEscaped (b : Builder) (c : Char) : Option Error × Builder :=
  match c with
  | 'n' => b.pushByte 10
  | 'r' => b.pushByte 13
  | 't' => b.pushByte 9
  | _ => b.pushChar c

def pushClass (b : Builder) (cls : Class) : Option Error × Builder :=
  match cls.toPattern b.alphabet with
  | .ok p => b.pushAtom p
  | .error e => (some e, b)

/-- Opens a group: its result is an operand of the juxtaposition before it. -/
def openGroup (b : Builder) : Option Error × Builder :=
  b.after Op.concat.rank fun s => ⟨.empty :: s.operands, .group :: .concat :: s.operators⟩

def nextAlternative (b : Builder) : Option Error × Builder :=
  b.after Op.alternate.rank fun s => ⟨.empty :: s.operands, .alternate :: s.operators⟩

/-- Lets an operator that stands behind its operand wait. -/
def pushPostfix (b : Builder) (op : Op) : Option Error × Builder :=
  b.after op.rank fun s => ⟨s.operands, op :: s.operators⟩

def pushOperator (b : Builder) (c : Char) : Option Error × Builder :=
  match c with
  | '.' => b.pushAtom (.range b.alphabet.wildcard)
  | '(' => b.openGroup
  | ')' =>
      let (error, pending) := closeGroup b.pending.operands b.pending.operators
      (error, { b with pending })
  | '|' => b.nextAlternative
  | '?' => b.pushPostfix .optional
  | '*' => b.pushPostfix .zeroOrMore
  | '+' => b.pushPostfix .oneOrMore
  | _ => (some (.unknownOperator c), b)

def push (b : Builder) : Piece → Option Error × Builder
  | .atom p => b.pushAtom p
  | .cls c => b.pushClass c
  | .operator c => b.pushOperator c

def pushAll (b : Builder) : List Piece → Except Error Builder
  | [] => .ok b
  | piece :: rest =>
      match b.push piece with
      | (none, b') => b'.pushAll rest
      | (some e, _) => .error e

def finish (b : Builder) : Except Error Pattern :=
  applyAll b.pending.operands b.pending.operators

end Builder

end Munch.Pattern
