import Munch.ByteSet.Basic

/-!
Patterns: trees that describe sets of byte strings.

`concat` and `alternate` put patterns together in a tidy form.  The empty literal vanishes in a
concatenation, neighbouring literals become one, and a sequence in a sequence or an alternation in
an alternation is flattened.
-/

set_option autoImplicit false

namespace Munch

/-- A pattern over byte strings. -/
inductive Pattern where
  | literal (bytes : List UInt8)
  | sequence (items : List Pattern)
  | alternation (items : List Pattern)
  | optional (item : Pattern)
  /-- One or more times. -/
  | repetition (item : Pattern)
  | zeroOrMore (item : Pattern)
  | range (set : ByteSet)
  deriving Inhabited

namespace Pattern

mutual

def decEq : (p q : Pattern) → Decidable (p = q)
  | .literal a, .literal b =>
      if h : a = b then isTrue (h ▸ rfl) else isFalse fun e => h (Pattern.literal.inj e)
  | .sequence ps, .sequence qs =>
      match decEqItems ps qs with
      | isTrue h => isTrue (h ▸ rfl)
      | isFalse h => isFalse fun e => h (Pattern.sequence.inj e)
  | .alternation ps, .alternation qs =>
      match decEqItems ps qs with
      | isTrue h => isTrue (h ▸ rfl)
      | isFalse h => isFalse fun e => h (Pattern.alternation.inj e)
  | .optional p, .optional q =>
      match decEq p q with
      | isTrue h => isTrue (h ▸ rfl)
      | isFalse h => isFalse fun e => h (Pattern.optional.inj e)
  | .repetition p, .repetition q =>
      match decEq p q with
      | isTrue h => isTrue (h ▸ rfl)
      | isFalse h => isFalse fun e => h (Pattern.repetition.inj e)
  | .zeroOrMore p, .zeroOrMore q =>
      match decEq p q with
      | isTrue h => isTrue (h ▸ rfl)
      | isFalse h => isFalse fun e => h (Pattern.zeroOrMore.inj e)
  | .range s, .range t =>
      if h : s = t then isTrue (h ▸ rfl) else isFalse fun e => h (Pattern.range.inj e)
  | .literal _, .sequence _ | .literal _, .alternation _ | .literal _, .optional _
  | .literal _, .repetition _ | .literal _, .zeroOrMore _ | .literal _, .range _
  | .sequence _, .literal _ | .sequence _, .alternation _ | .sequence _, .optional _
  | .sequence _, .repetition _ | .sequence _, .zeroOrMore _ | .sequence _, .range _
  | .alternation _, .literal _ | .alternation _, .sequence _ | .alternation _, .optional _
  | .alternation _, .repetition _ | .alternation _, .zeroOrMore _ | .alternation _, .range _
  | .optional _, .literal _ | .optional _, .sequence _ | .optional _, .alternation _
  | .optional _, .repetition _ | .optional _, .zeroOrMore _ | .optional _, .range _
  | .repetition _, .literal _ | .repetition _, .sequence _ | .repetition _, .alternation _
  | .repetition _, .optional _ | .repetition _, .zeroOrMore _ | .repetition _, .range _
  | .zeroOrMore _, .literal _ | .zeroOrMore _, .sequence _ | .zeroOrMore _, .alternation _
  | .zeroOrMore _, .optional _ | .zeroOrMore _, .repetition _ | .zeroOrMore _, .range _
  | .range _, .literal _ | .range _, .sequence _ | .range _, .alternation _
  | .range _, .optional _ | .range _, .repetition _ | .range _, .zeroOrMore _ =>
      isFalse nofun

def decEqItems : (ps qs : List Pattern) → Decidable (ps = qs)
  | [], [] => isTrue rfl
  | [], _ :: _ | _ :: _, [] => isFalse nofun
  | p :: ps, q :: qs =>
      match decEq p q, decEqItems ps qs with
      | isTrue hp, isTrue hps => isTrue (by rw [hp, hps])
      | isFalse hp, _ => isFalse fun e => hp (List.cons.inj e).1
      | _, isFalse hps => isFalse fun e => hps (List.cons.inj e).2

end

instance : DecidableEq Pattern := decEq

def empty : Pattern :=
  .literal []

def isEmpty : Pattern → Bool
  | .literal bytes => bytes.isEmpty
  | _ => false

/-- What a pattern contributes to a sequence. -/
def sequenceItems : Pattern → List Pattern
  | .sequence items => items
  | p => [p]

/-- What a pattern contributes to an alternation. -/
def alternationItems : Pattern → List Pattern
  | .alternation items => items
  | p => [p]

/-- Adds an item to the end of a sequence; a literal after a literal extends it. -/
def appendItem (items : List Pattern) (item : Pattern) : List Pattern :=
  match items.getLast?, item with
  | some (.literal a), .literal b => items.dropLast ++ [.literal (a ++ b)]
  | _, _ => items ++ [item]

def ofItems : List Pattern → Pattern
  | [p] => p
  | items => .sequence items

def concat (p q : Pattern) : Pattern :=
  if p.isEmpty then q
  else if q.isEmpty then p
  else ofItems (q.sequenceItems.foldl appendItem p.sequenceItems)

def alternate (p q : Pattern) : Pattern :=
  .alternation (p.alternationItems ++ q.alternationItems)

end Pattern

end Munch
