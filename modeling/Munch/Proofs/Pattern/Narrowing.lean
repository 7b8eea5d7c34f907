import Mathlib.Data.List.Forall2
import Munch.Pattern.Reader
import Munch.Proofs.ByteSet.Membership
import Munch.Proofs.Pattern.Language
import Munch.Proofs.Pattern.Tidy

/-!
One text parsed in both universes.

The universe decides which bytes the wildcard and negated classes stand for, and nothing else.  Sets
of the smaller universe are those of the larger one without some bytes from 0x80 on
(`ByteSet.Narrows`), and a pattern narrows another if only its sets do (`Narrows`).  The builder treats
patterns alike that are alike in everything but their sets, so the two universes read a text to the
same error or to two patterns of which one narrows the other (`parseChars_agree`).  Such patterns
match the same strings of ASCII (`Narrows.matches_iff`).
-/

set_option autoImplicit false

namespace Munch

/-- Results that are the same error, or values in a relation. -/
inductive Agree {ε α β : Type} (R : α → β → Prop) : Except ε α → Except ε β → Prop where
  | error (e : ε) : Agree R (.error e) (.error e)
  | ok {a : α} {b : β} : R a b → Agree R (.ok a) (.ok b)

def IsAscii (bytes : List UInt8) : Prop :=
  ∀ b ∈ bytes, b < 0x80

/-- The set is the other one without some bytes from 0x80 on. -/
structure ByteSet.Narrows (s t : ByteSet) : Prop where
  subset : ∀ b ∈ s, b ∈ t
  ascii_iff : ∀ b, b < 0x80 → (b ∈ s ↔ b ∈ t)

namespace ByteSet

theorem Narrows.refl (s : ByteSet) : Narrows s s :=
  ⟨fun _ mem => mem, fun _ _ => Iff.rfl⟩

theorem le_max_of_ascii {b : UInt8} (ascii : b < 0x80) (u : Universe) : b ≤ u.max := by
  have small : b.toNat < 128 := ascii
  cases u with
  | ascii => exact Nat.le_of_lt_succ small
  | bytes => exact Nat.le_trans (Nat.le_of_lt small) (by decide)

theorem le_max_of_le {b : UInt8} (le : b ≤ Universe.ascii.max) : b ≤ Universe.bytes.max :=
  Nat.le_trans (show b.toNat ≤ 127 from le) (by decide)

theorem narrows_wildcard : Narrows Universe.ascii.wildcard Universe.bytes.wildcard where
  subset b mem := by
    rw [mem_wildcard] at mem ⊢
    exact ⟨le_max_of_le mem.1, mem.2⟩
  ascii_iff b ascii := by simp [mem_wildcard, le_max_of_ascii ascii]

theorem narrows_complementIn (s : ByteSet) :
    Narrows (s.complementIn .ascii) (s.complementIn .bytes) where
  subset b mem := by
    rw [mem_complementIn] at mem ⊢
    exact ⟨le_max_of_le mem.1, mem.2⟩
  ascii_iff b ascii := by simp [mem_complementIn, le_max_of_ascii ascii]

end ByteSet

namespace Pattern

mutual

/-- Patterns of the same shape with the same literals, whose sets narrow those of the other. -/
inductive Narrows : Pattern → Pattern → Prop where
  | literal (bytes : List UInt8) : Narrows (.literal bytes) (.literal bytes)
  | sequence {ps qs : List Pattern} : NarrowsAll ps qs → Narrows (.sequence ps) (.sequence qs)
  | alternation {ps qs : List Pattern} :
      NarrowsAll ps qs → Narrows (.alternation ps) (.alternation qs)
  | optional {p q : Pattern} : Narrows p q → Narrows (.optional p) (.optional q)
  | repetition {p q : Pattern} : Narrows p q → Narrows (.repetition p) (.repetition q)
  | zeroOrMore {p q : Pattern} : Narrows p q → Narrows (.zeroOrMore p) (.zeroOrMore q)
  | range {s t : ByteSet} : s.Narrows t → Narrows (.range s) (.range t)

inductive NarrowsAll : List Pattern → List Pattern → Prop where
  | nil : NarrowsAll [] []
  | cons {p q : Pattern} {ps qs : List Pattern} :
      Narrows p q → NarrowsAll ps qs → NarrowsAll (p :: ps) (q :: qs)

end

mutual

theorem Narrows.refl : ∀ p : Pattern, Narrows p p
  | .literal bytes => .literal bytes
  | .sequence items => .sequence (NarrowsAll.refl items)
  | .alternation items => .alternation (NarrowsAll.refl items)
  | .optional item => .optional (Narrows.refl item)
  | .repetition item => .repetition (Narrows.refl item)
  | .zeroOrMore item => .zeroOrMore (Narrows.refl item)
  | .range set => .range (.refl set)

theorem NarrowsAll.refl : ∀ ps : List Pattern, NarrowsAll ps ps
  | [] => .nil
  | p :: ps => .cons (Narrows.refl p) (NarrowsAll.refl ps)

end

section Building

variable {p p' q q' : Pattern} {ps ps' qs qs' : List Pattern}

theorem NarrowsAll.append (first : NarrowsAll ps qs) (second : NarrowsAll ps' qs') :
    NarrowsAll (ps ++ ps') (qs ++ qs') := by
  induction ps generalizing qs with
  | nil =>
      cases first
      exact second
  | cons p rest ih =>
      cases first with
      | cons head tail => exact .cons head (ih tail)

theorem NarrowsAll.single (narrows : Narrows p q) : NarrowsAll [p] [q] :=
  .cons narrows .nil

theorem Narrows.isEmpty_eq (narrows : Narrows p q) : p.isEmpty = q.isEmpty := by
  cases narrows <;> rfl

theorem Narrows.isLiteral_eq (narrows : Narrows p q) : p.isLiteral = q.isLiteral := by
  cases narrows <;> rfl

theorem Narrows.sequenceItems (narrows : Narrows p q) :
    NarrowsAll p.sequenceItems q.sequenceItems := by
  cases narrows with
  | sequence items => exact items
  | _ => exact .single (by constructor <;> assumption)

theorem Narrows.alternationItems (narrows : Narrows p q) :
    NarrowsAll p.alternationItems q.alternationItems := by
  cases narrows with
  | alternation items => exact items
  | _ => exact .single (by constructor <;> assumption)

theorem NarrowsAll.exists_concat (all : NarrowsAll (ps ++ [p]) qs) :
    ∃ qs' q, qs = qs' ++ [q] ∧ NarrowsAll ps qs' ∧ Narrows p q := by
  induction ps generalizing qs with
  | nil =>
      cases all with
      | cons head tail =>
          cases tail
          exact ⟨[], _, rfl, .nil, head⟩
  | cons r rest ih =>
      cases all with
      | cons head tail =>
          obtain ⟨qs', q, rfl, before, last⟩ := ih tail
          exact ⟨_ :: qs', q, rfl, .cons head before, last⟩

theorem NarrowsAll.appendItem (all : NarrowsAll ps qs) (narrows : Narrows p q) :
    NarrowsAll (appendItem ps p) (appendItem qs q) := by
  rcases ps.eq_nil_or_concat' with rfl | ⟨ps, r, rfl⟩
  · cases all
    rw [appendItem_nil, appendItem_nil]
    exact .single narrows
  · obtain ⟨qs, t, rfl, before, last⟩ := all.exists_concat
    by_cases apart : r.isLiteral = false ∨ p.isLiteral = false
    · have alsoApart : t.isLiteral = false ∨ q.isLiteral = false := by
        rwa [← last.isLiteral_eq, ← narrows.isLiteral_eq]
      rw [appendItem_apart apart, appendItem_apart alsoApart]
      exact (before.append (.single last)).append (.single narrows)
    · obtain ⟨a, b, rfl, rfl⟩ := exists_literals apart
      cases last
      cases narrows
      rw [appendItem_literal, appendItem_literal]
      exact before.append (.refl _)

theorem NarrowsAll.foldl_appendItem (items : NarrowsAll ps' qs') (all : NarrowsAll ps qs) :
    NarrowsAll (ps'.foldl Pattern.appendItem ps) (qs'.foldl Pattern.appendItem qs) := by
  induction ps' generalizing qs' ps qs with
  | nil =>
      cases items
      exact all
  | cons p rest ih =>
      cases items with
      | cons head tail =>
          rw [List.foldl_cons, List.foldl_cons]
          exact ih tail (all.appendItem head)

theorem NarrowsAll.ofItems (all : NarrowsAll ps qs) : Narrows (ofItems ps) (ofItems qs) := by
  cases all with
  | nil => exact .sequence .nil
  | cons head tail =>
      cases tail with
      | nil => exact head
      | cons next rest => exact .sequence (.cons head (.cons next rest))

theorem Narrows.concat (first : Narrows p q) (second : Narrows p' q') :
    Narrows (concat p p') (concat q q') := by
  rw [Pattern.concat, Pattern.concat, first.isEmpty_eq, second.isEmpty_eq]
  split
  · exact second
  · split
    · exact first
    · exact (second.sequenceItems.foldl_appendItem first.sequenceItems).ofItems

theorem Narrows.alternate (first : Narrows p q) (second : Narrows p' q') :
    Narrows (alternate p p') (alternate q q') :=
  .alternation (first.alternationItems.append second.alternationItems)

end Building

section Matching

variable {p q : Pattern} {ps qs : List Pattern} {w : List UInt8}

theorem isAscii_append {v w : List UInt8} : IsAscii (v ++ w) ↔ IsAscii v ∧ IsAscii w :=
  List.forall_mem_append

def SameAscii (L M : List UInt8 → Prop) : Prop :=
  ∀ w, IsAscii w → (L w ↔ M w)

theorem SameAscii.plus {L M : List UInt8 → Prop} (same : SameAscii L M) :
    SameAscii (Plus L) (Plus M) := by
  have grown : ∀ {L M : List UInt8 → Prop}, SameAscii L M → ∀ {w}, Plus L w → IsAscii w → Plus M w := by
    intro L M same w rounds ascii
    induction rounds with
    | once found => exact .once ((same _ ascii).mp found)
    | more found _ ih =>
        obtain ⟨first, later⟩ := isAscii_append.mp ascii
        exact .more ((same _ first).mp found) (ih later)
  intro w ascii
  exact ⟨fun rounds => grown same rounds ascii,
    fun rounds => grown (fun w ascii => (same w ascii).symm) rounds ascii⟩

mutual

/-- A pattern that narrows another matches the same strings of ASCII. -/
theorem Narrows.sameAscii : ∀ {p q : Pattern}, Narrows p q → SameAscii p.Matches q.Matches
  | _, _, .literal bytes => fun _ _ => Iff.rfl
  | _, _, .sequence items => items.sameAscii_sequence
  | _, _, .alternation items => by
      intro w ascii
      rw [matches_alternation_iff, matches_alternation_iff]
      exact items.exists_matches_iff ascii
  | _, _, .optional item => by
      intro w ascii
      rw [matches_optional_iff, matches_optional_iff, item.sameAscii w ascii]
  | _, _, .repetition item => by
      intro w ascii
      rw [matches_repetition_iff, matches_repetition_iff, item.sameAscii.plus w ascii]
  | _, _, .zeroOrMore item => by
      intro w ascii
      rw [matches_zeroOrMore_iff, matches_zeroOrMore_iff, item.sameAscii.plus w ascii]
  | _, _, .range set => by
      intro w ascii
      rw [matches_range_iff, matches_range_iff]
      constructor
      · intro ⟨b, mem, one⟩
        exact ⟨b, set.subset b mem, one⟩
      · intro ⟨b, mem, one⟩
        have small : b < 0x80 := ascii b (by rw [one]; exact List.mem_singleton_self b)
        exact ⟨b, (set.ascii_iff b small).mpr mem, one⟩

theorem NarrowsAll.sameAscii_sequence : ∀ {ps qs : List Pattern}, NarrowsAll ps qs →
    SameAscii (sequence ps).Matches (sequence qs).Matches
  | _, _, .nil => fun _ _ => Iff.rfl
  | _, _, .cons head tail => by
      intro w ascii
      rw [matches_sequence_cons_iff, matches_sequence_cons_iff]
      refine exists_congr fun u => exists_congr fun v => and_congr_right fun split => ?_
      rw [split, isAscii_append] at ascii
      rw [head.sameAscii u ascii.1, tail.sameAscii_sequence v ascii.2]

theorem NarrowsAll.exists_matches_iff {w : List UInt8} (ascii : IsAscii w) :
    ∀ {ps qs : List Pattern}, NarrowsAll ps qs →
      ((∃ p ∈ ps, p.Matches w) ↔ ∃ q ∈ qs, q.Matches w)
  | _, _, .nil => by simp
  | _, _, .cons head tail => by
      simp only [List.mem_cons, exists_eq_or_imp]
      rw [head.sameAscii w ascii, tail.exists_matches_iff ascii]

end

end Matching

section Builder

variable {b c : Builder} {xs ys : List Pattern}

structure Stacks.Narrows (s t : Stacks) : Prop where
  operands : NarrowsAll s.operands t.operands
  operators : s.operators = t.operators

theorem Stacks.Narrows.push {s t : Stacks} (waiting : s.Narrows t) (more : NarrowsAll xs ys)
    (ops : List Op) :
    Stacks.Narrows ⟨xs ++ s.operands, ops ++ s.operators⟩
      ⟨ys ++ t.operands, ops ++ t.operators⟩ where
  operands := more.append waiting.operands
  operators := congrArg (ops ++ ·) waiting.operators

theorem NarrowsAll.applied (all : NarrowsAll xs ys) (op : Op) {a b : Option (List Pattern)}
    (first : op.apply? xs = a) (second : op.apply? ys = b) : Option.Rel NarrowsAll a b := by
  subst first second
  cases all with
  | nil => cases op <;> exact .none
  | cons first rest =>
      cases op with
      | group => exact .none
      | optional => exact .some (.cons (.optional first) rest)
      | zeroOrMore => exact .some (.cons (.zeroOrMore first) rest)
      | oneOrMore => exact .some (.cons (.repetition first) rest)
      | concat =>
          cases rest with
          | nil => exact .none
          | cons second rest => exact .some (.cons (second.concat first) rest)
      | alternate =>
          cases rest with
          | nil => exact .none
          | cons second rest => exact .some (.cons (second.alternate first) rest)

theorem NarrowsAll.reduce (all : NarrowsAll xs ys) (rank : Nat) (ops : List Op) :
    (reduce rank xs ops).1 = (reduce rank ys ops).1 ∧
      (reduce rank xs ops).2.Narrows (reduce rank ys ops).2 := by
  induction ops generalizing xs ys with
  | nil => exact ⟨rfl, all, rfl⟩
  | cons op ops ih =>
      rw [Pattern.reduce, Pattern.reduce]
      split
      · exact ⟨rfl, all, rfl⟩
      · generalize first : op.apply? xs = a, second : op.apply? ys = b
        cases all.applied op first second with
        | none => exact ⟨rfl, .nil, rfl⟩
        | some all => exact ih all

theorem NarrowsAll.closeGroup (all : NarrowsAll xs ys) (ops : List Op) :
    (closeGroup xs ops).1 = (closeGroup ys ops).1 ∧
      (closeGroup xs ops).2.Narrows (closeGroup ys ops).2 := by
  induction ops generalizing xs ys with
  | nil => exact ⟨rfl, all, rfl⟩
  | cons op ops ih =>
      by_cases group : op = .group
      · rw [group]
        exact ⟨rfl, all, rfl⟩
      · rw [Pattern.closeGroup, Pattern.closeGroup]
        · generalize first : op.apply? xs = a, second : op.apply? ys = b
          cases all.applied op first second with
          | none => exact ⟨rfl, .nil, rfl⟩
          | some all => exact ih all
        · exact group
        · exact group

theorem NarrowsAll.applyAll (all : NarrowsAll xs ys) (ops : List Op) :
    Agree Pattern.Narrows (applyAll xs ops) (applyAll ys ops) := by
  induction ops generalizing xs ys with
  | nil =>
      cases all with
      | nil => exact .error _
      | cons first rest =>
          cases rest with
          | nil => exact .ok first
          | cons => exact .error _
  | cons op ops ih =>
      by_cases group : op = .group
      · rw [group]
        exact .error _
      · rw [Pattern.applyAll, Pattern.applyAll]
        · generalize first : op.apply? xs = a, second : op.apply? ys = b
          cases all.applied op first second with
          | none => exact .error _
          | some all => exact ih all
        · exact group
        · exact group

structure Builder.Narrows (b c : Builder) : Prop where
  alphabet : b.alphabet = .ascii
  alphabet' : c.alphabet = .bytes
  pending : b.pending.Narrows c.pending

namespace Builder

theorem narrows_new : Narrows (new .ascii) (new .bytes) where
  alphabet := rfl
  alphabet' := rfl
  pending := ⟨.refl _, rfl⟩

structure Answers (s t : Option Error × Builder) : Prop where
  error_eq : s.1 = t.1
  builder : s.2.Narrows t.2

namespace Narrows

theorem after (narrows : b.Narrows c) (rank : Nat) {change change' : Stacks → Stacks}
    (kept : ∀ {s t : Stacks}, s.Narrows t → (change s).Narrows (change' t)) :
    Answers (b.after rank change) (c.after rank change') := by
  obtain ⟨same, pending⟩ := narrows.pending.operands.reduce rank b.pending.operators
  rw [Builder.after, Builder.after, ← narrows.pending.operators]
  generalize Pattern.reduce rank b.pending.operands b.pending.operators = r,
    Pattern.reduce rank c.pending.operands b.pending.operators = r' at same pending
  obtain ⟨error, left⟩ := r
  obtain ⟨error', left'⟩ := r'
  cases same
  cases error with
  | none => exact ⟨rfl, narrows.alphabet, narrows.alphabet', kept pending⟩
  | some e => exact ⟨rfl, narrows.alphabet, narrows.alphabet', pending⟩

theorem pushAtom (narrows : b.Narrows c) {p q : Pattern} (atom : p.Narrows q) :
    Answers (b.pushAtom p) (c.pushAtom q) :=
  narrows.after _ fun waiting => waiting.push (.single atom) [.concat]

theorem pushPostfix (narrows : b.Narrows c) (op : Op) :
    Answers (b.pushPostfix op) (c.pushPostfix op) :=
  narrows.after _ fun waiting => waiting.push .nil [op]

theorem pushOperator (narrows : b.Narrows c) (x : Char) :
    Answers (b.pushOperator x) (c.pushOperator x) := by
  unfold Builder.pushOperator
  split
  · rw [narrows.alphabet, narrows.alphabet']
    exact narrows.pushAtom (.range ByteSet.narrows_wildcard)
  · exact narrows.after _ fun waiting => waiting.push (.single (.refl _)) [.group, .concat]
  · obtain ⟨same, pending⟩ := narrows.pending.operands.closeGroup b.pending.operators
    rw [← narrows.pending.operators]
    exact ⟨same, narrows.alphabet, narrows.alphabet', pending⟩
  · exact narrows.after _ fun waiting => waiting.push (.single (.refl _)) [.alternate]
  · exact narrows.pushPostfix .optional
  · exact narrows.pushPostfix .zeroOrMore
  · exact narrows.pushPostfix .oneOrMore
  · exact ⟨rfl, narrows⟩

end Narrows

/-- A class is wrong in both universes or in none, and only a negated one depends on them. -/
theorem agree_toPattern (cls : Class) :
    Agree Pattern.Narrows (cls.toPattern .ascii) (cls.toPattern .bytes) := by
  unfold Class.toPattern
  split
  · exact .error _
  · exact .ok (.range (ByteSet.narrows_complementIn cls.bytes))
  · exact .ok (.refl _)
  · split
    · exact .ok (.refl _)
    · exact .ok (.refl _)

namespace Narrows

theorem push (narrows : b.Narrows c) (piece : Piece) : Answers (b.push piece) (c.push piece) := by
  cases piece with
  | atom p => exact narrows.pushAtom (.refl p)
  | operator x => exact narrows.pushOperator x
  | cls cls =>
      have pattern := agree_toPattern cls
      rw [Builder.push, Builder.push, pushClass, pushClass, narrows.alphabet, narrows.alphabet']
      generalize cls.toPattern .ascii = p, cls.toPattern .bytes = q at pattern
      cases pattern with
      | error e => exact ⟨rfl, narrows⟩
      | ok atom => exact narrows.pushAtom atom

theorem pushAll (narrows : b.Narrows c) (pieces : List Piece) :
    Agree Builder.Narrows (b.pushAll pieces) (c.pushAll pieces) := by
  induction pieces generalizing b c with
  | nil => exact .ok narrows
  | cons piece rest ih =>
      obtain ⟨same, next⟩ := narrows.push piece
      rw [Builder.pushAll, Builder.pushAll]
      generalize b.push piece = r, c.push piece = r' at same next
      obtain ⟨error, left⟩ := r
      obtain ⟨error', left'⟩ := r'
      cases same
      cases error with
      | none => exact ih next
      | some e => exact .error e

theorem finish (narrows : b.Narrows c) : Agree Pattern.Narrows b.finish c.finish := by
  rw [Builder.finish, Builder.finish, ← narrows.pending.operators]
  exact narrows.pending.operands.applyAll _

end Narrows

end Builder

end Builder

/-- The two universes read a text to the same error, or to patterns of which one narrows the other. -/
theorem parseChars_agree (text : List Char) :
    Agree Narrows (parseChars .ascii text) (parseChars .bytes text) := by
  rw [parseChars, parseChars]
  split
  rename_i pieces error read
  have built := Builder.narrows_new.pushAll pieces
  generalize (Builder.new .ascii).pushAll pieces = r, (Builder.new .bytes).pushAll pieces = r' at built
  cases built with
  | error e => exact .error e
  | ok narrows =>
      cases error with
      | some e => exact .error e
      | none => exact narrows.finish

end Pattern

end Munch
