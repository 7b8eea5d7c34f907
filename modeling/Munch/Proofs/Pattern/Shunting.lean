import Munch.Proofs.Pattern.Grammar

/-!
The builder against the grammar.

The stacks of the builder are the levels that wait, but for quantifiers that have not been applied
yet: reducing by the rank of quantifiers makes them so (`Represents`).  Each call takes the stacks as
the symbol takes the levels (`Reaches.take`), so what is built is the pattern of the grammar
(`assemble_eq_ok_iff`), and a call or the end fails exactly where the parentheses do not balance
(`assemble_eq_error_iff`).
-/

set_option autoImplicit false

namespace Munch.Pattern

def Quantifier.op : Quantifier → Op
  | .optional => .optional
  | .zeroOrMore => .zeroOrMore
  | .oneOrMore => .oneOrMore

@[simp] theorem Quantifier.op_ne_group (q : Quantifier) : q.op ≠ .group := by
  cases q <;> decide

@[simp] theorem Quantifier.rank_op (q : Quantifier) : q.op.rank = 4 := by
  cases q <;> rfl

@[simp] theorem Quantifier.apply?_op (q : Quantifier) (p : Pattern) (rest : List Pattern) :
    q.op.apply? (p :: rest) = some (q.wrap p :: rest) := by
  cases q <;> rfl

namespace Level

def operands (l : Level) : List Pattern :=
  l.item.toList ++ l.seq :: l.alts.toList

def operators (l : Level) : List Op :=
  l.item.toList.map (fun _ => .concat) ++ l.alts.toList.map fun _ => .alternate

end Level

namespace Levels

def outerOperands (outer : List Level) : List Pattern :=
  outer.flatMap fun l => l.seq :: l.alts.toList

def outerOperators (outer : List Level) : List Op :=
  outer.flatMap fun l => .group :: .concat :: l.alts.toList.map fun _ => .alternate

def pending (s : Levels) : Stacks :=
  ⟨s.current.operands ++ outerOperands s.outer, s.current.operators ++ outerOperators s.outer⟩

end Levels

section Reduce

variable {operands : List Pattern} {ops : List Op} {waiting : Stacks} {rank : Nat}

/-- Nothing is applied across an open group or to an empty stack. -/
theorem reduce_outer (rank : Nat) (operands : List Pattern) (outer : List Level) :
    reduce rank operands (Levels.outerOperators outer) =
      (none, ⟨operands, Levels.outerOperators outer⟩) := by
  cases outer <;> simp [Levels.outerOperators, reduce]

/-- What applies tight operators itself makes no difference between stacks and what reducing by their
rank leaves of them. -/
theorem eq_of_reduce {α : Type} {f : List Pattern → List Op → α} {low : Nat}
    (applies : ∀ op operands operands' ops, op ≠ .group → op.rank ≤ low →
      op.apply? operands = some operands' → f operands (op :: ops) = f operands' ops)
    (reduced : reduce low operands ops = (none, waiting)) :
    f operands ops = f waiting.operands waiting.operators := by
  fun_induction reduce low operands ops with
  | case1 operands =>
      cases reduced
      rfl
  | case2 operands op ops blocked =>
      cases reduced
      rfl
  | case3 operands op ops free operands' applied ih =>
      obtain ⟨notGroup, tight⟩ := not_or.mp free
      rw [← ih reduced]
      exact applies op operands operands' ops notGroup (Nat.le_of_not_lt tight) applied
  | case4 => cases reduced

theorem reduce_reduce {low : Nat} (le : low ≤ rank)
    (reduced : reduce low operands ops = (none, waiting)) :
    reduce rank operands ops = reduce rank waiting.operands waiting.operators := by
  refine eq_of_reduce (fun op operands operands' ops notGroup tight applied => ?_) reduced
  have through : ¬ (op = .group ∨ rank < op.rank) := not_or.mpr ⟨notGroup, by omega⟩
  rw [reduce, if_neg through, applied]

theorem closeGroup_reduce {low : Nat} (reduced : reduce low operands ops = (none, waiting)) :
    closeGroup operands ops = closeGroup waiting.operands waiting.operators := by
  refine eq_of_reduce (fun op operands operands' ops notGroup _ applied => ?_) reduced
  cases op <;> simp_all [closeGroup]

theorem applyAll_reduce {low : Nat} (reduced : reduce low operands ops = (none, waiting)) :
    applyAll operands ops = applyAll waiting.operands waiting.operators := by
  refine eq_of_reduce (fun op operands operands' ops notGroup _ applied => ?_) reduced
  cases op <;> simp_all [applyAll]

end Reduce

namespace Levels

variable (l : Level) (outer : List Level)

theorem reduce_quantifiers (s : Levels) :
    reduce 4 s.pending.operands s.pending.operators = (none, s.pending) := by
  obtain ⟨⟨alts, seq, item⟩, outer⟩ := s
  cases item <;> cases alts <;>
    simp [pending, Level.operands, Level.operators, reduce, Op.rank, reduce_outer]

theorem reduce_concat (s : Levels) :
    reduce 5 s.pending.operands s.pending.operators =
      (none, pending ⟨s.current.settle, s.outer⟩) := by
  obtain ⟨⟨alts, seq, item⟩, outer⟩ := s
  cases item <;> cases alts <;>
    simp [pending, Level.operands, Level.operators, Level.settle, Level.sequence, reduce, Op.rank,
      Op.apply?, reduce_outer]

theorem reduce_alternate (s : Levels) :
    reduce 7 s.pending.operands s.pending.operators =
      (none, ⟨s.current.value :: outerOperands s.outer, outerOperators s.outer⟩) := by
  obtain ⟨⟨alts, seq, item⟩, outer⟩ := s
  cases item <;> cases alts <;>
    simp [pending, Level.operands, Level.operators, Level.value, Level.sequence, reduce, Op.rank,
      Op.apply?, reduce_outer]

theorem closeGroup_pending (s : Levels) :
    closeGroup s.pending.operands s.pending.operators =
      closeGroup (s.current.value :: outerOperands s.outer) (outerOperators s.outer) :=
  closeGroup_reduce s.reduce_alternate

theorem applyAll_pending (s : Levels) :
    applyAll s.pending.operands s.pending.operators =
      applyAll (s.current.value :: outerOperands s.outer) (outerOperators s.outer) :=
  applyAll_reduce s.reduce_alternate

end Levels

/-- The stacks are the levels when the waiting quantifiers have been applied. -/
def Represents (given : Stacks) (s : Levels) : Prop :=
  reduce 4 given.operands given.operators = (none, s.pending)

namespace Represents

variable {given : Stacks} {s : Levels}

theorem start (u : Universe) : Represents (Builder.new u).pending .start := rfl

theorem ofStacks (s : Levels) : Represents s.pending s :=
  s.reduce_quantifiers

theorem reduce_concat (represents : Represents given s) :
    reduce 5 given.operands given.operators = (none, Levels.pending ⟨s.current.settle, s.outer⟩) := by
  rw [reduce_reduce (by decide) represents, s.reduce_concat]

theorem reduce_alternate (represents : Represents given s) :
    reduce 7 given.operands given.operators = (none,
      ⟨s.current.value :: Levels.outerOperands s.outer, Levels.outerOperators s.outer⟩) := by
  rw [reduce_reduce (by decide) represents, s.reduce_alternate]

theorem wrap (s : Levels) (q : Quantifier) :
    Represents ⟨s.pending.operands, q.op :: s.pending.operators⟩ ⟨s.current.wrap q, s.outer⟩ := by
  have applied := Levels.reduce_quantifiers ⟨s.current.wrap q, s.outer⟩
  obtain ⟨⟨alts, seq, item⟩, outer⟩ := s
  cases item <;>
    simp_all [Represents, Levels.pending, Level.operands, Level.operators, Level.wrap, reduce]

theorem closeGroup_eq (represents : Represents given s) :
    closeGroup given.operands given.operators =
      match s.outer with
      | [] => (some .unopenedGroup, ⟨[s.current.value], []⟩)
      | l :: rest => (none, Levels.pending ⟨l.fill s.current.value, rest⟩) := by
  rw [closeGroup_reduce represents, s.closeGroup_pending]
  cases s.outer <;> rfl

theorem applyAll_eq (represents : Represents given s) :
    applyAll given.operands given.operators =
      if s.outer = [] then .ok s.current.value else .error .unclosedGroup := by
  rw [applyAll_reduce represents, s.applyAll_pending]
  cases s.outer <;> rfl

end Represents

namespace Builder

def take (b : Builder) : Symbol → Option Error × Builder
  | .atom p => b.pushAtom p
  | .quantifier q => b.pushPostfix q.op
  | .bar => b.nextAlternative
  | .opening => b.openGroup
  | .closing => b.pushOperator ')'

theorem alphabet_after (b : Builder) (rank : Nat) (change : Stacks → Stacks) :
    (b.after rank change).2.alphabet = b.alphabet := by
  unfold after
  split <;> rfl

theorem alphabet_take (b : Builder) (x : Symbol) : (b.take x).2.alphabet = b.alphabet := by
  cases x with
  | atom p => exact b.alphabet_after _ _
  | quantifier q => exact b.alphabet_after _ _
  | bar => exact b.alphabet_after _ _
  | opening => exact b.alphabet_after _ _
  | closing => rfl

theorem after_eq {b : Builder} {rank : Nat} {change : Stacks → Stacks} {waiting : Stacks}
    (reduced : reduce rank b.pending.operands b.pending.operators = (none, waiting)) :
    b.after rank change = (none, { b with pending := change waiting }) := by
  rw [after, reduced]

structure Reaches (b : Builder) (u : Universe) (s : Levels) : Prop where
  alphabet : b.alphabet = u
  represents : Represents b.pending s

variable {b : Builder} {u : Universe} {s t : Levels} {x : Symbol}

theorem Reaches.take (reaches : b.Reaches u s) (stepped : s.step x = some t) :
    ∃ b', b.take x = (none, b') ∧ b'.Reaches u t := by
  have alphabet := reaches.alphabet
  have represents := reaches.represents
  -- all but quantifiers reduce by a higher rank, so that nothing is left to apply within the level
  cases x with
  | atom p =>
      cases stepped
      exact ⟨_, after_eq represents.reduce_concat, alphabet, .ofStacks ⟨s.current.put p, s.outer⟩⟩
  | quantifier q =>
      cases stepped
      have reduced : reduce q.op.rank b.pending.operands b.pending.operators = (none, s.pending) := by
        rw [q.rank_op]
        exact represents
      exact ⟨_, after_eq reduced, alphabet, .wrap s q⟩
  | bar =>
      cases stepped
      exact ⟨_, after_eq represents.reduce_alternate, alphabet,
        .ofStacks ⟨.blank (some s.current.value), s.outer⟩⟩
  | opening =>
      cases stepped
      exact ⟨_, after_eq represents.reduce_concat, alphabet,
        .ofStacks ⟨.blank none, s.current.settle :: s.outer⟩⟩
  | closing =>
      obtain ⟨current, outer⟩ := s
      cases outer with
      | nil => cases stepped
      | cons l rest =>
          cases stepped
          refine ⟨{ b with pending := Levels.pending ⟨l.fill current.value, rest⟩ }, ?_, alphabet,
            .ofStacks _⟩
          rw [Builder.take, pushOperator, represents.closeGroup_eq]

theorem Reaches.take_eq_error (reaches : b.Reaches u s) (stopped : s.step x = none) :
    x = .closing ∧ (b.take x).1 = some .unopenedGroup := by
  cases x with
  | closing =>
      obtain ⟨current, outer⟩ := s
      cases outer with
      | nil =>
          have closed := reaches.represents.closeGroup_eq
          refine ⟨rfl, ?_⟩
          rw [Builder.take, pushOperator, closed]
      | cons l rest => cases stopped
  | _ => cases stopped

def takeAll (b : Builder) : List Symbol → Except Error Builder
  | [] => .ok b
  | x :: rest =>
      match b.take x with
      | (none, b') => b'.takeAll rest
      | (some e, _) => .error e

/-- Symbols take the builder to the levels behind them, or to a group that is not open. -/
theorem Reaches.takeAll (reaches : b.Reaches u s) (v : List Symbol) :
    (∃ t b', s.run v = some t ∧ b.takeAll v = .ok b' ∧ b'.Reaches u t) ∨
      (s.run v = none ∧ b.takeAll v = .error .unopenedGroup) := by
  induction v generalizing b s with
  | nil => exact .inl ⟨s, b, rfl, rfl, reaches⟩
  | cons x rest ih =>
      rw [Levels.run, Builder.takeAll]
      cases stepped : s.step x with
      | none =>
          obtain ⟨-, failed⟩ := reaches.take_eq_error stepped
          cases taken : b.take x with
          | mk error b' =>
              rw [taken] at failed
              cases failed
              exact .inr ⟨rfl, rfl⟩
      | some t =>
          obtain ⟨b', taken, next⟩ := reaches.take stepped
          rw [taken]
          exact ih next

theorem reaches_new (u : Universe) : (new u).Reaches u .start :=
  ⟨rfl, .start u⟩

theorem Reaches.finish (reaches : b.Reaches u s) :
    b.finish = if s.outer = [] then .ok s.current.value else .error .unclosedGroup :=
  reaches.represents.applyAll_eq

def assemble (u : Universe) (v : List Symbol) : Except Error Pattern :=
  match (new u).takeAll v with
  | .ok b => b.finish
  | .error e => .error e

theorem assemble_eq (u : Universe) (v : List Symbol) :
    assemble u v =
      match Levels.start.run v with
      | none => .error .unopenedGroup
      | some t => if t.outer = [] then .ok t.current.value else .error .unclosedGroup := by
  rw [assemble]
  rcases (reaches_new u).takeAll v with ⟨t, b, run, taken, reaches⟩ | ⟨stopped, failed⟩
  · rw [run, taken]
    exact reaches.finish
  · rw [stopped, failed]

theorem assemble_eq_ok_iff {v : List Symbol} {p : Pattern} :
    assemble u v = .ok p ↔ AltOf v p := by
  rw [assemble_eq, altOf_iff_run]
  cases ran : Levels.start.run v with
  | none => simp
  | some t =>
      obtain ⟨current, outer⟩ := t
      cases outer with
      | nil => simp
      | cons l rest => simp

theorem assemble_eq_error_iff {v : List Symbol} {e : Error} :
    assemble u v = .error e ↔
      (e = .unopenedGroup ∧ nesting 0 v = none) ∨
      (e = .unclosedGroup ∧ ∃ n, nesting 0 v = some (n + 1)) := by
  have depth : nesting 0 v = (Levels.start.run v).map fun t => t.outer.length :=
    Levels.start.nesting_eq v
  rw [assemble_eq, depth]
  cases ran : Levels.start.run v with
  | none => simp [eq_comm]
  | some t =>
      obtain ⟨current, outer⟩ := t
      cases outer with
      | nil => simp
      | cons l rest => simp [eq_comm]

end Builder

inductive Feed where
  | char (c : Char)
  | byte (b : UInt8)
  | literal (bytes : List UInt8)
  | node (p : Pattern)
  | wildcard
  | quantifier (q : Quantifier)
  | bar
  | opening
  | closing

def Feed.symbol (u : Universe) : Feed → Symbol
  | .char c => .atom (.literal (String.utf8EncodeChar c))
  | .byte b => .atom (.literal [b])
  | .literal bytes => .atom (.literal bytes)
  | .node p => .atom p
  | .wildcard => .atom (.range u.wildcard)
  | .quantifier q => .quantifier q
  | .bar => .bar
  | .opening => .opening
  | .closing => .closing

namespace Builder

def feed (b : Builder) : Feed → Option Error × Builder
  | .char c => b.pushChar c
  | .byte x => b.pushByte x
  | .literal bytes => b.pushLiteral bytes
  | .node p => b.pushAtom p
  | .wildcard => b.pushOperator '.'
  | .quantifier .optional => b.pushOperator '?'
  | .quantifier .zeroOrMore => b.pushOperator '*'
  | .quantifier .oneOrMore => b.pushOperator '+'
  | .bar => b.pushOperator '|'
  | .opening => b.pushOperator '('
  | .closing => b.pushOperator ')'

def feedAll (b : Builder) : List Feed → Except Error Builder
  | [] => .ok b
  | f :: rest =>
      match b.feed f with
      | (none, b') => b'.feedAll rest
      | (some e, _) => .error e

def build (u : Universe) (feeds : List Feed) : Except Error Pattern :=
  match (new u).feedAll feeds with
  | .ok b => b.finish
  | .error e => .error e

theorem feed_eq_take (b : Builder) (f : Feed) : b.feed f = b.take (f.symbol b.alphabet) := by
  cases f with
  | quantifier q => cases q <;> rfl
  | _ => rfl

theorem feedAll_eq_takeAll {b : Builder} {u : Universe} (feeds : List Feed)
    (alphabet : b.alphabet = u) : b.feedAll feeds = b.takeAll (feeds.map (Feed.symbol u)) := by
  induction feeds generalizing b with
  | nil => rfl
  | cons f rest ih =>
      subst alphabet
      have kept := b.alphabet_take (f.symbol b.alphabet)
      rw [List.map_cons, feedAll, takeAll, feed_eq_take]
      cases taken : b.take (f.symbol b.alphabet) with
      | mk error next =>
          rw [taken] at kept
          cases error with
          | none => exact ih kept
          | some e => rfl

theorem build_eq_assemble (u : Universe) (feeds : List Feed) :
    build u feeds = assemble u (feeds.map (Feed.symbol u)) := by
  rw [build, assemble, feedAll_eq_takeAll (u := u) feeds rfl]

theorem Reaches.feed_eq_some_iff {b : Builder} {u : Universe} {s : Levels} (reaches : b.Reaches u s)
    (f : Feed) (e : Error) :
    (b.feed f).1 = some e ↔ s.outer = [] ∧ f = .closing ∧ e = .unopenedGroup := by
  rw [feed_eq_take, reaches.alphabet]
  cases stepped : s.step (f.symbol u) with
  | none =>
      obtain ⟨symbol, failed⟩ := reaches.take_eq_error stepped
      have closing : f = .closing := by
        cases f <;> cases symbol
        rfl
      subst closing
      have closed : s.outer = [] := by
        obtain ⟨current, outer⟩ := s
        cases outer with
        | nil => rfl
        | cons l rest => cases stepped
      rw [failed]
      simp [closed, eq_comm]
  | some t =>
      obtain ⟨b', taken, -⟩ := reaches.take stepped
      rw [taken]
      constructor
      · intro absurdity
        cases absurdity
      · rintro ⟨closed, rfl, -⟩
        obtain ⟨current, outer⟩ := s
        cases closed
        cases stepped

/-- The builder reads the grammar: it builds the pattern of an alternation and nothing else, and fails
exactly if the parentheses do not balance, at the first one that closes a group which is not open, or
at the end if a group is still open. -/
theorem build_reads_grammar (u : Universe) (feeds : List Feed) :
    (∀ p, build u feeds = .ok p ↔ AltOf (feeds.map (Feed.symbol u)) p) ∧
    (∀ e, build u feeds = .error e ↔
      (e = .unopenedGroup ∧ nesting 0 (feeds.map (Feed.symbol u)) = none) ∨
      (e = .unclosedGroup ∧ ∃ n, nesting 0 (feeds.map (Feed.symbol u)) = some (n + 1))) ∧
    ∀ n, nesting 0 (feeds.map (Feed.symbol u)) = some n →
      ∃ b, (new u).feedAll feeds = .ok b ∧
        ∀ f e, (b.feed f).1 = some e ↔ n = 0 ∧ f = .closing ∧ e = .unopenedGroup := by
  refine ⟨fun p => ?_, fun e => ?_, fun n depth => ?_⟩
  · rw [build_eq_assemble]
    exact assemble_eq_ok_iff
  · rw [build_eq_assemble]
    exact assemble_eq_error_iff
  · have outer := Levels.start.nesting_eq (feeds.map (Feed.symbol u))
    rw [show Levels.start.outer.length = 0 from rfl, depth] at outer
    rcases (reaches_new u).takeAll (feeds.map (Feed.symbol u)) with
      ⟨t, b, run, taken, reaches⟩ | ⟨stopped, -⟩
    · rw [run, Option.map_some, Option.some.injEq] at outer
      refine ⟨b, (feedAll_eq_takeAll feeds rfl).trans taken, fun f e => ?_⟩
      rw [reaches.feed_eq_some_iff, outer, List.length_eq_zero_iff]
    · rw [stopped] at outer
      cases outer

theorem build_reads_grammar_open :
    nesting 0 ([Feed.byte 97, .bar, .opening].map (Feed.symbol .ascii)) = some 1 ∧
      ∃ b, (new .ascii).feedAll [.byte 97, .bar, .opening] = .ok b ∧
        ∀ f e, (b.feed f).1 = some e ↔ 1 = 0 ∧ f = .closing ∧ e = .unopenedGroup :=
  ⟨rfl, (build_reads_grammar .ascii _).2.2 1 rfl⟩

end Builder

end Munch.Pattern
