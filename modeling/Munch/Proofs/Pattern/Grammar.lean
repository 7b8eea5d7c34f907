import Munch.Pattern.Builder

/-!
The grammar of patterns.

An alternation is one sequence or several with bars between them, put together from left to right.  A
sequence starts with the empty literal and takes one base after the other; quantifiers belong to the
base before them, or to the empty literal if there is none.  A base is an atom or an alternation in
parentheses.  `AltOf u p` says that the symbols `u` are an alternation whose pattern is `p`.

The symbols read so far describe what is waiting: for each open group a sequence that its pattern will
be appended to, and behind the last of them the alternatives, the sequence and the base that are still
growing (`Reads`).  Each symbol takes such a description to another (`Reads.step`).
-/

set_option autoImplicit false

namespace Munch.Pattern

inductive Quantifier where
  | optional
  | zeroOrMore
  | oneOrMore

def Quantifier.wrap : Quantifier → Pattern → Pattern
  | .optional, p => .optional p
  | .zeroOrMore, p => .zeroOrMore p
  | .oneOrMore, p => .repetition p

def wrapAll (qs : List Quantifier) (p : Pattern) : Pattern :=
  qs.foldl (fun p q => q.wrap p) p

inductive Symbol where
  | atom (p : Pattern)
  | quantifier (q : Quantifier)
  | bar
  | opening
  | closing

mutual

/-- Sequences with bars between them. -/
inductive AltOf : List Symbol → Pattern → Prop where
  | one {u : List Symbol} {p : Pattern} : SeqOf u p → AltOf u p
  | more {u v : List Symbol} {p q : Pattern} :
      AltOf u p → SeqOf v q → AltOf (u ++ .bar :: v) (alternate p q)

/-- Quantified bases, one after the other. -/
inductive SeqOf : List Symbol → Pattern → Prop where
  | start (qs : List Quantifier) : SeqOf (qs.map .quantifier) (wrapAll qs .empty)
  | next {u v : List Symbol} {p q : Pattern} (qs : List Quantifier) :
      SeqOf u p → BaseOf v q → SeqOf (u ++ v ++ qs.map .quantifier) (concat p (wrapAll qs q))

/-- An atom, or an alternation in parentheses. -/
inductive BaseOf : List Symbol → Pattern → Prop where
  | atom (p : Pattern) : BaseOf [.atom p] p
  | group {u : List Symbol} {p : Pattern} : AltOf u p → BaseOf (.opening :: u ++ [.closing]) p

end

theorem wrapAll_append (qs : List Quantifier) (q : Quantifier) (p : Pattern) :
    wrapAll (qs ++ [q]) p = q.wrap (wrapAll qs p) := by
  simp [wrapAll]

def nesting : Nat → List Symbol → Option Nat
  | n, [] => some n
  | n, .opening :: rest => nesting (n + 1) rest
  | 0, .closing :: _ => none
  | n + 1, .closing :: rest => nesting n rest
  | n, .atom _ :: rest => nesting n rest
  | n, .quantifier _ :: rest => nesting n rest
  | n, .bar :: rest => nesting n rest

/-- What waits within one group: the alternatives before the current one, the sequence up to the last
base, and this base with its quantifiers. -/
structure Level where
  alts : Option Pattern
  seq : Pattern
  item : Option Pattern

namespace Level

def blank (alts : Option Pattern) : Level :=
  ⟨alts, .empty, none⟩

def sequence (l : Level) : Pattern :=
  match l.item with
  | none => l.seq
  | some p => concat l.seq p

def value (l : Level) : Pattern :=
  match l.alts with
  | none => l.sequence
  | some p => alternate p l.sequence

def settle (l : Level) : Level :=
  ⟨l.alts, l.sequence, none⟩

def fill (l : Level) (p : Pattern) : Level :=
  ⟨l.alts, l.seq, some p⟩

def put (l : Level) (p : Pattern) : Level :=
  l.settle.fill p

def wrap (l : Level) (q : Quantifier) : Level :=
  match l.item with
  | none => ⟨l.alts, q.wrap l.seq, none⟩
  | some p => ⟨l.alts, l.seq, some (q.wrap p)⟩

@[simp] theorem sequence_put (l : Level) (p : Pattern) :
    (l.put p).sequence = concat l.sequence p := rfl

end Level

/-- What waits on the current level and on those around it. -/
structure Levels where
  current : Level
  outer : List Level

namespace Levels

def start : Levels :=
  ⟨.blank none, []⟩

/-- What waits after a symbol, unless it closes a group that is not open. -/
def step (s : Levels) : Symbol → Option Levels
  | .atom p => some ⟨s.current.put p, s.outer⟩
  | .quantifier q => some ⟨s.current.wrap q, s.outer⟩
  | .bar => some ⟨.blank (some s.current.value), s.outer⟩
  | .opening => some ⟨.blank none, s.current.settle :: s.outer⟩
  | .closing =>
      match s.outer with
      | [] => none
      | l :: rest => some ⟨l.fill s.current.value, rest⟩

def run (s : Levels) : List Symbol → Option Levels
  | [] => some s
  | x :: rest => (s.step x).bind fun t => t.run rest

theorem run_append (s : Levels) (u v : List Symbol) :
    s.run (u ++ v) = (s.run u).bind fun t => t.run v := by
  induction u generalizing s with
  | nil => rfl
  | cons x rest ih =>
      simp only [List.cons_append, run]
      cases s.step x with
      | none => rfl
      | some t => exact ih t

theorem nesting_eq (s : Levels) (u : List Symbol) :
    nesting s.outer.length u = (s.run u).map fun t => t.outer.length := by
  induction u generalizing s with
  | nil => rfl
  | cons x rest ih =>
      rw [run]
      cases x with
      | closing =>
          obtain ⟨current, outer⟩ := s
          cases outer with
          | nil => rfl
          | cons l outer => exact ih ⟨l.fill current.value, outer⟩
      | atom p => exact ih ⟨s.current.put p, s.outer⟩
      | quantifier q => exact ih ⟨s.current.wrap q, s.outer⟩
      | bar => exact ih ⟨.blank (some s.current.value), s.outer⟩
      | opening => exact ih ⟨.blank none, s.current.settle :: s.outer⟩

theorem run_quantifiers (l : Level) (p : Pattern) (outer : List Level) (qs : List Quantifier) :
    run ⟨l.put p, outer⟩ (qs.map .quantifier) = some ⟨l.put (wrapAll qs p), outer⟩ := by
  induction qs generalizing p with
  | nil => rfl
  | cons q rest ih => exact ih (q.wrap p)

theorem run_leading (alts : Option Pattern) (p : Pattern) (outer : List Level)
    (qs : List Quantifier) :
    run ⟨⟨alts, p, none⟩, outer⟩ (qs.map .quantifier) =
      some ⟨⟨alts, wrapAll qs p, none⟩, outer⟩ := by
  induction qs generalizing p with
  | nil => rfl
  | cons q rest ih => exact ih (q.wrap p)

end Levels

mutual

theorem AltOf.run {u : List Symbol} {p : Pattern} (outer : List Level) : AltOf u p →
    ∃ l : Level, l.value = p ∧ Levels.run ⟨.blank none, outer⟩ u = some ⟨l, outer⟩
  | .one seq => by
      obtain ⟨l, alts, sequence, run⟩ := seq.run none outer
      refine ⟨l, ?_, run⟩
      rw [Level.value, alts, sequence]
  | .more alt seq => by
      obtain ⟨k, value, first⟩ := alt.run outer
      obtain ⟨l, alts, sequence, second⟩ := seq.run (some k.value) outer
      refine ⟨l, ?_, ?_⟩
      · rw [Level.value, alts, sequence, value]
      · rw [Levels.run_append, first]
        exact second

theorem SeqOf.run {u : List Symbol} {p : Pattern} (alts : Option Pattern) (outer : List Level) :
    SeqOf u p → ∃ l : Level, l.alts = alts ∧ l.sequence = p ∧
      Levels.run ⟨.blank alts, outer⟩ u = some ⟨l, outer⟩
  | .start qs => ⟨_, rfl, rfl, Levels.run_leading alts .empty outer qs⟩
  | .next qs seq base => by
      obtain ⟨l, same, sequence, first⟩ := seq.run alts outer
      refine ⟨l.put (wrapAll qs _), same, by rw [Level.sequence_put, sequence], ?_⟩
      rw [Levels.run_append, Levels.run_append, first, Option.bind_some, base.run l outer,
        Option.bind_some, Levels.run_quantifiers]

theorem BaseOf.run {u : List Symbol} {p : Pattern} (l : Level) (outer : List Level) :
    BaseOf u p → Levels.run ⟨l, outer⟩ u = some ⟨l.put p, outer⟩
  | .atom p => rfl
  | .group alt => by
      obtain ⟨k, value, inner⟩ := alt.run (l.settle :: outer)
      rw [List.cons_append, Levels.run, Levels.step, Option.bind_some, Levels.run_append, inner,
        Option.bind_some, ← value]
      rfl

end

/-- Symbols that end with the bar before the current alternative. -/
def HeadOf (u : List Symbol) : Option Pattern → Prop
  | none => u = []
  | some p => ∃ v, u = v ++ [.bar] ∧ AltOf v p

/-- Symbols of the last base of a sequence and the quantifiers behind it.  Where there is no base, the
sequence is made of quantifiers. -/
def ItemOf (v u : List Symbol) (seq : Pattern) : Option Pattern → Prop
  | none => u = [] ∧ ∃ qs, v = qs.map .quantifier ∧ seq = wrapAll qs .empty
  | some p => ∃ w q qs, BaseOf w q ∧ u = w ++ qs.map .quantifier ∧ p = wrapAll qs q

def LevelOf (u : List Symbol) (l : Level) : Prop :=
  ∃ before v last, u = before ++ v ++ last ∧ HeadOf before l.alts ∧ SeqOf v l.seq ∧
    ItemOf v last l.seq l.item

def OuterOf (u : List Symbol) (l : Level) : Prop :=
  ∃ before v, u = before ++ v ∧ HeadOf before l.alts ∧ SeqOf v l.seq

/-- Symbols up to the parenthesis that opens the current level. -/
inductive OutersOf : List Symbol → List Level → Prop where
  | nil : OutersOf [] []
  | cons {u v : List Symbol} {l : Level} {rest : List Level} :
      OutersOf u rest → OuterOf v l → OutersOf (u ++ v ++ [.opening]) (l :: rest)

def Reads (u : List Symbol) (s : Levels) : Prop :=
  ∃ before v, u = before ++ v ∧ OutersOf before s.outer ∧ LevelOf v s.current

section Reads

variable {u v : List Symbol} {l : Level} {p : Pattern}

theorem seqOf_sequence {last : List Symbol} (seq : SeqOf v l.seq) (item : ItemOf v last l.seq l.item) :
    SeqOf (v ++ last) l.sequence := by
  unfold Level.sequence
  cases waiting : l.item with
  | none =>
      rw [waiting] at item
      obtain ⟨rfl, -⟩ := item
      rwa [List.append_nil]
  | some p =>
      rw [waiting] at item
      obtain ⟨w, q, qs, base, rfl, rfl⟩ := item
      rw [← List.append_assoc]
      exact .next qs seq base

theorem altOf_of_head {before : List Symbol} (head : HeadOf before l.alts)
    (seq : SeqOf v l.sequence) : AltOf (before ++ v) l.value := by
  unfold Level.value
  cases waiting : l.alts with
  | none =>
      rw [waiting] at head
      rw [show before = [] from head]
      exact .one seq
  | some p =>
      rw [waiting] at head
      obtain ⟨w, rfl, alt⟩ := head
      rw [List.append_assoc, List.singleton_append]
      exact .more alt seq

theorem LevelOf.value (level : LevelOf u l) : AltOf u l.value := by
  obtain ⟨before, v, last, rfl, head, seq, item⟩ := level
  rw [List.append_assoc]
  exact altOf_of_head head (seqOf_sequence seq item)

theorem LevelOf.settle (level : LevelOf u l) : OuterOf u l.settle := by
  obtain ⟨before, v, last, rfl, head, seq, item⟩ := level
  exact ⟨before, v ++ last, by simp, head, seqOf_sequence seq item⟩

theorem LevelOf.blank (alts : Option Pattern) (head : HeadOf u alts) : LevelOf u (.blank alts) := by
  have seq : SeqOf [] .empty := SeqOf.start []
  exact ⟨u, [], [], by simp, head, seq, rfl, [], rfl, rfl⟩

theorem OuterOf.fill (level : OuterOf u l) (base : BaseOf v p) : LevelOf (u ++ v) (l.fill p) := by
  obtain ⟨before, w, rfl, head, seq⟩ := level
  exact ⟨before, w, v, rfl, head, seq, v, p, [], base, by simp, rfl⟩

theorem LevelOf.wrap (level : LevelOf u l) (q : Quantifier) :
    LevelOf (u ++ [.quantifier q]) (l.wrap q) := by
  obtain ⟨before, v, last, rfl, head, seq, item⟩ := level
  unfold Level.wrap
  cases waiting : l.item with
  | none =>
      rw [waiting] at item
      obtain ⟨rfl, qs, rfl, same⟩ := item
      have wrapped : q.wrap l.seq = wrapAll (qs ++ [q]) .empty := by rw [wrapAll_append, same]
      have symbols : (qs ++ [q]).map Symbol.quantifier = qs.map .quantifier ++ [.quantifier q] := by
        simp
      refine ⟨before, (qs ++ [q]).map .quantifier, [], by simp, head, ?_, rfl, qs ++ [q], rfl, wrapped⟩
      simp only [wrapped]
      exact .start (qs ++ [q])
  | some p =>
      rw [waiting] at item
      obtain ⟨w, p, qs, base, rfl, rfl⟩ := item
      exact ⟨before, v, w ++ (qs ++ [q]).map .quantifier, by simp, head, seq,
        w, p, qs ++ [q], base, rfl, (wrapAll_append qs q p).symm⟩

theorem Reads.start : Reads [] .start :=
  ⟨[], [], rfl, .nil, .blank none rfl⟩

/-- A symbol more takes what waits to what waits behind it. -/
theorem Reads.step {s t : Levels} {x : Symbol} (reads : Reads u s) (stepped : s.step x = some t) :
    Reads (u ++ [x]) t := by
  obtain ⟨before, v, rfl, outers, level⟩ := reads
  cases x with
  | atom p =>
      cases stepped
      exact ⟨before, v ++ [.atom p], by simp, outers, level.settle.fill (.atom p)⟩
  | quantifier q =>
      cases stepped
      exact ⟨before, v ++ [.quantifier q], by simp, outers, level.wrap q⟩
  | bar =>
      cases stepped
      exact ⟨before, v ++ [.bar], by simp, outers, .blank _ ⟨v, rfl, level.value⟩⟩
  | opening =>
      cases stepped
      exact ⟨before ++ v ++ [.opening], [], by simp, .cons outers level.settle, .blank none rfl⟩
  | closing =>
      obtain ⟨current, outer⟩ := s
      cases outers with
      | nil => cases stepped
      | cons outers outer =>
          cases stepped
          -- the group becomes the last base of the level around it
          exact ⟨_, _, by simp, outers, outer.fill (.group level.value)⟩

theorem Reads.run {s t : Levels} (reads : Reads u s) (run : s.run v = some t) :
    Reads (u ++ v) t := by
  induction v generalizing u s with
  | nil =>
      cases run
      rwa [List.append_nil]
  | cons x rest ih =>
      obtain ⟨next, stepped, later⟩ := Option.bind_eq_some_iff.mp run
      have read := ih (reads.step stepped) later
      rwa [List.append_assoc, List.singleton_append] at read

theorem Reads.value {s : Levels} (reads : Reads u s) (closed : s.outer = []) :
    AltOf u s.current.value := by
  obtain ⟨before, v, rfl, outers, level⟩ := reads
  rw [closed] at outers
  cases outers
  exact level.value

end Reads

/-- Symbols are an alternation exactly if all groups are closed behind them, and its pattern is what
waits there. -/
theorem altOf_iff_run {u : List Symbol} {p : Pattern} :
    AltOf u p ↔ ∃ l : Level, Levels.start.run u = some ⟨l, []⟩ ∧ l.value = p := by
  constructor
  · intro alt
    obtain ⟨l, value, run⟩ := alt.run []
    exact ⟨l, run, value⟩
  · rintro ⟨l, run, rfl⟩
    exact (Reads.start.run run).value rfl

end Munch.Pattern
