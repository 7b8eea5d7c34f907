import Munch.Proofs.Pattern.Tidy

/-!
The symbols that spell a pattern out.

They are the printed form of the pattern in terminals of the grammar: a literal byte by byte, and
parentheses around sequences, around alternations and around what is quantified.  The grammar makes of
them the pattern again if it is tidy (`Tidy.altOf_symbols`).
-/

set_option autoImplicit false

namespace Munch.Pattern

mutual

def symbols : Pattern → List Symbol
  | .literal bytes => bytes.map fun b => .atom (.literal [b])
  | .sequence items => .opening :: (symbolsInOrder items ++ [.closing])
  | .alternation items => .opening :: (symbolsWithBars items ++ [.closing])
  | .optional item => .opening :: (symbols item ++ [.closing, .quantifier .optional])
  | .repetition item => .opening :: (symbols item ++ [.closing, .quantifier .oneOrMore])
  | .zeroOrMore item => .opening :: (symbols item ++ [.closing, .quantifier .zeroOrMore])
  | .range set => [.atom (.range set)]

def symbolsInOrder : List Pattern → List Symbol
  | [] => []
  | p :: ps => symbols p ++ symbolsInOrder ps

def symbolsWithBars : List Pattern → List Symbol
  | [] => []
  | [p] => symbols p
  | p :: ps => symbols p ++ .bar :: symbolsWithBars ps

end

/-- The symbols of a pattern, behind those of a sequence, add the pattern to it. -/
def Appends (p : Pattern) : Prop :=
  ∀ u q, SeqOf u q → SeqOf (u ++ symbols p) (concat q p)

section Appends

variable {p : Pattern} {ps : List Pattern} {u : List Symbol} {q : Pattern}

theorem Appends.altOf (appends : Appends p) : AltOf (symbols p) p := by
  have seq := appends [] .empty (SeqOf.start [])
  exact .one seq

theorem appends_literal (bytes : List UInt8) : Appends (.literal bytes) := by
  intro u q seq
  -- each byte is an atom of its own, and melts into the literal before it
  induction bytes using List.reverseRecOn with
  | nil =>
      rw [symbols, List.map_nil, List.append_nil, show Pattern.literal [] = .empty from rfl,
        concat_empty]
      exact seq
  | append_singleton bytes b ih =>
      have more := SeqOf.next [] ih (.atom (.literal [b]))
      rw [← concat_literal_literal]
      simpa [symbols, wrapAll] using more

theorem appends_of_base {v : List Symbol} (base : BaseOf v p) (qs : List Quantifier)
    (spelled : symbols (wrapAll qs p) = v ++ qs.map .quantifier) : Appends (wrapAll qs p) := by
  intro u q seq
  rw [spelled, ← List.append_assoc]
  exact .next qs seq base

theorem appends_quantified (alt : AltOf (symbols p) p) (quantifier : Quantifier) :
    Appends (quantifier.wrap p) := by
  refine appends_of_base (.group alt) [quantifier] ?_
  cases quantifier <;> simp [wrapAll, Quantifier.wrap, symbols]

theorem seqOf_symbolsInOrder (each : ∀ p ∈ ps, Appends p) (seq : SeqOf u q) :
    SeqOf (u ++ symbolsInOrder ps) (ps.foldl concat q) := by
  induction ps generalizing u q with
  | nil => simpa [symbolsInOrder] using seq
  | cons p rest ih =>
      have next := each p List.mem_cons_self u q seq
      have later := ih (fun r mem => each r (List.mem_cons_of_mem _ mem)) next
      rwa [List.append_assoc] at later

theorem appends_sequence (several : 2 ≤ ps.length) (spaced : Spaced ps)
    (each : ∀ p ∈ ps, Appends p) : Appends (.sequence ps) := by
  have filled : ps ≠ [] := by
    rintro rfl
    cases several
  have seq := seqOf_symbolsInOrder each (SeqOf.start [])
  have value : ps.foldl concat .empty = .sequence ps := by
    rw [foldl_concat spaced filled]
    rcases ofItems_cases ps with ⟨p, rfl, -⟩ | ⟨-, same⟩
    · simp at several
    · exact same
  rw [show wrapAll [] .empty = Pattern.empty from rfl, value] at seq
  exact appends_of_base (.group (.one seq)) [] (by simp [Pattern.wrapAll, symbols])

theorem altOf_symbolsWithBars (each : ∀ p ∈ ps, Appends p) (alt : AltOf u q) :
    AltOf (u ++ ps.flatMap fun p => .bar :: symbols p) (ps.foldl alternate q) := by
  induction ps generalizing u q with
  | nil => simpa using alt
  | cons p rest ih =>
      have seq := each p List.mem_cons_self [] .empty (SeqOf.start [])
      have next := ih (fun r mem => each r (List.mem_cons_of_mem _ mem)) (.more alt seq)
      simpa [empty_concat] using next

theorem symbolsWithBars_cons (p : Pattern) (ps : List Pattern) :
    symbolsWithBars (p :: ps) = symbols p ++ ps.flatMap fun p => .bar :: symbols p := by
  induction ps generalizing p with
  | nil => simp [symbolsWithBars]
  | cons r rest ih =>
      rw [symbolsWithBars, ih]
      · simp
      · simp

theorem appends_alternation (several : 2 ≤ ps.length) (plain : ∀ p ∈ ps, p.isAlternation = false)
    (each : ∀ p ∈ ps, Appends p) : Appends (.alternation ps) := by
  match ps with
  | [] => cases several
  | [p] => simp at several
  | p :: r :: rest =>
      have first := (each p (by simp)).altOf
      have later : ∀ s ∈ r :: rest, Appends s := fun s mem => each s (List.mem_cons_of_mem _ mem)
      have alt := altOf_symbolsWithBars later first
      have value : (r :: rest).foldl alternate p = .alternation (p :: r :: rest) := by
        rw [List.foldl_cons, alternate_eq (plain p (by simp)) (plain r (by simp)),
          foldl_alternate fun s mem => plain s (by simp [mem])]
        rfl
      rw [value, ← symbolsWithBars_cons] at alt
      exact appends_of_base (.group alt) [] (by simp [Pattern.wrapAll, symbols])

end Appends

theorem Tidy.appends_symbols {p : Pattern} (tidy : Tidy p) : Appends p := by
  induction tidy with
  | literal bytes => exact appends_literal bytes
  | range set => exact appends_of_base (.atom (.range set)) [] (by simp [Pattern.wrapAll, symbols])
  | optional _ ih => exact appends_quantified ih.altOf .optional
  | repetition _ ih => exact appends_quantified ih.altOf .oneOrMore
  | zeroOrMore _ ih => exact appends_quantified ih.altOf .zeroOrMore
  | sequence several spaced _ ih => exact appends_sequence several spaced ih
  | alternation several plain _ ih => exact appends_alternation several plain ih

/-- The grammar makes a tidy pattern of its symbols. -/
theorem Tidy.altOf_symbols {p : Pattern} (tidy : Tidy p) : AltOf (symbols p) p :=
  tidy.appends_symbols.altOf

end Munch.Pattern
