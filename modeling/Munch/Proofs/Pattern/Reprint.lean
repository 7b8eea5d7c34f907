import Munch.Proofs.Pattern.Assembly
import Munch.Proofs.Pattern.RoundTrip

/-!
What the printed form of any pattern is parsed to, also of one that is not tidy.

The printed form is parsed in every universe (`exists_altOf_symbols`): it spells symbols that are an
alternation of the grammar.  The parser merges and flattens while it puts together, which changes no
language.  An alternation of nothing, however, is printed as an empty group, and an empty group is the
empty literal.  So the printed form stands for the pattern with its alternations of nothing filled
(`fill`), and for the pattern itself if it has none (`parse_text_language`).
-/

set_option autoImplicit false

namespace Munch.Pattern

mutual

/-- The pattern with the empty literal in the place of each alternation of nothing. -/
def fill : Pattern → Pattern
  | .literal bytes => .literal bytes
  | .sequence items => .sequence (fillAll items)
  | .alternation [] => .empty
  | .alternation (p :: ps) => .alternation (fill p :: fillAll ps)
  | .optional item => .optional (fill item)
  | .repetition item => .repetition (fill item)
  | .zeroOrMore item => .zeroOrMore (fill item)
  | .range set => .range set

def fillAll : List Pattern → List Pattern
  | [] => []
  | p :: ps => fill p :: fillAll ps

end

mutual

def hasVoid : Pattern → Bool
  | .literal _ => false
  | .sequence items => anyVoid items
  | .alternation items => items.isEmpty || anyVoid items
  | .optional item => hasVoid item
  | .repetition item => hasVoid item
  | .zeroOrMore item => hasVoid item
  | .range _ => false

def anyVoid : List Pattern → Bool
  | [] => false
  | p :: ps => hasVoid p || anyVoid ps

end

mutual

theorem fill_eq_self : ∀ p : Pattern, p.hasVoid = false → p.fill = p
  | .literal bytes, _ => by rw [fill]
  | .sequence items, filled => by
      rw [hasVoid] at filled
      rw [fill, fillAll_eq_self items filled]
  | .alternation [], filled => by simp [hasVoid] at filled
  | .alternation (p :: ps), filled => by
      rw [hasVoid, List.isEmpty_cons, Bool.false_or, anyVoid, Bool.or_eq_false_iff] at filled
      rw [fill, fill_eq_self p filled.1, fillAll_eq_self ps filled.2]
  | .optional item, filled => by
      rw [hasVoid] at filled
      rw [fill, fill_eq_self item filled]
  | .repetition item, filled => by
      rw [hasVoid] at filled
      rw [fill, fill_eq_self item filled]
  | .zeroOrMore item, filled => by
      rw [hasVoid] at filled
      rw [fill, fill_eq_self item filled]
  | .range set, _ => by rw [fill]

theorem fillAll_eq_self : ∀ ps : List Pattern, anyVoid ps = false → fillAll ps = ps
  | [], _ => by rw [fillAll]
  | p :: ps, filled => by
      rw [anyVoid, Bool.or_eq_false_iff] at filled
      rw [fillAll, fill_eq_self p filled.1, fillAll_eq_self ps filled.2]

end

theorem fillAll_eq_map (ps : List Pattern) : fillAll ps = ps.map fill := by
  induction ps with
  | nil => rw [fillAll, List.map_nil]
  | cons p rest ih => rw [fillAll, ih, List.map_cons]

/-- The symbols of a pattern, behind those of a sequence, multiply its language by `L`. -/
def Multiplies (p : Pattern) (L : Language UInt8) : Prop :=
  ∀ u q, SeqOf u q → ∃ r, SeqOf (u ++ symbols p) r ∧ r.language = q.language * L

section Multiplies

variable {p : Pattern} {ps : List Pattern} {u v : List Symbol} {q : Pattern} {L : Language UInt8}

theorem Multiplies.seqOf (multiplies : Multiplies p L) :
    ∃ r, SeqOf (symbols p) r ∧ r.language = L := by
  obtain ⟨r, seq, language⟩ := multiplies [] .empty (.start [])
  rw [language_empty, one_mul] at language
  exact ⟨r, seq, language⟩

theorem multiplies_of_appends (appends : Appends p) : Multiplies p p.language := by
  intro u q seq
  exact ⟨concat q p, appends u q seq, language_concat q p⟩

theorem multiplies_of_base (base : BaseOf v q) (qs : List Quantifier)
    (spelled : symbols p = v ++ qs.map .quantifier) :
    Multiplies p (wrapAll qs q).language := by
  intro u r seq
  rw [spelled, ← List.append_assoc]
  exact ⟨_, .next qs seq base, language_concat r (wrapAll qs q)⟩

/-- What is quantified stands in parentheses, so the quantifier acts on all of it. -/
theorem multiplies_quantified (quantifier : Quantifier) (multiplies : Multiplies p q.language) :
    Multiplies (quantifier.wrap p) (quantifier.wrap q).language := by
  obtain ⟨r, seq, language⟩ := multiplies.seqOf
  rw [language_wrap, ← language, ← language_wrap]
  refine multiplies_of_base (.group (.one seq)) [quantifier] ?_
  cases quantifier <;> simp [Quantifier.wrap, symbols]

theorem exists_seqOf_symbolsInOrder (each : ∀ p ∈ ps, Multiplies p p.fill.language)
    (seq : SeqOf u q) : ∃ r, SeqOf (u ++ symbolsInOrder ps) r ∧
      r.language = q.language * ((ps.map fill).map language).prod := by
  induction ps generalizing u q with
  | nil => exact ⟨q, by simpa [symbolsInOrder] using seq, by simp⟩
  | cons p rest ih =>
      obtain ⟨own, later⟩ := List.forall_mem_cons.mp each
      obtain ⟨r, next, first⟩ := own u q seq
      obtain ⟨t, whole, second⟩ := ih later next
      refine ⟨t, ?_, ?_⟩
      · rwa [List.append_assoc] at whole
      · rw [second, first, mul_assoc, List.map_cons, List.map_cons, List.prod_cons]

theorem multiplies_sequence (each : ∀ p ∈ ps, Multiplies p p.fill.language) :
    Multiplies (.sequence ps) (sequence (ps.map fill)).language := by
  obtain ⟨r, seq, language⟩ := exists_seqOf_symbolsInOrder each (.start [])
  rw [show wrapAll [] .empty = Pattern.empty from rfl, language_empty, one_mul,
    ← language_sequence] at language
  rw [← language]
  exact multiplies_of_base (.group (.one seq)) [] (by simp [symbols])

theorem exists_altOf_symbolsWithBars (each : ∀ p ∈ ps, Multiplies p p.fill.language)
    (alt : AltOf u q) : ∃ r, AltOf (u ++ ps.flatMap fun p => .bar :: symbols p) r ∧
      r.language = q.language + ((ps.map fill).map language).sum := by
  induction ps generalizing u q with
  | nil => exact ⟨q, by simpa using alt, by simp⟩
  | cons p rest ih =>
      obtain ⟨own, later⟩ := List.forall_mem_cons.mp each
      obtain ⟨r, seq, first⟩ := own.seqOf
      obtain ⟨t, whole, second⟩ := ih later (.more alt seq)
      refine ⟨t, by simpa using whole, ?_⟩
      rw [second, language_alternate, first, add_assoc, List.map_cons, List.map_cons,
        List.sum_cons]

theorem multiplies_void : Multiplies (.alternation []) Pattern.empty.language :=
  multiplies_of_base (.group (.one (.start []))) [] (by simp [symbols, symbolsWithBars])

theorem multiplies_alternation (each : ∀ r ∈ p :: ps, Multiplies r r.fill.language) :
    Multiplies (.alternation (p :: ps)) (alternation ((p :: ps).map fill)).language := by
  obtain ⟨own, later⟩ := List.forall_mem_cons.mp each
  obtain ⟨r, seq, first⟩ := own.seqOf
  obtain ⟨t, alt, language⟩ := exists_altOf_symbolsWithBars later (.one seq)
  rw [first, ← List.sum_cons, ← List.map_cons, ← List.map_cons, ← language_alternation] at language
  rw [← language]
  rw [← symbolsWithBars_cons] at alt
  exact multiplies_of_base (.group alt) [] (by simp [symbols])

end Multiplies

mutual

/-- The symbols of a pattern stand for the pattern with its alternations of nothing filled. -/
theorem multiplies_fill : ∀ p : Pattern, Multiplies p p.fill.language
  | .literal bytes => by
      rw [fill]
      exact multiplies_of_appends (appends_literal bytes)
  | .sequence items => by
      rw [fill, fillAll_eq_map]
      exact multiplies_sequence (multiplies_fillAll items)
  | .alternation [] => by
      rw [fill]
      exact multiplies_void
  | .alternation (p :: ps) => by
      rw [fill, fillAll_eq_map]
      exact multiplies_alternation (multiplies_fillAll (p :: ps))
  | .optional item => by
      rw [fill]
      exact multiplies_quantified .optional (multiplies_fill item)
  | .repetition item => by
      rw [fill]
      exact multiplies_quantified .oneOrMore (multiplies_fill item)
  | .zeroOrMore item => by
      rw [fill]
      exact multiplies_quantified .zeroOrMore (multiplies_fill item)
  | .range set => by
      rw [fill]
      exact multiplies_of_base (.atom (.range set)) [] (by simp [symbols])

theorem multiplies_fillAll : ∀ ps : List Pattern, ∀ p ∈ ps, Multiplies p p.fill.language
  | [] => by simp
  | p :: ps => List.forall_mem_cons.mpr ⟨multiplies_fill p, multiplies_fillAll ps⟩

end

/-- The printed form of every pattern is parsed in every universe, and what it is parsed to matches
what the pattern does with the empty literal in the place of each alternation of nothing; if there is
none, what the pattern itself matches. -/
theorem parse_text_language (u : Universe) (p : Pattern) :
    ∃ t, parse u p.text = .ok t ∧ t.language = p.fill.language ∧
      (p.hasVoid = false → ∀ w, t.Matches w ↔ p.Matches w) := by
  obtain ⟨t, seq, language⟩ := (multiplies_fill p).seqOf
  refine ⟨t, ?_, language, fun filled w => ?_⟩
  · rw [parse, Pattern.text, String.toList_ofList]
    exact parseChars_print_of_altOf (.one seq) u
  · rw [fill_eq_self p filled] at language
    rw [← mem_language, language, mem_language]

/-- The alternation of nothing matches nothing, and its printed form is parsed to the empty literal. -/
theorem parse_text_void :
    parse .ascii (text (.alternation [])) = .ok .empty ∧ Pattern.empty.Matches [] ∧
      ¬ (alternation []).Matches [] := by
  refine ⟨by cbv, .literal [], ?_⟩
  rw [matches_alternation_iff]
  simp

end Munch.Pattern
