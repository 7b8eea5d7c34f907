import Mathlib.Computability.Language
import Munch.Proofs.Pattern.Grammar
import Munch.Proofs.Pattern.Language
import Munch.Proofs.Pattern.Tidy

/-!
Languages of patterns as they are put together.

A sequence has the product of the languages of its items and an alternation their sum, whatever the
items are.  `concat` and `alternate` drop, merge and flatten what they are given, and still multiply
and add (`language_concat`, `language_alternate`); a quantifier acts on the language alone
(`language_wrap`).
-/

set_option autoImplicit false

namespace Munch.Pattern

open scoped Computability

def language (p : Pattern) : Language UInt8 :=
  {w | p.Matches w}

def Quantifier.over : Quantifier → Language UInt8 → Language UInt8
  | .optional, L => L + 1
  | .zeroOrMore, L => L∗
  | .oneOrMore, L => L * L∗

section Language

variable {p q : Pattern} {ps qs : List Pattern} {w : List UInt8}

@[simp]
theorem mem_language : w ∈ p.language ↔ p.Matches w := Iff.rfl

theorem language_literal (bytes : List UInt8) : (literal bytes).language = {bytes} := by
  ext w
  exact matches_literal_iff

theorem language_empty : Pattern.empty.language = 1 :=
  language_literal []

theorem language_sequence (ps : List Pattern) :
    (sequence ps).language = (ps.map language).prod := by
  induction ps with
  | nil =>
      ext w
      exact matches_sequence_nil_iff
  | cons p rest ih =>
      rw [List.map_cons, List.prod_cons, ← ih]
      ext w
      rw [mem_language, matches_sequence_cons_iff, Language.mem_mul]
      constructor
      · intro ⟨u, v, split, first, later⟩
        exact ⟨u, first, v, later, split.symm⟩
      · intro ⟨u, first, v, later, split⟩
        exact ⟨u, v, split.symm, first, later⟩

theorem language_alternation (ps : List Pattern) :
    (alternation ps).language = (ps.map language).sum := by
  induction ps with
  | nil =>
      ext w
      simp [matches_alternation_iff]
  | cons p rest ih =>
      rw [List.map_cons, List.sum_cons, ← ih]
      ext w
      rw [Language.mem_add, mem_language, mem_language, mem_language]
      simp [matches_alternation_iff]

theorem language_optional (p : Pattern) : (optional p).language = p.language + 1 := by
  ext w
  exact matches_optional_iff

theorem language_repetition (p : Pattern) :
    (repetition p).language = p.language * p.language∗ := by
  ext w
  rw [mem_language, matches_repetition_iff, Language.mem_mul]
  constructor
  · intro rounds
    induction rounds with
    | once found => exact ⟨_, found, [], Language.nil_mem_kstar _, List.append_nil _⟩
    | more found _ ih =>
        obtain ⟨u, first, v, later, rfl⟩ := ih
        obtain ⟨words, rfl, each⟩ := Language.mem_kstar.mp later
        have more : u ++ words.flatten ∈ p.language∗ :=
          Language.mem_kstar.mpr ⟨u :: words, rfl, List.forall_mem_cons.mpr ⟨first, each⟩⟩
        exact ⟨_, found, _, more, rfl⟩
  · intro ⟨u, first, v, later, same⟩
    obtain ⟨words, rfl, each⟩ := Language.mem_kstar.mp later
    rw [← same]
    clear same later
    induction words generalizing u with
    | nil =>
        rw [List.flatten_nil, List.append_nil]
        exact .once first
    | cons x rest ih =>
        obtain ⟨second, others⟩ := List.forall_mem_cons.mp each
        exact .more first (ih x second others)

theorem language_zeroOrMore (p : Pattern) : (zeroOrMore p).language = p.language∗ := by
  rw [← Language.one_add_self_mul_kstar_eq_kstar, ← language_repetition, add_comm]
  ext w
  rw [mem_language, matches_zeroOrMore_iff, ← matches_repetition_iff]
  rfl

theorem language_wrap (quantifier : Quantifier) (p : Pattern) :
    (quantifier.wrap p).language = quantifier.over p.language := by
  cases quantifier with
  | optional => exact language_optional p
  | zeroOrMore => exact language_zeroOrMore p
  | oneOrMore => exact language_repetition p

theorem language_sequenceItems (p : Pattern) :
    (p.sequenceItems.map language).prod = p.language := by
  cases p with
  | sequence items => exact (language_sequence items).symm
  | _ => exact List.prod_singleton

theorem language_ofItems (ps : List Pattern) : (ofItems ps).language = (ps.map language).prod := by
  rcases ofItems_cases ps with ⟨p, rfl, same⟩ | ⟨-, same⟩
  · rw [same]
    exact List.prod_singleton.symm
  · rw [same, language_sequence]

/-- A literal that melts into the one before it matches what both match in a row. -/
theorem language_appendItem (ps : List Pattern) (q : Pattern) :
    ((appendItem ps q).map language).prod = (ps.map language).prod * q.language := by
  rcases ps.eq_nil_or_concat' with rfl | ⟨ps, p, rfl⟩
  · rw [appendItem_nil]
    simp
  · by_cases apart : p.isLiteral = false ∨ q.isLiteral = false
    · rw [appendItem_apart apart]
      simp [mul_assoc]
    · obtain ⟨a, b, rfl, rfl⟩ := exists_literals apart
      have melted : (literal (a ++ b)).language = (literal a).language * (literal b).language := by
        ext w
        simp [matches_literal_iff, Language.mem_mul, eq_comm]
      rw [appendItem_literal]
      simp [melted, mul_assoc]

theorem language_foldl_appendItem (ps qs : List Pattern) :
    ((qs.foldl appendItem ps).map language).prod = (ps.map language).prod * (qs.map language).prod := by
  induction qs generalizing ps with
  | nil => simp
  | cons q rest ih =>
      rw [List.foldl_cons, ih, language_appendItem, List.map_cons, List.prod_cons, mul_assoc]

theorem language_of_isEmpty (form : p.isEmpty = true) : p.language = 1 := by
  cases p with
  | literal bytes =>
      rw [List.isEmpty_iff.mp form]
      exact language_empty
  | _ => cases form

theorem language_concat (p q : Pattern) : (concat p q).language = p.language * q.language := by
  unfold concat
  split
  · rename_i form
    rw [language_of_isEmpty form, one_mul]
  · split
    · rename_i form
      rw [language_of_isEmpty form, mul_one]
    · rw [language_ofItems, language_foldl_appendItem, language_sequenceItems,
        language_sequenceItems]

theorem language_alternationItems (p : Pattern) :
    (p.alternationItems.map language).sum = p.language := by
  cases p with
  | alternation items => exact (language_alternation items).symm
  | _ => exact List.sum_singleton

theorem language_alternate (p q : Pattern) :
    (alternate p q).language = p.language + q.language := by
  rw [alternate, language_alternation, List.map_append, List.sum_append, language_alternationItems,
    language_alternationItems]

end Language

end Munch.Pattern
