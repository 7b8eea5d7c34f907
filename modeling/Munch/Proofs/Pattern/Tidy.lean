import Mathlib.Data.List.Chain
import Mathlib.Data.List.Induction
import Munch.Proofs.Pattern.Grammar

/-!
The form that concatenation and alternation leave patterns in.

In a tidy pattern a sequence has two items or more, none of them a sequence or the empty literal, and
no two literals side by side; an alternation has two items or more, none of them an alternation.  What
the grammar makes of tidy atoms is tidy (`AltOf.tidy`).  Such a pattern is what its items are put
together to (`foldl_concat`, `foldl_alternate`), so it is the pattern of symbols that spell it out
(`Tidy.altOf_symbols`).
-/

set_option autoImplicit false

namespace Munch.Pattern

def isLiteral : Pattern → Bool
  | .literal _ => true
  | _ => false

def isSequence : Pattern → Bool
  | .sequence _ => true
  | _ => false

def isAlternation : Pattern → Bool
  | .alternation _ => true
  | _ => false

def IsItem (p : Pattern) : Prop :=
  p.isSequence = false ∧ p.isEmpty = false

/-- Items of which no two neighbours are literals. -/
structure Spaced (items : List Pattern) : Prop where
  each : ∀ p ∈ items, IsItem p
  apart : items.IsChain fun p q => p.isLiteral = false ∨ q.isLiteral = false

section Items

variable {p q : Pattern} {xs ys : List Pattern} {a b : List UInt8}

theorem IsItem.sequenceItems (item : IsItem p) : p.sequenceItems = [p] := by
  cases p with
  | sequence items => exact absurd item.1 (by simp [isSequence])
  | _ => rfl

theorem appendItem_literal (xs : List Pattern) (a b : List UInt8) :
    appendItem (xs ++ [.literal a]) (.literal b) = xs ++ [.literal (a ++ b)] := by
  simp [appendItem]

theorem appendItem_apart (apart : p.isLiteral = false ∨ q.isLiteral = false) :
    appendItem (xs ++ [p]) q = xs ++ [p] ++ [q] := by
  cases p <;> cases q <;> simp_all [appendItem, isLiteral]

theorem appendItem_nil (p : Pattern) : appendItem [] p = [p] := by
  simp [appendItem]

theorem exists_literals (near : ¬ (p.isLiteral = false ∨ q.isLiteral = false)) :
    ∃ a b, p = .literal a ∧ q = .literal b := by
  cases p <;> cases q <;> simp_all [isLiteral]

theorem spaced_concat : Spaced (xs ++ [p]) ↔ Spaced xs ∧ IsItem p ∧
    ∀ q ∈ xs.getLast?, q.isLiteral = false ∨ p.isLiteral = false := by
  constructor
  · rintro ⟨each, apart⟩
    obtain ⟨chain, -, link⟩ := List.isChain_append.mp apart
    refine ⟨⟨fun q mem => each q (List.mem_append_left _ mem), chain⟩, each p (by simp), ?_⟩
    exact fun q last => link q last p rfl
  · rintro ⟨⟨each, chain⟩, item, link⟩
    refine ⟨fun q mem => ?_, List.isChain_append.mpr ⟨chain, .singleton p, ?_⟩⟩
    · rcases List.mem_append.mp mem with old | new
      · exact each q old
      · rwa [List.mem_singleton.mp new]
    · intro q last r head
      cases head
      exact link q last

theorem Spaced.appendItem (spaced : Spaced xs) (item : IsItem q) : Spaced (appendItem xs q) := by
  rcases xs.eq_nil_or_concat' with rfl | ⟨ys, p, rfl⟩
  · rw [appendItem_nil]
    exact ⟨by simpa using item, .singleton q⟩
  · by_cases apart : p.isLiteral = false ∨ q.isLiteral = false
    · rw [appendItem_apart apart, spaced_concat]
      exact ⟨spaced, item, by simpa using apart⟩
    · obtain ⟨a, b, rfl, rfl⟩ := exists_literals apart
      obtain ⟨before, first, link⟩ := spaced_concat.mp spaced
      rw [appendItem_literal, spaced_concat]
      refine ⟨before, ⟨rfl, ?_⟩, link⟩
      have filled : (Pattern.literal a).isEmpty = false := first.2
      cases a with
      | nil => cases filled
      | cons x rest => rfl

theorem appendItem_ne_nil (xs : List Pattern) (q : Pattern) : Pattern.appendItem xs q ≠ [] := by
  unfold Pattern.appendItem
  split <;> simp

theorem mem_appendItem {r : Pattern} (mem : r ∈ appendItem xs q) :
    r ∈ xs ∨ r = q ∨ r.isLiteral = true := by
  unfold Pattern.appendItem at mem
  split at mem
  · rcases List.mem_append.mp mem with old | new
    · exact .inl (List.dropLast_subset xs old)
    · rw [List.mem_singleton.mp new]
      exact .inr (.inr rfl)
  · rcases List.mem_append.mp mem with old | new
    · exact .inl old
    · exact .inr (.inl (List.mem_singleton.mp new))

theorem ofItems_cases (xs : List Pattern) :
    (∃ p, xs = [p] ∧ ofItems xs = p) ∨ (xs.length ≠ 1 ∧ ofItems xs = .sequence xs) := by
  unfold ofItems
  split
  · exact .inl ⟨_, rfl, rfl⟩
  · rename_i several
    refine .inr ⟨fun one => ?_, rfl⟩
    obtain ⟨p, rfl⟩ := List.length_eq_one_iff.mp one
    exact several p rfl

theorem Spaced.sequenceItems (spaced : Spaced xs) : (ofItems xs).sequenceItems = xs := by
  rcases ofItems_cases xs with ⟨p, rfl, same⟩ | ⟨-, same⟩
  · rw [same]
    exact (spaced.each p List.mem_cons_self).sequenceItems
  · rw [same]
    rfl

theorem Spaced.isEmpty_eq_false (spaced : Spaced xs) : (ofItems xs).isEmpty = false := by
  rcases ofItems_cases xs with ⟨p, rfl, same⟩ | ⟨-, same⟩
  · rw [same]
    exact (spaced.each p List.mem_cons_self).2
  · rw [same]
    rfl

theorem empty_concat (p : Pattern) : concat .empty p = p := rfl

theorem concat_empty (p : Pattern) : concat p .empty = p := by
  cases p with
  | literal bytes => cases bytes <;> rfl
  | _ => rfl

theorem concat_eq (first : p.isEmpty = false) (second : q.isEmpty = false) :
    concat p q = ofItems (q.sequenceItems.foldl appendItem p.sequenceItems) := by
  rw [concat, first, second]
  rfl

theorem foldl_concat (spaced : Spaced xs) (several : xs ≠ []) :
    xs.foldl concat .empty = ofItems xs := by
  induction xs using List.reverseRecOn with
  | nil => exact absurd rfl several
  | append_singleton xs q ih =>
      obtain ⟨before, item, link⟩ := spaced_concat.mp spaced
      rw [List.foldl_append, List.foldl_cons, List.foldl_nil]
      rcases xs.eq_nil_or_concat' with rfl | ⟨ys, p, rfl⟩
      · exact empty_concat q
      · have apart : p.isLiteral = false ∨ q.isLiteral = false := link p (by simp)
        rw [ih before (by simp), concat_eq before.isEmpty_eq_false item.2, before.sequenceItems,
          item.sequenceItems, List.foldl_cons, List.foldl_nil, appendItem_apart apart]

theorem exists_appendItem_literal (xs : List Pattern) :
    ∃ ys c, ∀ b, appendItem xs (.literal b) = ys ++ [.literal (c ++ b)] := by
  rcases xs.eq_nil_or_concat' with rfl | ⟨ys, p, rfl⟩
  · exact ⟨[], [], fun b => appendItem_nil _⟩
  · cases form : p.isLiteral with
    | false =>
        exact ⟨ys ++ [p], [], fun b => appendItem_apart (.inl form)⟩
    | true =>
        cases p with
        | literal a => exact ⟨ys, a, fun b => appendItem_literal ys a b⟩
        | _ => cases form

theorem sequenceItems_ofItems_literal (xs : List Pattern) (a : List UInt8) :
    (ofItems (xs ++ [.literal a])).sequenceItems = xs ++ [.literal a] := by
  rcases ofItems_cases (xs ++ [.literal a]) with ⟨p, single, same⟩ | ⟨-, same⟩
  · rw [same, single]
    obtain ⟨rfl, rfl⟩ : xs = [] ∧ .literal a = p := by
      cases xs <;> simp_all
    rfl
  · rw [same]
    rfl

theorem isEmpty_ofItems_literal (xs : List Pattern) {a : List UInt8} (filled : a ≠ []) :
    (ofItems (xs ++ [.literal a])).isEmpty = false := by
  rcases ofItems_cases (xs ++ [.literal a]) with ⟨p, single, same⟩ | ⟨-, same⟩
  · rw [same]
    obtain ⟨rfl, rfl⟩ : xs = [] ∧ .literal a = p := by
      cases xs <;> simp_all
    simpa [isEmpty] using filled
  · rw [same]
    rfl

/-- A byte behind a literal melts into it. -/
theorem concat_literal_literal (p : Pattern) (a : List UInt8) (x : UInt8) :
    concat (concat p (.literal a)) (.literal [x]) = concat p (.literal (a ++ [x])) := by
  -- empty operands are dropped, so `concat_eq` has to wait until neither is empty
  by_cases blank : a = []
  · rw [blank]
    exact congrArg (fun r => concat r (.literal [x])) (concat_empty p)
  · have filled : (Pattern.literal a).isEmpty = false := by simpa [isEmpty] using blank
    have longer : (Pattern.literal (a ++ [x])).isEmpty = false := by simp [isEmpty]
    cases form : p.isEmpty with
    | true =>
        rw [concat, concat, concat, form, if_pos rfl, if_neg (by simp [filled]), if_pos rfl]
        simp [isEmpty, sequenceItems, appendItem, ofItems]
    | false =>
        obtain ⟨ys, c, added⟩ := exists_appendItem_literal p.sequenceItems
        have nonempty : c ++ a ≠ [] := by simp [blank]
        rw [concat_eq form filled, concat_eq form longer]
        simp only [sequenceItems, List.foldl_cons, List.foldl_nil]
        change concat (ofItems (appendItem p.sequenceItems (.literal a))) (.literal [x]) =
          ofItems (appendItem p.sequenceItems (.literal (a ++ [x])))
        rw [added, added, concat_eq (isEmpty_ofItems_literal ys nonempty) rfl,
          sequenceItems_ofItems_literal]
        simp only [sequenceItems, List.foldl_cons, List.foldl_nil]
        rw [appendItem_literal, List.append_assoc]

theorem alternate_assoc (p q r : Pattern) :
    alternate (alternate p q) r = alternate p (alternate q r) := by
  simp [alternate, alternationItems]

theorem alternate_eq (first : p.isAlternation = false) (second : q.isAlternation = false) :
    alternate p q = .alternation [p, q] := by
  cases p <;> cases q <;> simp_all [alternate, alternationItems, isAlternation]

theorem foldl_alternate (each : ∀ r ∈ ys, r.isAlternation = false) :
    ys.foldl alternate (.alternation xs) = .alternation (xs ++ ys) := by
  induction ys generalizing xs with
  | nil => simp
  | cons q rest ih =>
      have own : q.alternationItems = [q] := by
        have plain := each q List.mem_cons_self
        cases q with
        | alternation items => cases plain
        | _ => rfl
      have step : alternate (.alternation xs) q = .alternation (xs ++ [q]) := by
        rw [alternate, own]
        rfl
      rw [List.foldl_cons, step, ih fun r mem => each r (List.mem_cons_of_mem _ mem),
        List.append_assoc, List.singleton_append]

end Items

/-- A pattern whose sequences and alternations are put together. -/
inductive Tidy : Pattern → Prop where
  | literal (bytes : List UInt8) : Tidy (.literal bytes)
  | range (set : ByteSet) : Tidy (.range set)
  | optional {p : Pattern} : Tidy p → Tidy (.optional p)
  | repetition {p : Pattern} : Tidy p → Tidy (.repetition p)
  | zeroOrMore {p : Pattern} : Tidy p → Tidy (.zeroOrMore p)
  | sequence {items : List Pattern} : 2 ≤ items.length → Spaced items →
      (∀ p ∈ items, Tidy p) → Tidy (.sequence items)
  | alternation {items : List Pattern} : 2 ≤ items.length →
      (∀ p ∈ items, p.isAlternation = false) → (∀ p ∈ items, Tidy p) → Tidy (.alternation items)

namespace Tidy

variable {p q : Pattern} {xs ys : List Pattern}

theorem empty : Tidy .empty :=
  .literal []

theorem wrap (tidy : Tidy p) (q : Quantifier) : Tidy (q.wrap p) := by
  cases q with
  | optional => exact .optional tidy
  | zeroOrMore => exact .zeroOrMore tidy
  | oneOrMore => exact .repetition tidy

theorem wrapAll (tidy : Tidy p) (qs : List Quantifier) : Tidy (wrapAll qs p) := by
  induction qs generalizing p with
  | nil => exact tidy
  | cons q rest ih => exact ih (tidy.wrap q)

theorem sequenceItems (tidy : Tidy p) (filled : p.isEmpty = false) :
    p.sequenceItems ≠ [] ∧ Spaced p.sequenceItems ∧ ∀ q ∈ p.sequenceItems, Tidy q := by
  have single : p.isSequence = false → p.sequenceItems = [p] →
      p.sequenceItems ≠ [] ∧ Spaced p.sequenceItems ∧ ∀ q ∈ p.sequenceItems, Tidy q := by
    intro plain own
    rw [own]
    refine ⟨by simp, ⟨?_, .singleton p⟩, ?_⟩
    · intro q mem
      rw [List.mem_singleton.mp mem]
      exact ⟨plain, filled⟩
    · intro q mem
      rwa [List.mem_singleton.mp mem]
  cases p with
  | sequence items =>
      cases tidy with
      | sequence several spaced each =>
          refine ⟨fun none => ?_, spaced, each⟩
          rw [show items = [] from none] at several
          cases several
  | _ => exact single rfl rfl

theorem ofItems (several : xs ≠ []) (spaced : Spaced xs) (each : ∀ q ∈ xs, Tidy q) :
    Tidy (ofItems xs) := by
  rcases ofItems_cases xs with ⟨p, rfl, same⟩ | ⟨length, same⟩
  · rw [same]
    exact each p List.mem_cons_self
  · rw [same]
    refine .sequence ?_ spaced each
    have positive := List.length_pos_iff.mpr several
    omega

theorem foldl_appendItem (several : xs ≠ []) (spaced : Spaced xs) (each : ∀ q ∈ xs, Tidy q)
    (items : ∀ q ∈ ys, IsItem q) (tidy : ∀ q ∈ ys, Tidy q) :
    Tidy (Pattern.ofItems (ys.foldl appendItem xs)) := by
  induction ys generalizing xs with
  | nil => exact ofItems several spaced each
  | cons q rest ih =>
      have item := items q List.mem_cons_self
      have own := tidy q List.mem_cons_self
      refine ih (appendItem_ne_nil xs q) (spaced.appendItem item) (fun r mem => ?_)
        (fun r mem => items r (List.mem_cons_of_mem _ mem))
        (fun r mem => tidy r (List.mem_cons_of_mem _ mem))
      rcases mem_appendItem mem with old | rfl | form
      · exact each r old
      · exact own
      · cases r with
        | literal bytes => exact .literal bytes
        | _ => cases form

theorem concat (first : Tidy p) (second : Tidy q) : Tidy (concat p q) := by
  cases formP : p.isEmpty with
  | true =>
      rw [Pattern.concat, formP, if_pos rfl]
      exact second
  | false =>
      cases formQ : q.isEmpty with
      | true =>
          rw [Pattern.concat, formP, formQ, if_neg Bool.false_ne_true, if_pos rfl]
          exact first
      | false =>
          obtain ⟨several, spaced, each⟩ := first.sequenceItems formP
          obtain ⟨-, items, tidy⟩ := second.sequenceItems formQ
          rw [concat_eq formP formQ]
          exact foldl_appendItem several spaced each items.each tidy

theorem alternationItems (tidy : Tidy p) :
    p.alternationItems ≠ [] ∧ ∀ q ∈ p.alternationItems, q.isAlternation = false ∧ Tidy q := by
  have single : p.isAlternation = false → p.alternationItems = [p] →
      p.alternationItems ≠ [] ∧ ∀ q ∈ p.alternationItems, q.isAlternation = false ∧ Tidy q := by
    intro plain own
    rw [own]
    refine ⟨by simp, fun q mem => ?_⟩
    rw [List.mem_singleton.mp mem]
    exact ⟨plain, tidy⟩
  cases p with
  | alternation items =>
      cases tidy with
      | alternation several plain each =>
          refine ⟨fun none => ?_, fun q mem => ⟨plain q mem, each q mem⟩⟩
          rw [show items = [] from none] at several
          cases several
  | _ => exact single rfl rfl

theorem alternate (first : Tidy p) (second : Tidy q) : Tidy (alternate p q) := by
  obtain ⟨someP, eachP⟩ := first.alternationItems
  obtain ⟨someQ, eachQ⟩ := second.alternationItems
  have each : ∀ r ∈ p.alternationItems ++ q.alternationItems, r.isAlternation = false ∧ Tidy r := by
    intro r mem
    rcases List.mem_append.mp mem with left | right
    · exact eachP r left
    · exact eachQ r right
  refine .alternation ?_ (fun r mem => (each r mem).1) (fun r mem => (each r mem).2)
  have lengthP := List.length_pos_iff.mpr someP
  have lengthQ := List.length_pos_iff.mpr someQ
  rw [List.length_append]
  omega

end Tidy

def TidyAtoms (u : List Symbol) : Prop :=
  ∀ p, Symbol.atom p ∈ u → Tidy p

theorem tidyAtoms_append {u v : List Symbol} : TidyAtoms (u ++ v) ↔ TidyAtoms u ∧ TidyAtoms v := by
  simp only [TidyAtoms, List.mem_append]
  exact ⟨fun each => ⟨fun p mem => each p (.inl mem), fun p mem => each p (.inr mem)⟩,
    fun each p mem => mem.elim (each.1 p) (each.2 p)⟩

mutual

/-- What the grammar makes of tidy atoms is tidy. -/
theorem AltOf.tidy {u : List Symbol} {p : Pattern} (atoms : TidyAtoms u) : AltOf u p → Tidy p
  | .one seq => seq.tidy atoms
  | .more alt seq => by
      obtain ⟨first, second⟩ := tidyAtoms_append.mp atoms
      have rest := (tidyAtoms_append (u := [_])).mp second
      exact (alt.tidy first).alternate (seq.tidy rest.2)

theorem SeqOf.tidy {u : List Symbol} {p : Pattern} (atoms : TidyAtoms u) : SeqOf u p → Tidy p
  | .start qs => Tidy.empty.wrapAll qs
  | .next qs seq base => by
      obtain ⟨both, -⟩ := tidyAtoms_append.mp atoms
      obtain ⟨first, second⟩ := tidyAtoms_append.mp both
      exact (seq.tidy first).concat ((base.tidy second).wrapAll qs)

theorem BaseOf.tidy {u : List Symbol} {p : Pattern} (atoms : TidyAtoms u) : BaseOf u p → Tidy p
  | .atom p => atoms p List.mem_cons_self
  | .group alt => by
      obtain ⟨inner, -⟩ := tidyAtoms_append.mp atoms
      exact alt.tidy fun p mem => inner p (List.mem_cons_of_mem _ mem)

end

end Munch.Pattern
