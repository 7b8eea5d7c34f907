import Munch.Lexer.Basic
import Munch.Proofs.RuleSet.History

/-!
Lexers with the same modes, of which the same one is active.

`Related R` says this of lexers whose sets of rules are in the relation `R`.  If sets in `R` find the
same, such lexers do (`Related.found_eq`), and they switch alike (`Related.switched`).

Lexers are `Alike` if they differ in nothing but what they keep compiled.  A search puts a set of
rules back into its mode that keeps its compiled automaton.  As this set is alike to the one before,
so is the lexer (`alike_find`).
-/

set_option autoImplicit false

namespace Munch.Lexer

variable {l m k : Lexer}

theorem lookup_cons_if (name key : String) (rules : RuleSet) (rest : List (String × RuleSet)) :
    ((name, rules) :: rest).lookup key = if key = name then some rules else rest.lookup key := by
  rw [List.lookup_cons]
  by_cases same : key = name
  · simp [same]
  · simp [same, beq_false_of_ne same]

theorem lookup_map_replace (modes : List (String × RuleSet)) (name other : String)
    (rules : RuleSet) :
    (modes.map fun m => if m.1 = name then (m.1, rules) else m).lookup other =
      if other = name then (modes.lookup other).map fun _ => rules else modes.lookup other := by
  induction modes with
  | nil => simp
  | cons mode rest ih =>
      obtain ⟨first, old⟩ := mode
      have kept : (if first = name then (first, rules) else (first, old)) =
          (first, if first = name then rules else old) := by split <;> rfl
      rw [List.map_cons, kept, lookup_cons_if, lookup_cons_if, ih]
      by_cases here : other = first
      · rw [if_pos here, if_pos here, here]
        split <;> rfl
      · rw [if_neg here, if_neg here]

theorem mode?_setRules (l : Lexer) (name other : String) (rules : RuleSet) :
    (l.setRules name rules).mode? other =
      if other = name then (l.mode? other).map fun _ => rules else l.mode? other :=
  lookup_map_replace l.modes name other rules

@[simp]
theorem names_setRules (l : Lexer) (name : String) (rules : RuleSet) :
    (l.setRules name rules).names = l.names := by
  rw [names, names, setRules, List.map_map]
  refine List.map_congr_left fun mode _ => ?_
  simp only [Function.comp_apply]
  split <;> rfl

theorem mode?_compile (l : Lexer) (name : String) :
    l.compile.mode? name = (l.mode? name).map fun rules => rules.compile.2 := by
  rw [mode?, mode?, compile]
  induction l.modes with
  | nil => rfl
  | cons mode rest ih =>
      rw [List.map_cons, List.lookup_cons, List.lookup_cons, ih]
      split <;> rfl

@[simp]
theorem names_compile (l : Lexer) : l.compile.names = l.names := by
  rw [names, names, compile, List.map_map]
  rfl

/-- Lexers with the same modes, whose sets of rules are related, and of which the same one is active. -/
structure Related (R : RuleSet → RuleSet → Prop) (l m : Lexer) : Prop where
  active_eq : l.active = m.active
  names_eq : l.names = m.names
  modes : ∀ name, Option.Rel R (l.mode? name) (m.mode? name)

structure Alike (l m : Lexer) : Prop where
  active_eq : l.active = m.active
  names_eq : l.names = m.names
  modes : ∀ name, Option.Rel RuleSet.Alike (l.mode? name) (m.mode? name)

def found (l : Lexer) (input : List UInt8) (pos : Nat) : Except Error Outcome :=
  (l.find input pos).map Prod.fst

def switched (l : Lexer) (name : String) : Lexer :=
  match l.setMode name with
  | .ok switched => switched
  | .error _ => l

theorem find_of_active {name : String} {rules : RuleSet} (active : l.active = some name)
    (present : l.mode? name = some rules) (input : List UInt8) (pos : Nat) :
    l.find input pos =
      .ok ((rules.find input pos).1, l.setRules name (rules.find input pos).2) := by
  simp only [find, activeRules?, active, present, Option.map_some]

theorem find_of_inactive (inactive : l.activeRules? = none) (input : List UInt8) (pos : Nat) :
    l.find input pos = .error .missingInitial := by
  rw [find, inactive]

theorem activeRules?_eq_none_iff :
    l.activeRules? = none ↔ ∀ name, l.active = some name → l.mode? name = none := by
  rw [activeRules?]
  cases l.active <;> simp

theorem active_cases (l : Lexer) :
    l.activeRules? = none ∨ ∃ name rules, l.active = some name ∧ l.mode? name = some rules := by
  rw [activeRules?_eq_none_iff]
  cases active : l.active with
  | none => exact .inl nofun
  | some name =>
      cases present : l.mode? name with
      | none =>
          refine .inl fun other same => ?_
          cases same
          exact present
      | some rules => exact .inr ⟨name, rules, rfl, present⟩

theorem rel_alike_refl (mode : Option RuleSet) : Option.Rel RuleSet.Alike mode mode := by
  cases mode with
  | none => exact .none
  | some rules => exact .some (.refl rules)

theorem alike_setRules {name : String} {old rules : RuleSet} (present : l.mode? name = some old)
    (alike : RuleSet.Alike rules old) : Alike (l.setRules name rules) l where
  active_eq := rfl
  names_eq := names_setRules l name rules
  modes other := by
    rw [mode?_setRules]
    split
    · rename_i same
      rw [same, present]
      exact .some alike
    · exact rel_alike_refl _

theorem alike_find {input : List UInt8} {pos : Nat} {outcome : Outcome}
    (given : l.find input pos = .ok (outcome, m)) : Alike m l := by
  rcases l.active_cases with inactive | ⟨name, rules, active, present⟩
  · rw [find_of_inactive inactive] at given
    cases given
  · rw [find_of_active active present] at given
    cases given
    exact alike_setRules present (RuleSet.alike_find rules input pos)

theorem alike_compile (l : Lexer) : Alike l.compile l where
  active_eq := rfl
  names_eq := names_compile l
  modes name := by
    rw [mode?_compile]
    cases l.mode? name with
    | none => exact .none
    | some rules => exact .some (RuleSet.alike_compile rules)

namespace Related

variable {R : RuleSet → RuleSet → Prop}

theorem mode?_none (related : Related R l m) {name : String} (missing : l.mode? name = none) :
    m.mode? name = none := by
  have modes := related.modes name
  rw [missing] at modes
  generalize m.mode? name = other at modes
  cases modes
  rfl

theorem mode?_some (related : Related R l m) {name : String} {rules : RuleSet}
    (present : l.mode? name = some rules) :
    ∃ other, m.mode? name = some other ∧ R rules other := by
  have modes := related.modes name
  rw [present] at modes
  generalize m.mode? name = found at modes
  cases modes with
  | some sets => exact ⟨_, rfl, sets⟩

theorem found_eq (related : Related R l m) {input : List UInt8} {pos : Nat}
    (same : ∀ {rules other : RuleSet}, R rules other →
      (rules.find input pos).1 = (other.find input pos).1) :
    l.found input pos = m.found input pos := by
  rw [found, found]
  rcases l.active_cases with inactive | ⟨name, rules, active, present⟩
  · have alsoInactive : m.activeRules? = none := by
      rw [activeRules?_eq_none_iff] at inactive ⊢
      intro name active
      exact related.mode?_none (inactive name (related.active_eq.trans active))
    rw [find_of_inactive inactive, find_of_inactive alsoInactive]
  · obtain ⟨other, found, sets⟩ := related.mode?_some present
    rw [find_of_active active present, find_of_active (related.active_eq.symm.trans active) found]
    exact congrArg Except.ok (same sets)

theorem setMode (related : Related R l m) (name : String) :
    (∃ e, l.setMode name = .error e ∧ m.setMode name = .error e) ∨
      ∃ l' m', l.setMode name = .ok l' ∧ m.setMode name = .ok m' ∧ Related R l' m' := by
  by_cases present : name ∈ l.names
  · refine .inr ⟨_, _, if_pos present, if_pos (related.names_eq ▸ present), ?_⟩
    exact ⟨rfl, related.names_eq, related.modes⟩
  · exact .inl ⟨_, if_neg present, if_neg (related.names_eq ▸ present)⟩

theorem switched (related : Related R l m) (name : String) :
    Related R (l.switched name) (m.switched name) := by
  rw [Lexer.switched, Lexer.switched]
  rcases related.setMode name with ⟨e, refused, alsoRefused⟩ | ⟨l', m', set, alsoSet, next⟩
  · rw [refused, alsoRefused]
    exact related
  · rw [set, alsoSet]
    exact next

end Related

namespace Alike

theorem related (alike : Alike l m) : Related RuleSet.Alike l m :=
  ⟨alike.active_eq, alike.names_eq, alike.modes⟩

theorem refl (l : Lexer) : Alike l l where
  active_eq := rfl
  names_eq := rfl
  modes name := rel_alike_refl (l.mode? name)

theorem symm (alike : Alike l m) : Alike m l where
  active_eq := alike.active_eq.symm
  names_eq := alike.names_eq.symm
  modes name := by
    have modes := alike.modes name
    generalize l.mode? name = a, m.mode? name = b at modes
    cases modes with
    | none => exact .none
    | some sets => exact .some sets.symm

theorem trans (first : Alike l m) (second : Alike m k) : Alike l k where
  active_eq := first.active_eq.trans second.active_eq
  names_eq := first.names_eq.trans second.names_eq
  modes name := by
    have before := first.modes name
    have behind := second.modes name
    generalize l.mode? name = a, m.mode? name = b, k.mode? name = c at before behind
    cases before with
    | none => exact behind
    | some alike =>
        cases behind with
        | some next => exact .some (alike.trans next)

theorem mode?_none (alike : Alike l m) {name : String} (missing : l.mode? name = none) :
    m.mode? name = none :=
  alike.related.mode?_none missing

theorem mode?_some (alike : Alike l m) {name : String} {rules : RuleSet}
    (present : l.mode? name = some rules) :
    ∃ other, m.mode? name = some other ∧ RuleSet.Alike rules other :=
  alike.related.mode?_some present

theorem setRules (alike : Alike l m) {rules other : RuleSet} (sets : RuleSet.Alike rules other)
    (name : String) : Alike (l.setRules name rules) (m.setRules name other) where
  active_eq := alike.active_eq
  names_eq := by
    rw [names_setRules, names_setRules]
    exact alike.names_eq
  modes key := by
    have modes := alike.modes key
    rw [mode?_setRules, mode?_setRules]
    generalize l.mode? key = a, m.mode? key = b at modes
    split
    · cases modes with
      | none => exact .none
      | some _ => exact .some sets
    · exact modes

theorem found_eq (alike : Alike l m) (input : List UInt8) (pos : Nat) :
    l.found input pos = m.found input pos :=
  alike.related.found_eq fun sets => sets.find_eq input pos

theorem switched (alike : Alike l m) (name : String) :
    Alike (l.switched name) (m.switched name) := by
  have related := alike.related.switched name
  exact ⟨related.active_eq, related.names_eq, related.modes⟩

end Alike

end Munch.Lexer
