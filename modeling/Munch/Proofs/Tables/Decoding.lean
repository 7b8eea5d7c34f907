import Munch.Proofs.Text.Delimited
import Munch.Proofs.RuleFile.Separator
import Munch.Tables.Printer

/-!
Tables are known from their printed form.

The printed form is made of lines (`Tables.toList_text`, `ModeTables.toList_text`), and in the lines
that end with a list of numbers each of these is led by a blank (`Tables.spaced_injective`).  So no two
tables are printed alike, also not tables that are made by hand (`Tables.text_injective`).

What stands in front of the tables of a mode is text that is not chosen here.  It can be told apart if
it holds no line feeds and the names of rules hold no arrow (`ModeTables.Legible`), because the arrow
before an action is then the first one in its line (`ModeTables.ruleText_injective`).
-/

set_option autoImplicit false

namespace Munch

namespace Tables

section Spaced

variable {α : Type} [ToString α]

theorem toList_spaced (numbers : List String) :
    (spaced numbers).toList = (numbers.map String.toList).flatMap (' ' :: ·) := by
  rw [spaced, String.toList_join, List.flatMap_map, List.flatMap_map]
  refine List.flatMap_congr fun n _ => ?_
  rw [String.toList_append]
  rfl

theorem spaced_injective (apart : Function.Injective (toString : α → String))
    (free : ∀ a : α, ' ' ∉ (toString a).toList) {xs ys : List α}
    (same : spaced (xs.map toString) = spaced (ys.map toString)) : xs = ys := by
  have texts := congrArg String.toList same
  rw [toList_spaced, toList_spaced] at texts
  have free (numbers : List α) : ∀ n ∈ (numbers.map toString).map String.toList, ' ' ∉ n := by
    simp only [List.map_map, List.mem_map, Function.comp_apply]
    rintro n ⟨a, -, rfl⟩
    exact free a
  have parts := Text.led_injective (free xs) (free ys) texts
  rw [List.map_map, List.map_map] at parts
  exact List.map_injective_iff.mpr (fun _ _ eq => apart (String.toList_injective eq)) parts

theorem feed_not_mem_spaced (free : ∀ a : α, '\n' ∉ (toString a).toList) (xs : List α) :
    '\n' ∉ (spaced (xs.map toString)).toList := by
  rw [toList_spaced]
  simp only [List.mem_flatMap, List.mem_map]
  rintro ⟨n, ⟨s, ⟨a, -, rfl⟩, rfl⟩, mem⟩
  exact free a ((List.mem_cons.mp mem).resolve_left (by decide))

end Spaced

section Text

variable {t other : Tables}

def rowText (i : Nat) (row : Vector Nat 256) : String :=
  toString i ++ ":" ++ spaced (row.toList.map toString)

def lines (t : Tables) : List String :=
  ("states " ++ toString t.count) ::
    ("accept" ++ spaced ((t.rules.toList.map Int32.toInt).map toString)) ::
    t.rows.toList.zipIdx.map fun r => rowText r.2 r.1

theorem text_eq (t : Tables) : t.text = String.join (t.lines.map (· ++ "\n")) := by
  simp only [text, lines, List.map_cons, List.map_map, String.join_cons, String.append_assoc]
  rfl

theorem feed_not_mem_lines (t : Tables) : ∀ line ∈ t.lines, '\n' ∉ line.toList := by
  have numbers := feed_not_mem_spaced (Text.not_mem_toString (c := '\n') rfl)
  have words := feed_not_mem_spaced (Text.not_mem_toString_int (c := '\n') rfl (by decide))
  intro line mem
  rw [lines, List.mem_cons, List.mem_cons, List.mem_map] at mem
  rcases mem with rfl | rfl | ⟨r, -, rfl⟩
  · rw [String.toList_append, List.mem_append, not_or]
    exact ⟨by decide, Text.not_mem_toString rfl _⟩
  · rw [String.toList_append, List.mem_append, not_or]
    exact ⟨by decide, words _⟩
  · rw [rowText, String.toList_append, String.toList_append, List.mem_append, List.mem_append, not_or,
      not_or]
    exact ⟨⟨Text.not_mem_toString rfl _, by decide⟩, numbers _⟩

theorem rowText_injective {i : Nat} {row row' : Vector Nat 256} (same : rowText i row = rowText i row') :
    row = row' := by
  rw [rowText, rowText, String.append_right_inj] at same
  have entries := spaced_injective (fun _ _ => Nat.repr_injective)
    (Text.not_mem_toString (c := ' ') rfl) same
  exact Vector.toList_inj.mp entries

theorem lines_injective (same : t.lines = other.lines) : t = other := by
  rw [lines, lines, List.cons.injEq, List.cons.injEq] at same
  obtain ⟨-, accepts, rows⟩ := same
  rw [String.append_right_inj] at accepts
  have words := spaced_injective (fun _ _ => Int.repr_injective)
    (Text.not_mem_toString_int (c := ' ') rfl (by decide)) accepts
  have rules := List.map_injective_iff.mpr (fun _ _ => Int32.toInt_inj.mp) words
  have rows := Text.map_zipIdx_injective (fun _ _ _ _ _ => rowText_injective) rows
  cases t
  cases other
  rw [Tables.mk.injEq]
  exact ⟨Array.toList_inj.mp rows, Array.toList_inj.mp rules⟩

theorem text_injective : Function.Injective text := by
  intro t other same
  rw [text_eq, text_eq] at same
  exact lines_injective
    (Text.join_lines_injective (feed_not_mem_lines t) (feed_not_mem_lines other) same)

end Text

end Tables

namespace ModeTables

def actionText : Option String → String
  | some action => " => " ++ action
  | none => ""

theorem toList_actionText_none : (actionText none).toList = [] :=
  rfl

theorem toList_actionText_some (action : String) :
    (actionText (some action)).toList = ' ' :: '=' :: '>' :: ' ' :: action.toList := by
  rw [actionText, String.toList_append]
  rfl

theorem isInfix_arrow (name action : String) :
    ['=', '>'] <:+: name.toList ++ (actionText (some action)).toList := by
  rw [toList_actionText_some]
  exact ⟨name.toList ++ [' '], ' ' :: action.toList, by simp⟩

def ruleText (i : Nat) (rule : String × Option String) : String :=
  "rule " ++ toString i ++ " " ++ rule.1 ++ actionText rule.2

/-- Each rule has an entry in the list of actions, and the texts are parts of lines: there is no line feed
in them, and no arrow in the name of a rule. -/
structure Legible (m : ModeTables) : Prop where
  paired : m.actions.length = m.ruleNames.length
  modeLine : '\n' ∉ m.mode.toList
  nameLine : ∀ name ∈ m.ruleNames, '\n' ∉ name.toList
  actionLine : ∀ action, some action ∈ m.actions → '\n' ∉ action.toList
  arrowless : ∀ name ∈ m.ruleNames, ¬ ['=', '>'] <:+: name.toList

def rules (m : ModeTables) : List (String × Option String) :=
  m.ruleNames.zip m.actions

def ruleLines (m : ModeTables) : List String :=
  m.rules.zipIdx.map fun r => ruleText r.2 r.1

def lines (m : ModeTables) : List String :=
  ("state " ++ m.mode) :: (m.ruleLines ++ m.tables.lines)

variable {m other : ModeTables}

theorem ruleLine_eq (i : Nat) (name : String) (action : Option String) :
    ruleLine i name action = ruleText i (name, action) ++ "\n" := by
  cases action <;> rfl

theorem Legible.map_ruleLine (legible : m.Legible) :
    (m.ruleNames.zipIdx.map fun r => ruleLine r.2 r.1 (m.actions[r.2]?.getD none)) =
      m.ruleLines.map (· ++ "\n") := by
  refine List.ext_getElem? fun i => ?_
  simp only [ruleLines, rules, List.getElem?_map, List.getElem?_zipIdx, Option.map_map, Nat.zero_add]
  by_cases inside : i < m.ruleNames.length
  · have named : i < m.actions.length := by rwa [legible.paired]
    have both : i < (m.ruleNames.zip m.actions).length := by
      rw [List.length_zip, legible.paired, Nat.min_self]
      exact inside
    rw [List.getElem?_eq_getElem inside, List.getElem?_eq_getElem both, List.getElem_zip]
    simp only [Option.map_some, Function.comp_apply, List.getElem?_eq_getElem named, Option.getD_some,
      ruleLine_eq]
  · have outside := Nat.le_of_not_lt inside
    have neither : (m.ruleNames.zip m.actions).length ≤ i := by
      rw [List.length_zip, legible.paired, Nat.min_self]
      exact outside
    rw [List.getElem?_eq_none outside, List.getElem?_eq_none neither]
    rfl

theorem Legible.text_eq (legible : m.Legible) : m.text = String.join (m.lines.map (· ++ "\n")) := by
  rw [text, lines, legible.map_ruleLine, Tables.text_eq, List.map_cons, List.map_append,
    String.join_cons, String.join_append, String.append_assoc]

theorem feed_not_mem_ruleText {rule : String × Option String} (nameLine : '\n' ∉ rule.1.toList)
    (actionLine : ∀ action, rule.2 = some action → '\n' ∉ action.toList) (i : Nat) :
    '\n' ∉ (ruleText i rule).toList := by
  have behind : '\n' ∉ (actionText rule.2).toList := by
    cases given : rule.2 with
    | none => exact List.not_mem_nil
    | some action =>
        rw [actionText, String.toList_append, List.mem_append, not_or]
        exact ⟨by decide, actionLine action given⟩
  simp only [ruleText, String.toList_append, List.mem_append, not_or]
  exact ⟨⟨⟨⟨by decide, Text.not_mem_toString rfl i⟩, by decide⟩, nameLine⟩, behind⟩

theorem Legible.feed_not_mem_lines (legible : m.Legible) : ∀ line ∈ m.lines, '\n' ∉ line.toList := by
  intro line mem
  rw [lines, List.mem_cons, List.mem_append, ruleLines, List.mem_map] at mem
  rcases mem with rfl | ⟨⟨rule, i⟩, listed, rfl⟩ | tables
  · rw [String.toList_append, List.mem_append, not_or]
    exact ⟨by decide, legible.modeLine⟩
  · have ⟨name, action⟩ := List.of_mem_zip (List.fst_mem_of_mem_zipIdx listed)
    exact feed_not_mem_ruleText (legible.nameLine _ name)
      (fun given same => legible.actionLine given (same ▸ action)) i
  · exact Tables.feed_not_mem_lines m.tables line tables

/-- The first arrow behind a name is the one before the action. -/
theorem ruleText_injective {i : Nat} {rule rule' : String × Option String}
    (left : ¬ ['=', '>'] <:+: rule.1.toList) (right : ¬ ['=', '>'] <:+: rule'.1.toList)
    (same : ruleText i rule = ruleText i rule') : rule = rule' := by
  obtain ⟨name, action⟩ := rule
  obtain ⟨name', action'⟩ := rule'
  simp only [ruleText, String.append_assoc, String.append_right_inj] at same
  have texts := congrArg String.toList same
  rw [String.toList_append, String.toList_append] at texts
  cases action with
  | none =>
      cases action' with
      | none => rw [(String.append_left_inj _).mp same]
      | some a =>
          rw [toList_actionText_none, List.append_nil] at texts
          exact absurd (texts ▸ isInfix_arrow name' a) left
  | some a =>
      cases action' with
      | none =>
          rw [toList_actionText_none, List.append_nil] at texts
          exact absurd (texts ▸ isInfix_arrow name a) right
      | some a' =>
          have split := congrArg RuleFile.splitArrow? texts
          rw [toList_actionText_some, toList_actionText_some, RuleFile.splitArrow?_spaced left,
            RuleFile.splitArrow?_spaced right, Option.some.injEq, Prod.mk.injEq, List.cons.injEq] at split
          obtain ⟨names, -, actions⟩ := split
          obtain rfl : name = name' := String.toList_injective (List.append_cancel_right names)
          obtain rfl : a = a' := String.toList_injective actions
          rfl

theorem Legible.ruleLines_injective (left : m.Legible) (right : other.Legible)
    (same : m.ruleLines = other.ruleLines) : m.rules = other.rules := by
  have arrowless {m : ModeTables} (legible : m.Legible) {rule : String × Option String}
      (listed : rule ∈ m.rules) : ¬ ['=', '>'] <:+: rule.1.toList :=
    legible.arrowless rule.1 (List.of_mem_zip listed).1
  exact Text.map_zipIdx_injective
    (fun _ _ mem _ mem' => ruleText_injective (arrowless left mem) (arrowless right mem')) same

/-- The lines of the rules end at the first line that does not begin as they do. -/
theorem ruleLines_append_cancel
    (same : m.ruleLines ++ m.tables.lines = other.ruleLines ++ other.tables.lines) :
    m.ruleLines = other.ruleLines ∧ m.tables.lines = other.tables.lines := by
  have rule (m : ModeTables) : ∀ line ∈ m.ruleLines, line.toList.take 1 = ['r'] := by
    intro line mem
    obtain ⟨r, -, rfl⟩ := List.mem_map.mp mem
    rw [ruleText, String.append_assoc, String.append_assoc, String.append_assoc,
      Text.take_one_append (by decide)]
    decide
  have states (t : Tables) : ¬ ("states " ++ toString t.count).toList.take 1 = ['r'] := by
    rw [Text.take_one_append (by decide)]
    decide
  exact Text.append_cons_cancel (rule m) (rule other) (states m.tables) (states other.tables) same

/-- No two legible tables of modes are printed alike. -/
theorem Legible.text_injective (left : m.Legible) (right : other.Legible)
    (same : m.text = other.text) : m = other := by
  rw [left.text_eq, right.text_eq] at same
  have parts := Text.join_lines_injective left.feed_not_mem_lines right.feed_not_mem_lines same
  rw [lines, lines, List.cons.injEq, String.append_right_inj] at parts
  obtain ⟨mode, behind⟩ := parts
  obtain ⟨ruleLines, tableLines⟩ := ruleLines_append_cancel behind
  have rules := left.ruleLines_injective right ruleLines
  have names : m.ruleNames = other.ruleNames := by
    rw [← List.map_fst_zip (Nat.le_of_eq left.paired.symm),
      ← List.map_fst_zip (Nat.le_of_eq right.paired.symm)]
    exact congrArg _ rules
  have actions : m.actions = other.actions := by
    rw [← List.map_snd_zip (Nat.le_of_eq left.paired),
      ← List.map_snd_zip (Nat.le_of_eq right.paired)]
    exact congrArg _ rules
  have tables := Tables.lines_injective tableLines
  cases m
  cases other
  rw [ModeTables.mk.injEq]
  exact ⟨mode, names, actions, tables⟩

end ModeTables

end Munch
