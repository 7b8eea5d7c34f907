import Munch.Proofs.RuleFile.Contents
import Munch.Proofs.RuleFile.Separator

/-!
What the lines of a rule file say.

A line is silent, or it declares a mode or a rule (`Declares`).  The name of a rule ends at the first
arrow of the line.  Its pattern ends at the first arrow that reading comes to, or goes on to the end
(`Cuts`).  A draft takes lines exactly if it takes what they declare (`Draft.addLines_eq_iff`).  Titles,
names and actions are cut out of lines, so they hold no line feed (`Reads.entries_oneLine`).
-/

set_option autoImplicit false

namespace Munch.RuleFile

inductive Entry where
  | header (name : String)
  | rule (source : RuleSet.Source)

/-- The line is blank or a comment. -/
def Silent (line : List Char) : Prop :=
  (∀ c ∈ line, Text.isBlank c = true) ∨ line.head? = some '#'

def actionOf (text : List Char) : Option String :=
  if (Text.trim text).isEmpty then none else some (.ofList (Text.trim text))

/-- The pattern and the action of a rule, in what stands behind its name. -/
inductive Cuts (rest : List Char) : List Char → Option String → Prop where
  | whole (arrowless : Arrowless rest) : Cuts rest rest none
  | cut {k : Nat} (found : FirstArrow rest k) :
      Cuts rest (rest.take k) (actionOf (rest.drop (k + 2)))

/-- What a line declares. -/
inductive Declares (u : Universe) : List Char → Entry → Prop where
  | header {title : List Char} (named : Text.trim title ≠ []) :
      Declares u ('>' :: title) (.header (.ofList (Text.trim title)))
  | rule {line before rest pattern : List Char} {action : Option String} {p : Pattern}
      (rule : line.head? ≠ some '#' ∧ line.head? ≠ some '>')
      (split : line = before ++ '=' :: '>' :: rest)
      (first : ∀ j < before.length, ¬ ArrowAt line j)
      (named : Text.trim before ≠ [])
      (cuts : Cuts rest pattern action)
      (nonempty : pattern ≠ [])
      (parsed : Pattern.parseChars u pattern = .ok p) :
      Declares u line (.rule ⟨.ofList (Text.trim before), p, action⟩)

/-- What lines declare, one after the other. -/
inductive Reads (u : Universe) : List (List Char) → List Entry → Prop where
  | nil : Reads u [] []
  | silent {line : List Char} {rest : List (List Char)} {entries : List Entry}
      (silent : Silent line) (later : Reads u rest entries) : Reads u (line :: rest) entries
  | entry {line : List Char} {rest : List (List Char)} {entry : Entry} {entries : List Entry}
      (declares : Declares u line entry) (later : Reads u rest entries) :
      Reads u (line :: rest) (entry :: entries)

section Line

variable {u : Universe} {line before rest pattern : List Char} {action : Option String}

theorem splitAction_of_arrow {k : Nat} (found : arrowOffset? false false rest = some k) :
    (splitAction rest).1 = rest.take k ∧
      (splitAction rest).2.map String.ofList = actionOf (rest.drop (k + 2)) := by
  rw [splitAction, found]
  exact ⟨rfl, apply_ite (Option.map String.ofList) _ none (some _)⟩

theorem Cuts.splitAction_eq (cuts : Cuts rest pattern action) :
    (splitAction rest).1 = pattern ∧ (splitAction rest).2.map String.ofList = action := by
  cases cuts with
  | whole arrowless =>
      rw [splitAction, arrowless.arrowOffset?_eq]
      exact ⟨rfl, rfl⟩
  | cut found => exact splitAction_of_arrow found.arrowOffset?_eq

/-- Where the search for the arrow loses its way, what it cuts out is no pattern. -/
theorem cuts_splitAction {p : Pattern} (parsed : Pattern.parseChars u (splitAction rest).1 = .ok p) :
    Cuts rest (splitAction rest).1 ((splitAction rest).2.map String.ofList) := by
  rcases reading_cases u rest with ⟨k, found⟩ | arrowless | ⟨k, stuck⟩
  · have cuts := Cuts.cut found
    rwa [cuts.splitAction_eq.1, cuts.splitAction_eq.2]
  · have cuts := Cuts.whole arrowless
    rwa [cuts.splitAction_eq.1, cuts.splitAction_eq.2]
  · obtain ⟨e, failed⟩ := stuck.parseChars_error
    rw [failed] at parsed
    cases parsed

theorem Silent.read_eq (silent : Silent line) : Line.read line = .skipped := by
  rcases silent with blank | comment
  · exact if_pos (List.all_eq_true.mpr blank)
  · obtain ⟨text, rfl⟩ := List.head?_eq_some_iff.mp comment
    unfold Line.read
    split <;> rfl

theorem read_header (title : List Char) : Line.read ('>' :: title) = .header (Text.trim title) := by
  have visible : ¬ ('>' :: title).all Text.isBlank = true := by
    rw [List.all_cons]
    exact fun blank => absurd (Bool.and_eq_true_iff.mp blank).1 (by decide)
  exact if_neg visible

theorem read_rule (rule : line.head? ≠ some '#' ∧ line.head? ≠ some '>')
    (split : splitArrow? line = some (before, rest)) :
    Line.read line = .rule (Text.trim before) (splitAction rest).1 (splitAction rest).2 := by
  have visible : ¬ line.all Text.isBlank = true := by
    intro blank
    have arrow : '=' ∈ line := by
      rw [(splitArrow?_eq_some_iff.mp split).1]
      exact List.mem_append_right _ List.mem_cons_self
    exact absurd (List.all_eq_true.mp blank '=' arrow) (by decide)
  unfold Line.read
  rw [if_neg visible]
  split
  · exact absurd rfl rule.1
  · exact absurd rfl rule.2
  · simp only [split]

end Line

namespace Draft

variable {d e : Draft} {u : Universe} {line : List Char} {entry : Entry}

def addEntry (d : Draft) : Entry → Except Cause Draft
  | .header name => d.addHeader name.toList
  | .rule source => .ok { d with rules := d.rules.registerSource source }

theorem addLine_silent (silent : Silent line) : d.addLine u (.read line) = .ok d := by
  rw [silent.read_eq]
  rfl

theorem addLine_declares (declares : Declares u line entry) : d.addLine u (.read line) = d.addEntry entry := by
  cases declares with
  | header named =>
      rw [read_header, addLine, addEntry, String.toList_ofList]
  | rule rule split first named cuts nonempty parsed =>
      obtain ⟨pattern, action⟩ := cuts.splitAction_eq
      rw [read_rule rule (splitArrow?_eq_some_iff.mpr ⟨split, first⟩), addLine, pattern]
      simp [addRule, addEntry, named, nonempty, parsed, action, RuleSet.registerSource]

theorem declares_of_addLine (added : d.addLine u (.read line) = .ok e) :
    Silent line ∨ ∃ entry, Declares u line entry := by
  unfold Line.read at added
  split at added
  · rename_i blank
    exact .inl (.inl (List.all_eq_true.mp blank))
  · split at added
    · exact .inl (.inr rfl)
    · obtain ⟨named, -⟩ := addHeader_cases added
      exact .inr ⟨_, .header named⟩
    · rename_i comment header
      split at added
      · cases added
      · rename_i before rest found
        obtain ⟨named, nonempty, p, parsed, -⟩ := addRule_cases added
        obtain ⟨split, first⟩ := splitArrow?_eq_some_iff.mp found
        refine .inr ⟨_, .rule ⟨?_, ?_⟩ split first named (cuts_splitAction parsed) nonempty parsed⟩
        · intro is
          obtain ⟨text, same⟩ := List.head?_eq_some_iff.mp is
          exact comment text same
        · intro is
          obtain ⟨title, same⟩ := List.head?_eq_some_iff.mp is
          exact header title same

end Draft

/-- A draft becomes by lines what it becomes by what they declare. -/
theorem Reads.addLines_eq_iff {u : Universe} {d e : Draft} {number : Nat} {lines : List (List Char)}
    {entries : List Entry} (reads : Reads u (lines.map Text.chopReturn) entries) :
    d.addLines u number lines = (e, none) ↔ entries.foldlM Draft.addEntry d = .ok e := by
  induction lines generalizing d number entries with
  | nil =>
      cases reads
      simp [Draft.addLines, pure, Except.pure]
  | cons line rest ih =>
      rw [Draft.addLines]
      cases reads with
      | silent silent reads =>
          rw [Draft.addLine_silent silent]
          exact ih reads
      | @entry _ _ entry entries declares reads =>
          rw [Draft.addLine_declares declares, List.foldlM_cons]
          cases taken : d.addEntry entry with
          | error cause => simp [bind, Except.bind]
          | ok next => exact ih reads

namespace Draft

variable {d e : Draft} {u : Universe}

theorem addLines_eq_iff {number : Nat} {lines : List (List Char)} :
    d.addLines u number lines = (e, none) ↔
      ∃ entries, Reads u (lines.map Text.chopReturn) entries ∧
        entries.foldlM addEntry d = .ok e := by
  refine ⟨fun added => ?_, fun ⟨entries, reads, added⟩ => reads.addLines_eq_iff.mpr added⟩
  suffices declared : ∃ entries, Reads u (lines.map Text.chopReturn) entries by
    obtain ⟨entries, reads⟩ := declared
    exact ⟨entries, reads, reads.addLines_eq_iff.mp added⟩
  induction lines generalizing d number with
  | nil => exact ⟨[], .nil⟩
  | cons line rest ih =>
      rw [addLines] at added
      cases taken : d.addLine u (.read (Text.chopReturn line)) with
      | error cause =>
          simp only [taken] at added
          cases added
      | ok next =>
          simp only [taken] at added
          obtain ⟨entries, reads⟩ := ih added
          rcases declares_of_addLine taken with silent | ⟨entry, declares⟩
          · exact ⟨entries, .silent silent reads⟩
          · exact ⟨entry :: entries, .entry declares reads⟩

end Draft

section OneLine

variable {u : Universe} {line : List Char} {lines : List (List Char)} {entry : Entry}
  {entries : List Entry}

/-- The texts of what is declared are parts of lines: there is no line feed in them, and no arrow in the
name of a rule. -/
def Entry.OneLine : Entry → Prop
  | .header name => '\n' ∉ name.toList
  | .rule source => '\n' ∉ source.name.toList ∧ ¬ ['=', '>'] <:+: source.name.toList ∧
      ∀ action, source.action = some action → '\n' ∉ action.toList

theorem arrowless_of_first {before rest : List Char}
    (first : ∀ j < before.length, ¬ ArrowAt (before ++ '=' :: '>' :: rest) j) :
    ¬ ['=', '>'] <:+: before := by
  rintro ⟨front, behind, rfl⟩
  refine first front.length ?_ ?_
  · simp only [List.length_append, List.length_cons]
    omega
  · rw [ArrowAt, List.append_assoc, List.append_assoc, List.drop_left]
    exact List.prefix_append _ _

theorem Declares.oneLine (declares : Declares u line entry) (plain : '\n' ∉ line) : entry.OneLine := by
  cases declares with
  | header named =>
      rw [Entry.OneLine, String.toList_ofList]
      exact fun mem => plain (List.mem_cons_of_mem _ (Text.mem_of_mem_trim mem))
  | @rule line before rest pattern action p rule split first named cuts nonempty parsed =>
      subst split
      rw [Entry.OneLine, String.toList_ofList]
      refine ⟨fun mem => plain (List.mem_append_left _ (Text.mem_of_mem_trim mem)),
        fun arrow => arrowless_of_first first (arrow.trans (Text.isInfix_trim before)), ?_⟩
      intro text given mem
      cases cuts with
      | whole => cases given
      | cut =>
          simp only [actionOf] at given
          split at given
          · cases given
          · cases given
            rw [String.toList_ofList] at mem
            have behind := (List.drop_sublist _ rest).mem (Text.mem_of_mem_trim mem)
            exact plain (List.mem_append_right _ (List.mem_cons_of_mem _ (List.mem_cons_of_mem _ behind)))

theorem Reads.oneLine (reads : Reads u lines entries) (plain : ∀ line ∈ lines, '\n' ∉ line) :
    ∀ entry ∈ entries, entry.OneLine := by
  induction reads with
  | nil => nofun
  | silent _ _ ih => exact ih (List.forall_mem_cons.mp plain).2
  | entry declares _ ih =>
      obtain ⟨own, later⟩ := List.forall_mem_cons.mp plain
      exact List.forall_mem_cons.mpr ⟨declares.oneLine own, ih later⟩

theorem Reads.entries_oneLine {text : String}
    (reads : Reads u ((Text.lines text.toList).map Text.chopReturn) entries) :
    ∀ entry ∈ entries, entry.OneLine := by
  refine reads.oneLine (List.forall_mem_map.mpr fun line mem feed => ?_)
  exact Text.feed_not_mem_of_mem_lines _ line mem (Text.mem_of_mem_chopReturn feed)

end OneLine

end Munch.RuleFile
