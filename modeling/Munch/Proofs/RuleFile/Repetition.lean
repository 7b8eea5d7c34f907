import Munch.Proofs.RuleFile.FirstFault
import Munch.Proofs.RuleFile.Sections
import Munch.Proofs.Text.Delimited

/-!
Modes that are declared twice.

A header is refused for its mode if what stands before it declares the mode already (`Declared`).  That
is so if an earlier header has the name, and for `INITIAL`, which every file begins with, as soon as
anything is declared.  The message about such a header names its line and its mode, so that a file gets
it exactly if the header is the first fault (`compile_duplicate_iff`).
-/

set_option autoImplicit false

namespace Munch.RuleFile

variable {u : Universe} {text name : String} {entries : List Entry}

/-- What stands before a header declares the mode that it names.  A header can only go on with `INITIAL`
before everything else. -/
def Declared (entries : List Entry) (name : String) : Prop :=
  name ∈ titles entries ∨ name = Lexer.initial ∧ entries ≠ []

/-- No line before the line with this index is wrong, and this one is a header for a mode that those
before it declare. -/
def RepeatsAt (declared : List Entry → String → Prop) (u : Universe) (text : String) (k : Nat)
    (name : String) : Prop :=
  ∃ line entries, ((Text.lines text.toList).map Text.chopReturn)[k]? = some line ∧
    Declares u line (.header name) ∧
    (∃ l, compile u (.ofList (Text.firstLines k text.toList)) = .ok l) ∧
    Reads u (((Text.lines text.toList).map Text.chopReturn).take k) entries ∧
    declared entries name

section Message

theorem Cause.eq_duplicateMode_of_message {cause : Cause}
    (same : cause.message = "lexer state " ++ (name ++ " declared twice")) :
    cause = .duplicateMode name := by
  have other {front rest : String} (left : 1 ≤ front.toList.length)
      (letters : front.toList.take 1 ≠ "lexer state ".toList.take 1)
      (is : cause.message = front ++ rest) : False := by
    have letter := Text.take_one_append left rest
    rw [← is, same, Text.take_one_append (by decide)] at letter
    exact letters letter.symm
  cases cause with
  | duplicateMode earlier =>
      have texts : "lexer state " ++ (earlier ++ " declared twice") =
        "lexer state " ++ (name ++ " declared twice") := String.append_assoc.symm.trans same
      rw [String.append_right_inj, String.append_left_inj] at texts
      rw [texts]
  | missingModeName => exact (other (by decide) (by decide) String.append_empty.symm).elim
  | arrowless => exact (other (by decide) (by decide) String.append_empty.symm).elim
  | missingRuleName => exact (other (by decide) (by decide) String.append_empty.symm).elim
  | emptyPattern rule =>
      have is : (Cause.emptyPattern rule).message = "rule " ++ (rule ++ " has an empty pattern") :=
        String.append_assoc
      exact (other (by decide) (by decide) is).elim
  | badPattern rule e =>
      have is : (Cause.badPattern rule e).message =
          "invalid pattern for rule " ++ (rule ++ (": " ++ e.message)) :=
        String.append_assoc.trans String.append_assoc
      exact (other (by decide) (by decide) is).elim

theorem message_eq_duplicate_iff {number n : Nat} {cause : Cause} :
    (Error.atLine number cause).message =
        "line " ++ toString n ++ ": lexer state " ++ name ++ " declared twice" ↔
      number = n ∧ cause = .duplicateMode name := by
  have front : ": lexer state " = ": " ++ "lexer state " := by decide
  rw [message_atLine, front]
  simp only [String.append_assoc, String.append_right_inj]
  constructor
  · intro same
    have texts := congrArg String.toList same
    rw [String.toList_append, String.toList_append, String.toList_append, String.toList_append] at texts
    obtain ⟨rfl, behind⟩ := Text.toString_append_cancel (c := ':') (d := ':') rfl rfl texts
    rw [String.append_right_inj, String.append_right_inj] at same
    exact ⟨rfl, Cause.eq_duplicateMode_of_message same⟩
  · rintro ⟨rfl, rfl⟩
    exact congrArg (fun t => toString number ++ (": " ++ t)) String.append_assoc

end Message

namespace Draft

variable {d e : Draft} {line : List Char}

theorem addLines_eq_error_iff {number k : Nat} {cause : Cause} {lines : List (List Char)} :
    (d.addLines u number lines).2 = some (.atLine (number + k) cause) ↔
      ∃ e line, lines[k]? = some line ∧ d.addLines u number (lines.take k) = (e, none) ∧
        e.addLine u (.read (Text.chopReturn line)) = .error cause := by
  induction lines generalizing d number k with
  | nil => simp [addLines]
  | cons line rest ih =>
      cases added : d.addLine u (.read (Text.chopReturn line)) with
      | error other => cases k <;> simp [addLines, added]
      | ok next =>
          cases k with
          | succ k =>
              have further : number + (k + 1) = number + 1 + k := by omega
              rw [further, addLines, added, ih]
              simp [addLines, added]
          | zero =>
              -- what is wrong behind the line has a larger number
              refine iff_of_false (fun fault => ?_) (by simp [addLines, added])
              rw [addLines, added] at fault
              obtain ⟨before, other, same, -⟩ := addLines_error (Prod.ext rfl fault)
              injection same with number
              omega

theorem addHeader_eq_duplicate_iff {title : List Char} :
    d.addHeader title = .error (.duplicateMode name) ↔
      title ≠ [] ∧ .ofList title = name ∧ d.reopensInitial name = false ∧
        name ∈ d.modes.map Prod.fst := by
  simp only [addHeader]
  split_ifs with empty reopens present
  · have none : title = [] := String.ofList_eq_empty_iff.mp (String.isEmpty_iff.mp empty)
    simp [none]
  · refine iff_of_false (fun refused => ?_) ?_
    · cases refused
    · rintro ⟨-, rfl, opens, -⟩
      rw [reopens] at opens
      cases opens
  · have named : title ≠ [] := fun none => empty (by rw [none]; rfl)
    constructor
    · intro same
      cases same
      exact ⟨named, rfl, Bool.eq_false_iff.mpr reopens, present⟩
    · rintro ⟨-, rfl, -⟩
      rfl
  · refine iff_of_false (fun refused => ?_) ?_
    · cases refused
    · rintro ⟨-, rfl, -, mem⟩
      exact present mem

theorem addRule_ne_duplicate {title pattern : List Char} {action : Option (List Char)} :
    d.addRule u title pattern action ≠ .error (.duplicateMode name) := by
  intro refused
  simp only [addRule] at refused
  split at refused
  · cases refused
  · split at refused
    · cases refused
    · split at refused <;> cases refused

theorem addLine_eq_duplicate_iff :
    d.addLine u (.read line) = .error (.duplicateMode name) ↔
      Declares u line (.header name) ∧ d.reopensInitial name = false ∧
        name ∈ d.modes.map Prod.fst := by
  constructor
  · intro refused
    unfold Line.read at refused
    split at refused
    · cases refused
    · split at refused
      · cases refused
      · obtain ⟨named, rfl, present⟩ := addHeader_eq_duplicate_iff.mp refused
        exact ⟨.header named, present⟩
      · split at refused
        · cases refused
        · exact absurd refused addRule_ne_duplicate
  · rintro ⟨declares, present⟩
    cases declares with
    | header named =>
        rw [read_header]
        exact addHeader_eq_duplicate_iff.mpr ⟨named, rfl, present⟩

theorem reopensInitial_of_addEntry {entry : Entry} (taken : d.addEntry entry = .ok e) :
    e.reopensInitial name = false := by
  cases entry with
  | rule source =>
      cases taken
      exact reopensInitial_registered d source name
  | header title =>
      obtain ⟨-, ⟨-, rfl⟩ | ⟨-, -, rfl⟩⟩ := addHeader_cases taken
      · exact reopensInitial_headed d.earlier d.name d.rules d.headers name
      · exact reopensInitial_headed d.modes _ .empty d.headers name

theorem reopensInitial_of_addEntries (added : entries.foldlM addEntry .new = .ok d) :
    d.reopensInitial name = true ↔ name = Lexer.initial ∧ entries = [] := by
  rcases entries.eq_nil_or_concat with rfl | ⟨before, entry, rfl⟩
  · cases added
    simp [reopensInitial, new, RuleSet.empty]
  · have later : d.reopensInitial name = false := by
      rw [List.concat_eq_append, List.foldlM_append] at added
      cases taken : before.foldlM addEntry .new with
      | error cause =>
          rw [taken] at added
          cases added
      | ok earlier =>
          rw [taken] at added
          exact reopensInitial_of_addEntry ((bind_pure (earlier.addEntry entry)).symm.trans added)
    simp [later]

/-- The mode of a header is there exactly if it is declared before the header. -/
theorem declared_iff (added : entries.foldlM addEntry .new = .ok d) :
    Declared entries name ↔ d.reopensInitial name = false ∧ name ∈ d.modes.map Prod.fst := by
  have names : d.modes.map Prod.fst = Lexer.initial :: titles (dropInitial entries) := by
    rw [modes_of_addEntries_new added, List.map_map, ← names_sections]
    rfl
  rw [names, ← Bool.not_eq_true, reopensInitial_of_addEntries added, List.mem_cons]
  constructor
  · rintro (earlier | ⟨rfl, nonempty⟩)
    · refine ⟨?_, List.mem_cons.mp (titles_subset_dropInitial entries earlier)⟩
      rintro ⟨-, rfl⟩
      cases earlier
    · exact ⟨fun start => nonempty start.2, .inl rfl⟩
  · rintro ⟨start, rfl | later⟩
    · exact .inr ⟨rfl, fun empty => start ⟨rfl, empty⟩⟩
    · exact .inl (titles_dropInitial_subset entries later)

end Draft

section Compile

variable {k : Nat}

/-- A text is refused for a repeated mode exactly if its draft is, in the line that the message names. -/
theorem compile_message_iff_draft :
    (∃ e, compile u text = .error e ∧ e.message =
        "line " ++ toString (k + 1) ++ ": lexer state " ++ name ++ " declared twice") ↔
      (draft u text).2 = some (.atLine (1 + k) (.duplicateMode name)) := by
  rw [Nat.add_comm 1 k]
  constructor
  · rintro ⟨e, failed, message⟩
    obtain ⟨before, cause, rfl, -, fault, -⟩ := compile_error_local failed
    obtain ⟨number, rfl⟩ := message_eq_duplicate_iff.mp message
    rwa [number] at fault
  · intro fault
    exact ⟨_, compile_eq_error_iff.mpr fault, message_eq_duplicate_iff.mpr ⟨rfl, rfl⟩⟩

/-- A file is refused with the message that a mode is declared twice in a line exactly if no line before
it is wrong, the line is a header that names the mode, and the mode was declared before: by an earlier
header, or, if it is `INITIAL`, as soon as anything stands before the line but blank lines and comments. -/
theorem compile_duplicate_iff :
    (∃ e, compile u text = .error e ∧ e.message =
        "line " ++ toString (k + 1) ++ ": lexer state " ++ name ++ " declared twice") ↔
      RepeatsAt Declared u text k name := by
  rw [compile_message_iff_draft, draft, Draft.addLines_eq_error_iff]
  constructor
  · rintro ⟨d, line, found, taken, refused⟩
    obtain ⟨declares, present⟩ := Draft.addLine_eq_duplicate_iff.mp refused
    obtain ⟨entries, reads, added⟩ := Draft.addLines_eq_iff.mp taken
    obtain ⟨inside, -⟩ := List.getElem?_eq_some_iff.mp found
    have shorter := (draft_firstLines inside).trans taken
    refine ⟨_, entries, ?_, declares, ⟨_, compile_of_draft shorter⟩, ?_, ?_⟩
    · rw [List.getElem?_map, found]
      rfl
    · rwa [← List.map_take]
    · exact (Draft.declared_iff added).mpr present
  · rintro ⟨line, entries, found, declares, ⟨l, compiled⟩, reads, before⟩
    rw [List.getElem?_map, Option.map_eq_some_iff] at found
    obtain ⟨line, found, rfl⟩ := found
    obtain ⟨inside, -⟩ := List.getElem?_eq_some_iff.mp found
    obtain ⟨d, taken, -⟩ := exists_draft compiled
    rw [draft_firstLines inside] at taken
    rw [← List.map_take] at reads
    have added := reads.addLines_eq_iff.mp taken
    refine ⟨d, line, found, taken, ?_⟩
    exact Draft.addLine_eq_duplicate_iff.mpr ⟨declares, (Draft.declared_iff added).mp before⟩

/-- A header `INITIAL` repeats the mode also behind another header, without a rule before them: the
rules before the first header do not tell whether it is refused. -/
theorem initial_declared_without_rules :
    ¬ ∀ (u : Universe) (text : String) (k : Nat) (name : String),
      (∃ e, compile u text = .error e ∧ e.message =
          "line " ++ toString (k + 1) ++ ": lexer state " ++ name ++ " declared twice") ↔
        RepeatsAt (fun entries name =>
          name ∈ titles entries ∨ name = Lexer.initial ∧ leading entries ≠ []) u text k name := by
  intro always
  have refused : compile .bytes ">A\n>INITIAL\n" = .error (.atLine 2 (.duplicateMode "INITIAL")) := by
    rw [compile_eq_error_iff]
    decide +kernel
  obtain ⟨-, entries, -, -, -, reads, before⟩ :=
    (always .bytes ">A\n>INITIAL\n" 1 "INITIAL").mp ⟨_, refused, by decide +kernel⟩
  have lines : ((Text.lines ">A\n>INITIAL\n".toList).map Text.chopReturn).take 1 = [['>', 'A']] := by
    decide +kernel
  rw [lines] at reads
  have earlier : entries = [.header "A"] := by
    cases reads with
    | silent silent _ =>
        rcases silent with blank | comment
        · exact absurd (blank '>' List.mem_cons_self) (by decide)
        · cases comment
    | entry declares later =>
        cases later
        cases declares with
        | header => rfl
        | rule rule => exact absurd rfl rule.2
  subst earlier
  rcases before with named | ⟨-, rules⟩
  · exact absurd named (by decide)
  · exact rules rfl

end Compile

end Munch.RuleFile
