import Munch.Proofs.Lexer.Modes
import Munch.RuleFile.Compile

/-!
What a rule file makes.

The lines of a text hold no line feed (`feed_not_mem_of_mem_lines`).  Each line that is taken leaves
drafts whose modes have names of their own, `INITIAL` among them (`Drafted.addLine`,
`Drafted.addLines`).  So the modes of a draft can always become those of a lexer (`compile_of_draft`).
-/

set_option autoImplicit false

namespace Munch

namespace Text

variable {s : List Char} {c : Char}

theorem feed_not_mem_of_mem_consLine (plain : c ≠ '\n') {rest : List (List Char)}
    (each : ∀ line ∈ rest, '\n' ∉ line) : ∀ line ∈ consLine c rest, '\n' ∉ line := by
  intro line mem
  cases rest with
  | nil =>
      rw [consLine, List.mem_singleton] at mem
      rw [mem, List.mem_singleton]
      exact plain.symm
  | cons first rest =>
      rw [consLine, List.mem_cons] at mem
      obtain ⟨own, later⟩ := List.forall_mem_cons.mp each
      rcases mem with head | behind
      · rw [head, List.mem_cons, not_or]
        exact ⟨plain.symm, own⟩
      · exact later line behind

theorem feed_not_mem_of_mem_lines (s : List Char) : ∀ line ∈ lines s, '\n' ∉ line := by
  fun_induction lines s with
  | case1 => simp
  | case2 rest ih => simpa using ih
  | case3 rest ih => simpa using ih
  | case4 c rest noFeed _ ih => exact feed_not_mem_of_mem_consLine noFeed ih

theorem mem_of_mem_chopReturn (mem : c ∈ chopReturn s) : c ∈ s := by
  rw [chopReturn] at mem
  split at mem
  · exact List.mem_of_mem_dropLast mem
  · exact mem

theorem isInfix_trim (s : List Char) : trim s <:+: s := by
  rw [trim, trimEnd, trimStart, ← List.reverse_infix, List.reverse_reverse]
  have start : s.dropWhile isBlank <:+: s := (List.dropWhile_suffix _).isInfix
  exact (List.dropWhile_suffix _).isInfix.trans (List.reverse_infix.mpr start)

theorem mem_of_mem_trim (mem : c ∈ trim s) : c ∈ s :=
  (isInfix_trim s).subset mem

end Text

namespace RuleFile

namespace Draft

section Step

variable {d e : Draft} {u : Universe} {name pattern : List Char} {action : Option (List Char)}

/-- What a header does: it goes on with the mode that the file begins with, or opens a new one. -/
theorem addHeader_cases (added : d.addHeader name = .ok e) :
    name ≠ [] ∧
      ((d.reopensInitial (.ofList name) = true ∧ e = { d with headers := d.headers + 1 }) ∨
        (d.reopensInitial (.ofList name) = false ∧ String.ofList name ∉ d.modes.map Prod.fst ∧
          e = ⟨d.modes, .ofList name, .empty, d.headers + 1⟩)) := by
  simp only [addHeader] at added
  split at added
  · cases added
  · rename_i named
    refine ⟨fun empty => named (by rw [empty]; rfl), ?_⟩
    split at added
    · rename_i reopens
      cases added
      exact .inl ⟨reopens, rfl⟩
    · rename_i opens
      split at added
      · cases added
      · rename_i fresh
        cases added
        exact .inr ⟨Bool.eq_false_iff.mpr opens, fresh, rfl⟩

theorem addRule_cases (added : d.addRule u name pattern action = .ok e) :
    name ≠ [] ∧ pattern ≠ [] ∧ ∃ p, Pattern.parseChars u pattern = .ok p ∧
      e = { d with rules := d.rules.register (.ofList name) p (action.map String.ofList) } := by
  simp only [addRule] at added
  split at added
  · cases added
  · rename_i named
    split at added
    · cases added
    · rename_i nonempty
      split at added
      · cases added
      · rename_i p parsed
        cases added
        exact ⟨fun empty => named (by rw [empty]; rfl), fun empty => nonempty (by rw [empty]; rfl), p,
          parsed, rfl⟩

end Step

/-- No two modes have a name, and one of them is `INITIAL`. -/
structure Drafted (d : Draft) : Prop where
  distinct : (d.modes.map Prod.fst).Nodup
  initial : Lexer.initial ∈ d.modes.map Prod.fst

namespace Drafted

variable {d e : Draft} {u : Universe}

theorem new : Drafted .new where
  distinct := List.nodup_singleton _
  initial := List.mem_singleton.mpr rfl

theorem addHeader (drafted : Drafted d) {name : List Char} (added : d.addHeader name = .ok e) :
    Drafted e := by
  obtain ⟨-, ⟨-, rfl⟩ | ⟨-, fresh, rfl⟩⟩ := addHeader_cases added
  · exact ⟨drafted.distinct, drafted.initial⟩
  · refine ⟨?_, ?_⟩
    · rw [modes, List.map_append, List.map_singleton, ← List.concat_eq_append]
      exact drafted.distinct.concat fresh
    · rw [modes, List.map_append]
      exact List.mem_append_left _ drafted.initial

theorem addRule (drafted : Drafted d) {name pattern : List Char} {action : Option (List Char)}
    (added : d.addRule u name pattern action = .ok e) : Drafted e := by
  obtain ⟨-, -, p, -, rfl⟩ := addRule_cases added
  obtain ⟨distinct, initial⟩ := drafted
  rw [modes, List.map_append] at distinct initial
  refine ⟨?_, ?_⟩
  · rw [modes, List.map_append]
    exact distinct
  · rw [modes, List.map_append]
    exact initial

theorem addLine (drafted : Drafted d) {line : Line} (added : d.addLine u line = .ok e) :
    Drafted e := by
  cases line with
  | skipped =>
      cases added
      exact drafted
  | header name => exact drafted.addHeader added
  | arrowless => cases added
  | rule name pattern action => exact drafted.addRule added

theorem addLines (drafted : Drafted d) {lines : List (List Char)} {number : Nat}
    (added : d.addLines u number lines = (e, none)) : Drafted e := by
  induction lines generalizing d number with
  | nil =>
      cases added
      exact drafted
  | cons line rest ih =>
      rw [Draft.addLines] at added
      split at added
      · cases added
      · rename_i next taken
        exact ih (drafted.addLine taken) added

end Drafted

theorem addModes_eq {modes : List (String × RuleSet)} {l : Lexer}
    (distinct : ((l.modes ++ modes).map Prod.fst).Nodup) :
    addModes l modes = .ok ⟨l.modes ++ modes,
      if Lexer.initial ∈ modes.map Prod.fst then some Lexer.initial else l.active⟩ := by
  induction modes generalizing l with
  | nil => simp [addModes]
  | cons mode rest ih =>
      obtain ⟨name, rules⟩ := mode
      have fresh : name ∉ l.names := by
        rw [List.map_append, List.map_cons, List.nodup_append] at distinct
        exact fun mem => distinct.2.2 name mem name List.mem_cons_self rfl
      rw [List.append_cons] at distinct
      have added := ih (l := ⟨l.modes ++ [(name, rules)],
        if name = Lexer.initial then some name else l.active⟩) distinct
      rw [addModes, Lexer.addMode, if_neg fresh]
      simp only [added, List.append_assoc, List.singleton_append, List.map_cons, List.mem_cons]
      by_cases later : Lexer.initial ∈ rest.map Prod.fst
      · simp only [later, or_true, if_true]
      · by_cases first : name = Lexer.initial <;> simp [later, first, eq_comm]

end Draft

section Compile

variable {u : Universe} {text : String} {d : Draft} {l : Lexer}

theorem drafted_of_draft (drawn : draft u text = (d, none)) : Draft.Drafted d :=
  Draft.Drafted.new.addLines drawn

/-- If no line is wrong, the modes of the draft are those of a lexer, with `INITIAL` active. -/
theorem compile_of_draft (drawn : draft u text = (d, none)) :
    compile u text = .ok ⟨d.modes, some Lexer.initial⟩ := by
  have drafted := drafted_of_draft drawn
  have added : Draft.addModes .empty d.modes = _ := Draft.addModes_eq drafted.distinct
  rw [if_pos drafted.initial] at added
  rw [compile, drawn]
  exact added

theorem exists_draft (compiled : compile u text = .ok l) :
    ∃ d, draft u text = (d, none) ∧ l = ⟨d.modes, some Lexer.initial⟩ := by
  cases drawn : draft u text with
  | mk d fault =>
      cases fault with
      | some e =>
          rw [compile, drawn] at compiled
          cases compiled
      | none =>
          rw [compile_of_draft drawn] at compiled
          cases compiled
          exact ⟨d, rfl, rfl⟩

end Compile

end RuleFile

end Munch
