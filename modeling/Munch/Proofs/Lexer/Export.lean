import Munch.Proofs.Lexer.Alike
import Munch.Proofs.Tables.Agreement

/-!
The exported tables of a lexer, against the lexer itself.

A lexer is made by operations: modes are added, switched to, changed and replaced, and searched,
compiled and exported in between.  What holds of every such lexer is that its modes have different
names and that the set of each is one that its rules make (`Made.performAll`).  The tables of such a
set find what the set finds, and name the rule that it names (`RuleSet.Kept.agrees`).  Exporting
leaves a lexer that is alike to the one before, and operations keep lexers alike
(`Alike.performAll`).
-/

set_option autoImplicit false

namespace Munch

/-- The tables of a mode agree with its set of rules: they accept what the set matches and fail as it
does, and the rule of a match has its name and its action in the lists of the tables. -/
structure ModeTables.Agrees (entry : ModeTables) (rules : RuleSet) : Prop where
  accept_iff : ∀ input pos index stop, entry.tables.find input pos = .ok (.accept index stop) ↔
    ∃ token : Token, (rules.find input pos).1 = .matched token ∧ token.index = index ∧
      token.stop = stop
  named : ∀ input pos (token : Token), (rules.find input pos).1 = .matched token →
    entry.ruleNames[token.index]? = some token.rule ∧
    ∃ rule, rules.rule? token.index = some rule ∧ entry.actions[token.index]? = some rule.action
  noMatch_iff : ∀ input pos,
    entry.tables.find input pos = .ok .noMatch ↔ (rules.find input pos).1 = .noMatch
  endOfInput_iff : ∀ input pos,
    entry.tables.find input pos = .ok .endOfInput ↔ (rules.find input pos).1 = .endOfInput

namespace RuleSet

def made (ops : List Operation) : RuleSet :=
  ops.foldl (fun s op => (s.perform op).2) .empty

namespace Kept

variable {s : RuleSet} {sources : List Source}

theorem of_made (ops : List Operation) : Kept (made ops) (ops.flatMap Operation.added) := by
  induction ops using List.reverseRecOn with
  | nil => exact .refl _
  | append_singleton ops op ih =>
      rw [made, List.foldl_append, List.flatMap_append, List.flatMap_singleton]
      exact ih.perform op

theorem find_tables (kept : Kept s sources) (few : s.rules.size < Nat.pow 2 31) (input : List UInt8)
    (pos : Nat) : s.tables.1.find input pos = .ok (s.build.find input pos) := by
  have tables : s.tables.1 = .ofDfa s.build := congrArg Tables.ofDfa kept.compile_eq
  rw [tables]
  exact Tables.find_ofDfa (fun _ _ response => Nat.lt_trans (kept.response_lt response) few) _ _

/-- What the tables and the set find at a position. -/
theorem verdict_cases (kept : Kept s sources) (few : s.rules.size < Nat.pow 2 31) (input : List UInt8)
    (pos : Nat) :
    (∃ (token : Token) (rule : Rule), s.rules[token.index]? = some rule ∧ token.rule = rule.name ∧
      s.tables.1.find input pos = .ok (.accept token.index token.stop) ∧
      (s.find input pos).1 = .matched token) ∨
    (s.tables.1.find input pos = .ok .noMatch ∧ (s.find input pos).1 = .noMatch) ∨
    (s.tables.1.find input pos = .ok .endOfInput ∧ (s.find input pos).1 = .endOfInput) := by
  rw [kept.find_tables few, kept.holds.find_eq]
  by_cases before : pos < input.length
  · rcases s.build.find_cases before with ⟨stop, index, -, -, response, -, verdict⟩ | ⟨-, verdict⟩
    · have inside := kept.response_lt response
      refine .inl ⟨⟨s.rules[index].name, index, slice input pos stop, pos, stop⟩, s.rules[index],
        Array.getElem?_eq_getElem inside, rfl, by rw [verdict], ?_⟩
      rw [verdict, outcome, Array.getElem?_eq_getElem inside]
      rfl
    · rw [verdict]
      exact .inr (.inl ⟨rfl, rfl⟩)
  · rw [(Dfa.find_eq_endOfInput_iff s.build input pos).mpr (Nat.le_of_not_lt before)]
    exact .inr (.inr ⟨rfl, rfl⟩)

theorem find_tables_iff (kept : Kept s sources) (few : s.rules.size < Nat.pow 2 31)
    (input : List UInt8) (pos : Nat) :
    (∀ index stop, s.tables.1.find input pos = .ok (.accept index stop) ↔
      ∃ token : Token, (s.find input pos).1 = .matched token ∧ token.index = index ∧
        token.stop = stop) ∧
    (s.tables.1.find input pos = .ok .noMatch ↔ (s.find input pos).1 = .noMatch) ∧
    (s.tables.1.find input pos = .ok .endOfInput ↔ (s.find input pos).1 = .endOfInput) := by
  rcases kept.verdict_cases few input pos with ⟨token, rule, -, -, tables, found⟩ |
    ⟨tables, found⟩ | ⟨tables, found⟩
  · simp [tables, found]
  · simp [tables, found]
  · simp [tables, found]

theorem agrees (kept : Kept s sources) (few : s.rules.size < Nat.pow 2 31) (name : String) :
    (Lexer.modeTables name s).Agrees s where
  accept_iff input pos := (kept.find_tables_iff few input pos).1
  noMatch_iff input pos := (kept.find_tables_iff few input pos).2.1
  endOfInput_iff input pos := (kept.find_tables_iff few input pos).2.2
  named input pos token matched := by
    rcases kept.verdict_cases few input pos with ⟨other, rule, listed, named, -, found⟩ |
      ⟨-, found⟩ | ⟨-, found⟩
    · rw [found] at matched
      cases matched
      simp [Lexer.modeTables, rule?, listed, named]
    · rw [found] at matched
      cases matched
    · rw [found] at matched
      cases matched

end Kept

end RuleSet

namespace Lexer

/-- What can be done with a lexer; a new mode comes with a set that operations made. -/
inductive Operation where
  | addMode (name : String) (ops : List RuleSet.Operation)
  | setMode (name : String)
  | onMode (name : String) (op : RuleSet.Operation)
  | replaceMode (name : String) (ops : List RuleSet.Operation)
  | find (input : List UInt8) (pos : Nat)
  | compile
  | exportTables

def Operation.added : Operation → List String
  | .addMode name _ => [name]
  | _ => []

def perform (l : Lexer) : Operation → Lexer
  | .addMode name ops =>
      match l.addMode name (.made ops) with
      | .ok grown => grown
      | .error _ => l
  | .setMode name => l.switched name
  | .onMode name op =>
      match l.mode? name with
      | some rules => l.setRules name (rules.perform op).2
      | none => l
  | .replaceMode name ops => l.setRules name (.made ops)
  | .find input pos =>
      match l.find input pos with
      | .ok (_, kept) => kept
      | .error _ => l
  | .compile => l.compile
  | .exportTables =>
      match l.exportTables with
      | .ok (_, kept) => kept
      | .error _ => l

def performAll (l : Lexer) (ops : List Operation) : Lexer :=
  ops.foldl perform l

variable {l m : Lexer}

theorem addMode_present {name : String} (present : name ∈ l.names) (ops : List RuleSet.Operation) :
    l.perform (.addMode name ops) = l := by
  rw [perform, addMode, if_pos present]

theorem addMode_new {name : String} (new : name ∉ l.names) (ops : List RuleSet.Operation) :
    l.perform (.addMode name ops) =
      ⟨l.modes ++ [(name, .made ops)], if name = initial then some name else l.active⟩ := by
  rw [perform, addMode, if_neg new]

/-- What an operation can do to a lexer, with the names of the modes that it adds. -/
inductive Effect (l : Lexer) : List String → Lexer → Prop where
  | refused : Effect l [] l
  | grown (name : String) (ops : List RuleSet.Operation) (new : name ∉ l.names) :
      Effect l [name]
        ⟨l.modes ++ [(name, .made ops)], if name = initial then some name else l.active⟩
  | switched (name : String) : Effect l [] { l with active := some name }
  | replaced (name : String) (ops : List RuleSet.Operation) :
      Effect l [] (l.setRules name (.made ops))
  | changed (name : String) (rules : RuleSet) (op : RuleSet.Operation)
      (present : l.mode? name = some rules) : Effect l [] (l.setRules name (rules.perform op).2)
  | compiled : Effect l [] l.compile

theorem effect_perform (l : Lexer) (op : Operation) :
    Effect l (op.added.removeAll l.names) (l.perform op) := by
  cases op with
  | addMode name ops =>
      by_cases present : name ∈ l.names
      · rw [addMode_present present]
        simpa [Operation.added, List.removeAll, present] using Effect.refused
      · rw [addMode_new present]
        simpa [Operation.added, List.removeAll, present] using Effect.grown name ops present
  | setMode name =>
      rw [perform, switched, setMode]
      by_cases present : name ∈ l.names
      · rw [if_pos present]
        exact .switched name
      · rw [if_neg present]
        exact .refused
  | onMode name op =>
      rw [perform]
      cases present : l.mode? name with
      | none => exact .refused
      | some rules => exact .changed name rules op present
  | replaceMode name ops => exact .replaced name ops
  | find input pos =>
      rw [perform]
      rcases l.active_cases with inactive | ⟨name, rules, active, present⟩
      · rw [find_of_inactive inactive]
        exact .refused
      · rw [find_of_active active present]
        exact .changed name rules (.find input pos) present
  | compile => exact .compiled
  | exportTables =>
      rw [perform, exportTables]
      by_cases present : initial ∈ l.names
      · rw [if_pos present]
        exact .compiled
      · rw [if_neg present]
        exact .refused

theorem mode?_append (modes : List (String × RuleSet)) (active : Option String)
    (name key : String) (rules : RuleSet) :
    (⟨modes ++ [(name, rules)], active⟩ : Lexer).mode? key =
      (modes.lookup key).or (if key = name then some rules else none) := by
  rw [mode?, List.lookup_append, lookup_cons_if, List.lookup_nil]

theorem alike_perform_find (l : Lexer) (input : List UInt8) (pos : Nat) :
    Alike (l.perform (.find input pos)) l := by
  rw [perform]
  cases given : l.find input pos with
  | error e => exact .refl l
  | ok answer => exact alike_find given

theorem alike_perform_exportTables (l : Lexer) : Alike (l.perform .exportTables) l := by
  rw [perform, exportTables]
  split
  · rename_i kept given
    split at given
    · cases given
      exact alike_compile l
    · cases given
  · exact .refl l

namespace Alike

theorem addMode (alike : Alike l m) (name : String) (ops : List RuleSet.Operation) :
    Alike (l.perform (.addMode name ops)) (m.perform (.addMode name ops)) := by
  by_cases present : name ∈ l.names
  · rw [addMode_present present, addMode_present (alike.names_eq ▸ present)]
    exact alike
  · rw [addMode_new present, addMode_new (alike.names_eq ▸ present)]
    refine ⟨by rw [alike.active_eq], by simpa [names] using alike.names_eq, fun key => ?_⟩
    have modes : Option.Rel RuleSet.Alike (l.modes.lookup key) (m.modes.lookup key) :=
      alike.modes key
    rw [mode?_append, mode?_append]
    generalize l.modes.lookup key = a, m.modes.lookup key = b at modes
    cases modes with
    | some sets => exact .some sets
    | none =>
        split
        · exact .some (.refl _)
        · exact .none

theorem perform (alike : Alike l m) (op : Operation) : Alike (l.perform op) (m.perform op) := by
  cases op with
  | addMode name ops => exact alike.addMode name ops
  | setMode name => exact alike.switched name
  | onMode name op =>
      rw [Lexer.perform, Lexer.perform]
      cases present : l.mode? name with
      | none =>
          rw [alike.mode?_none present]
          exact alike
      | some rules =>
          obtain ⟨other, same, sets⟩ := alike.mode?_some present
          rw [same]
          exact alike.setRules (sets.perform op).2 name
  | replaceMode name ops => exact alike.setRules (.refl _) name
  | find input pos =>
      exact (alike_perform_find l input pos).trans (alike.trans (alike_perform_find m input pos).symm)
  | compile => exact (alike_compile l).trans (alike.trans (alike_compile m).symm)
  | exportTables =>
      exact (alike_perform_exportTables l).trans
        (alike.trans (alike_perform_exportTables m).symm)

theorem performAll (alike : Alike l m) (ops : List Operation) :
    Alike (l.performAll ops) (m.performAll ops) := by
  induction ops generalizing l m with
  | nil => exact alike
  | cons op rest ih => exact ih (alike.perform op)

end Alike

/-- The modes have different names, and the set of each is one that its rules make. -/
structure Made (l : Lexer) : Prop where
  nodup : l.names.Nodup
  kept : ∀ mode ∈ l.modes, ∃ sources, RuleSet.Kept mode.2 sources

namespace Made

theorem empty : Made empty where
  nodup := List.nodup_nil
  kept _ mem := nomatch mem

theorem mode?_eq (made : Made l) {mode : String × RuleSet} (mem : mode ∈ l.modes) :
    l.mode? mode.1 = some mode.2 := by
  have nodup := made.nodup
  rw [names] at nodup
  rw [mode?]
  generalize l.modes = modes at mem nodup
  induction modes with
  | nil => cases mem
  | cons first rest ih =>
      rw [List.map_cons, List.nodup_cons] at nodup
      rw [lookup_cons_if]
      cases mem with
      | head => exact if_pos rfl
      | tail _ later =>
          have apart : mode.1 ≠ first.1 := by
            intro same
            exact nodup.1 (List.mem_map.mpr ⟨mode, later, same⟩)
          rw [if_neg apart]
          exact ih later nodup.2

theorem mem_of_mode? {name : String} {rules : RuleSet} (present : l.mode? name = some rules) :
    (name, rules) ∈ l.modes := by
  rw [mode?] at present
  obtain ⟨before, behind, same, -⟩ := List.lookup_eq_some_iff.mp present
  rw [same]
  simp

theorem setRules (made : Made l) (name : String) {rules : RuleSet} {sources : List RuleSet.Source}
    (kept : RuleSet.Kept rules sources) : Made (l.setRules name rules) where
  nodup := by
    rw [names_setRules]
    exact made.nodup
  kept mode mem := by
    obtain ⟨old, present, same⟩ := List.mem_map.mp mem
    split at same
    · subst same
      exact ⟨sources, kept⟩
    · subst same
      exact made.kept old present

theorem compile (made : Made l) : Made l.compile where
  nodup := by
    rw [names_compile]
    exact made.nodup
  kept mode mem := by
    obtain ⟨old, present, same⟩ := List.mem_map.mp mem
    subst same
    obtain ⟨sources, kept⟩ := made.kept old present
    exact ⟨sources, (RuleSet.alike_compile old.2).trans kept⟩

theorem effect {fresh : List String} (made : Made l) (effect : Effect l fresh m) : Made m := by
  cases effect with
  | refused => exact made
  | grown name ops new =>
      refine ⟨?_, fun mode mem => ?_⟩
      · rw [names, List.map_append, List.map_singleton, ← List.concat_eq_append]
        exact made.nodup.concat new
      · rcases List.mem_append.mp mem with old | last
        · exact made.kept mode old
        · rw [List.mem_singleton.mp last]
          exact ⟨_, .of_made ops⟩
  | switched name => exact ⟨made.nodup, made.kept⟩
  | replaced name ops => exact made.setRules name (.of_made ops)
  | changed name rules op present =>
      obtain ⟨sources, kept⟩ := made.kept _ (mem_of_mode? present)
      exact made.setRules name (kept.perform op)
  | compiled => exact made.compile

theorem performAll (made : Made l) (ops : List Operation) : Made (l.performAll ops) :=
  List.foldlRecOn ops _ made fun l made op _ => made.effect (l.effect_perform op)

end Made

theorem Effect.names_eq {fresh : List String} (effect : Effect l fresh m) :
    m.names = l.names ++ fresh := by
  cases effect with
  | grown name ops new => rw [names, List.map_append]; rfl
  | compiled => rw [names_compile, List.append_nil]
  | replaced name ops => rw [names_setRules, List.append_nil]
  | changed name rules op present => rw [names_setRules, List.append_nil]
  | refused => rw [List.append_nil]
  | switched name => exact (List.append_nil _).symm

/-- The modes of a lexer are those that were added, each at its first time. -/
theorem names_performAll (ops : List Operation) :
    (empty.performAll ops).names = (ops.flatMap Operation.added).eraseDups := by
  induction ops using List.reverseRecOn with
  | nil => rfl
  | append_singleton ops op ih =>
      rw [performAll, List.foldl_append, List.flatMap_append, List.flatMap_singleton,
        List.eraseDups_append]
      refine (effect_perform _ op).names_eq.trans ?_
      rw [← performAll, ih]
      refine congrArg _ ?_
      generalize ops.flatMap Operation.added = before
      cases op with
      | addMode name _ =>
          rw [Operation.added]
          by_cases had : name ∈ before
          · simp [List.removeAll, had]
          · simp [List.removeAll, had, List.eraseDups_cons]
      | _ => rfl

/-- What the export of a lexer is, whatever the lexer was made of, if it has the mode `INITIAL` and no
mode has more rules than words can number: an entry for every mode, in the order in which they were
added, whose tables agree with the set of rules of the mode; and a lexer that finds the same after
all later operations as it would have without the export. -/
theorem exportTables_spec (ops : List Operation)
    (ready : initial ∈ (empty.performAll ops).names)
    (few : ∀ name rules, (empty.performAll ops).mode? name = some rules →
      rules.rules.size < Nat.pow 2 31) :
    ∃ entries exported, (empty.performAll ops).exportTables = .ok (entries, exported) ∧
      entries.map ModeTables.mode = (ops.flatMap Operation.added).eraseDups ∧
      (∀ entry ∈ entries, ∃ rules, (empty.performAll ops).mode? entry.mode = some rules ∧
        entry.Agrees rules) ∧
      ∀ later input pos,
        (exported.performAll later).found input pos =
          ((empty.performAll ops).performAll later).found input pos ∧
        ∀ name, ((exported.performAll later).mode? name).map (fun s => (s.find input pos).1) =
          (((empty.performAll ops).performAll later).mode? name).map
            fun s => (s.find input pos).1 := by
  have order := names_performAll ops
  have made := Made.empty.performAll ops
  generalize empty.performAll ops = l at ready few order made
  refine ⟨_, _, if_pos ready, ?_, fun entry mem => ?_, fun later input pos => ?_⟩
  · rw [List.map_map, ← order]
    rfl
  · obtain ⟨mode, present, same⟩ := List.mem_map.mp mem
    subst same
    have found := made.mode?_eq present
    obtain ⟨sources, kept⟩ := made.kept mode present
    exact ⟨mode.2, found, kept.agrees (few _ _ found) mode.1⟩
  · have alike := (alike_compile l).performAll later
    refine ⟨alike.found_eq input pos, fun name => ?_⟩
    have modes := alike.modes name
    generalize (l.compile.performAll later).mode? name = a,
      (l.performAll later).mode? name = b at modes
    cases modes with
    | none => rfl
    | some sets => exact congrArg some (sets.find_eq input pos)

theorem exportTables_two_modes :
    ∃ entries exported,
      (empty.performAll [.addMode "INITIAL" [.register ⟨"a", .literal [97], none⟩],
        .addMode "OTHER" []]).exportTables = .ok (entries, exported) ∧
      entries.map ModeTables.mode = ["INITIAL", "OTHER"] := by
  have modes : empty.performAll [.addMode "INITIAL" [.register ⟨"a", .literal [97], none⟩],
      .addMode "OTHER" []] =
      ⟨[("INITIAL", .made [.register ⟨"a", .literal [97], none⟩]), ("OTHER", .made [])],
        some "INITIAL"⟩ := by
    rfl
  obtain ⟨entries, exported, given, order, -⟩ :=
    exportTables_spec [.addMode "INITIAL" [.register ⟨"a", .literal [97], none⟩],
      .addMode "OTHER" []] (by simp [modes, names, initial]) (fun name rules found => by
        rw [modes] at found
        rcases List.mem_pair.mp (Made.mem_of_mode? found) with first | second
        · cases first
          decide
        · cases second
          decide)
  exact ⟨entries, exported, given, order⟩

end Lexer

end Munch
