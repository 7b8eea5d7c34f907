import Munch.Proofs.RuleFile.Sections
import Munch.Proofs.Tables.Decoding

/-!
The exported tables of rule files, as text.

What a rule file declares is on one line each, and names hold no arrow (`Declares.oneLine`).  So the
tables that the lexer of a file exports are legible (`legible_of_compile`), and two files whose lexers
export the same text for a mode export the same tables for it (`exportTables_text_injective`).
-/

set_option autoImplicit false

namespace Munch.RuleFile

open RuleSet (Source)

section Compile

variable {u : Universe} {text : String} {l exported : Lexer} {tables : List ModeTables} {m : ModeTables}

theorem legible_modeTables {mode : String × List Source} (modeLine : '\n' ∉ mode.1.toList)
    (sources : ∀ source ∈ mode.2, (Entry.rule source).OneLine) :
    (Lexer.modeTables mode.1 (.ofList mode.2)).Legible := by
  have declared {rule : Rule} (mem : rule ∈ (RuleSet.ofList mode.2).rules.toList) :
      (Entry.rule rule.source).OneLine := by
    apply sources
    rw [← RuleSet.sources_ofList mode.2]
    exact List.mem_map_of_mem mem
  constructor
  case paired => simp only [Lexer.modeTables, List.length_map]
  case modeLine => exact modeLine
  case nameLine =>
    rintro name mem
    obtain ⟨rule, listed, rfl⟩ := List.mem_map.mp mem
    exact (declared listed).1
  case arrowless =>
    rintro name mem
    obtain ⟨rule, listed, rfl⟩ := List.mem_map.mp mem
    exact (declared listed).2.1
  case actionLine =>
    rintro action mem
    obtain ⟨rule, listed, given⟩ := List.mem_map.mp mem
    exact (declared listed).2.2 action given

/-- The tables that a rule file gives are legible. -/
theorem legible_of_compile (compiled : compile u text = .ok l)
    (success : l.exportTables = .ok (tables, exported)) (mem : m ∈ tables) : m.Legible := by
  obtain ⟨entries, reads, -, rfl⟩ := compile_eq_ok_iff.mp compiled
  have declared := reads.entries_oneLine
  rw [Lexer.exportTables] at success
  split at success
  · cases success
    rw [List.map_map, List.mem_map] at mem
    obtain ⟨mode, own, rfl⟩ := mem
    obtain ⟨header, rules⟩ := mem_sections own
    refine legible_modeTables ?_ fun source mem => declared _ (rules source mem)
    rcases header with initial | header
    · rw [initial]
      decide
    · exact declared _ header
  · cases success

/-- The tables that rule files give for their modes are known from their printed form, whatever the files
and their alphabets are: the name of the mode, the names and the actions of its rules, and the tables. -/
theorem exportTables_text_injective {u' : Universe} {text' : String} {l' exported' : Lexer}
    {tables' : List ModeTables} {m' : ModeTables} (compiled : compile u text = .ok l)
    (compiled' : compile u' text' = .ok l') (success : l.exportTables = .ok (tables, exported))
    (success' : l'.exportTables = .ok (tables', exported')) (mem : m ∈ tables) (mem' : m' ∈ tables')
    (same : m.text = m'.text) : m = m' :=
  (legible_of_compile compiled success mem).text_injective (legible_of_compile compiled' success' mem')
    same

theorem exportTables_text_injective_layout :
    ∃ l l' tables tables' exported exported',
      compile .ascii "a=>b=>go" = .ok l ∧
      compile .bytes ">INITIAL\n a =>b=> go \n>B\nc=>d" = .ok l' ∧
      l.exportTables = .ok (tables, exported) ∧ l'.exportTables = .ok (tables', exported') ∧
      ∃ m ∈ tables, ∃ m' ∈ tables', m.text = m'.text ∧ m = m' := by
  obtain ⟨rules, compiled, others, compiled'⟩ :
      ∃ rules, compile .ascii "a=>b=>go" = .ok ⟨[(Lexer.initial, rules)], some Lexer.initial⟩ ∧
        ∃ others, compile .bytes ">INITIAL\n a =>b=> go \n>B\nc=>d" =
          .ok ⟨[(Lexer.initial, rules), ("B", others)], some Lexer.initial⟩ :=
    ⟨.ofList [⟨"a", .literal [98], some "go"⟩], by with_unfolding_all rfl,
      .ofList [⟨"c", .literal [100], none⟩], by with_unfolding_all rfl⟩
  have success (rest : List (String × RuleSet)) :
      Lexer.exportTables ⟨(Lexer.initial, rules) :: rest, some Lexer.initial⟩ = _ :=
    if_pos List.mem_cons_self
  refine ⟨_, _, _, _, _, _, compiled, compiled', success _, success _, _, List.mem_cons_self, _,
    List.mem_cons_self, rfl, ?_⟩
  exact exportTables_text_injective compiled compiled' (success _) (success _) List.mem_cons_self
    List.mem_cons_self rfl

end Compile

end Munch.RuleFile
