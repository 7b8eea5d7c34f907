import Munch.Proofs.RuleFile.Reading

/-!
The sections of a rule file and the modes of its lexer.

What the lines declare falls into sections: the first one belongs to the mode `INITIAL`, and every header
begins another, except for a header `INITIAL` before everything else (`sections`).  A text compiles
exactly if each of its lines is silent or declares something and no two sections have a name, and then
its sections are the modes (`compile_eq_ok_iff`).
-/

set_option autoImplicit false

namespace Munch.RuleFile

open RuleSet (Source)

def leading : List Entry → List Source
  | [] => []
  | .header _ :: _ => []
  | .rule source :: rest => source :: leading rest

def headed : List Entry → List (String × List Source)
  | [] => []
  | .header name :: rest => (name, leading rest) :: headed rest
  | .rule _ :: rest => headed rest

def titles : List Entry → List String
  | [] => []
  | .header name :: rest => name :: titles rest
  | .rule _ :: rest => titles rest

/-- What follows a header `INITIAL` that stands before everything else. -/
def dropInitial : List Entry → List Entry
  | [] => []
  | .header name :: rest => if name = Lexer.initial then rest else .header name :: rest
  | .rule source :: rest => .rule source :: rest

/-- The modes that are declared, with their rules. -/
def sections (entries : List Entry) : List (String × List Source) :=
  (Lexer.initial, leading (dropInitial entries)) :: headed (dropInitial entries)

def modeOf (m : String × List Source) : String × RuleSet :=
  (m.1, .ofList m.2)

section Entries

variable {u : Universe} {entries : List Entry}

theorem names_headed (entries : List Entry) : (headed entries).map Prod.fst = titles entries := by
  induction entries with
  | nil => rfl
  | cons entry rest ih =>
      cases entry with
      | header name => exact congrArg (name :: ·) ih
      | rule source => exact ih

theorem names_sections (entries : List Entry) :
    (sections entries).map Prod.fst = Lexer.initial :: titles (dropInitial entries) := by
  rw [sections, List.map_cons, names_headed]

theorem titles_dropInitial (once : Lexer.initial ∉ titles (dropInitial entries)) :
    titles (dropInitial entries) = (titles entries).filter (· ≠ Lexer.initial) := by
  have others {names : List String} (without : Lexer.initial ∉ names) :
      names.filter (· ≠ Lexer.initial) = names :=
    List.filter_eq_self.mpr fun name mem => decide_eq_true fun same => without (same ▸ mem)
  cases entries with
  | nil => rfl
  | cons entry rest =>
      cases entry with
      | rule source => exact (others once).symm
      | header name =>
          rw [dropInitial] at once ⊢
          by_cases first : name = Lexer.initial
          · rw [if_pos first] at once ⊢
            rw [titles, List.filter_cons_of_neg (by simp [first]), others once]
          · rw [if_neg first] at once ⊢
            exact (others once).symm

theorem Reads.titles_ne_empty {lines : List (List Char)} (reads : Reads u lines entries) :
    ∀ name ∈ titles entries, name ≠ "" := by
  induction reads with
  | nil => nofun
  | silent _ _ ih => exact ih
  | entry declares _ ih =>
      cases declares with
      | rule => exact ih
      | header named =>
          refine List.forall_mem_cons.mpr ⟨fun empty => named ?_, ih⟩
          rw [← String.toList_ofList (l := Text.trim _), empty]
          rfl

theorem mem_titles_iff {name : String} : name ∈ titles entries ↔ .header name ∈ entries := by
  induction entries with
  | nil => simp [titles]
  | cons entry rest ih => cases entry <;> simp [titles, ih]

theorem dropInitial_subset (entries : List Entry) : dropInitial entries ⊆ entries := by
  cases entries with
  | nil => exact List.Subset.refl _
  | cons entry rest =>
      cases entry with
      | rule source => exact List.Subset.refl _
      | header name =>
          rw [dropInitial]
          split
          · exact List.subset_cons_self _ rest
          · exact List.Subset.refl _

theorem titles_dropInitial_subset (entries : List Entry) :
    titles (dropInitial entries) ⊆ titles entries :=
  fun _ mem => mem_titles_iff.mpr (dropInitial_subset entries (mem_titles_iff.mp mem))

theorem titles_subset_dropInitial (entries : List Entry) :
    titles entries ⊆ Lexer.initial :: titles (dropInitial entries) := by
  cases entries with
  | nil => exact List.nil_subset _
  | cons entry rest =>
      cases entry with
      | rule source => exact List.subset_cons_self _ _
      | header name =>
          rw [dropInitial]
          split
          · rename_i first
            rw [titles, first]
            exact List.Subset.refl _
          · exact List.subset_cons_self _ _

theorem mem_leading {source : Source} (mem : source ∈ leading entries) : .rule source ∈ entries := by
  induction entries with
  | nil => cases mem
  | cons entry rest ih =>
      cases entry with
      | header name => cases mem
      | rule first =>
          rcases List.mem_cons.mp mem with rfl | later
          · exact List.mem_cons_self
          · exact List.mem_cons_of_mem _ (ih later)

theorem mem_of_mem_headed {mode : String × List Source} (mem : mode ∈ headed entries) {source : Source}
    (own : source ∈ mode.2) : .rule source ∈ entries := by
  induction entries with
  | nil => cases mem
  | cons entry rest ih =>
      cases entry with
      | rule first => exact List.mem_cons_of_mem _ (ih mem)
      | header name =>
          rcases List.mem_cons.mp mem with rfl | later
          · exact List.mem_cons_of_mem _ (mem_leading own)
          · exact List.mem_cons_of_mem _ (ih later)

theorem mem_sections {mode : String × List Source} (mem : mode ∈ sections entries) :
    (mode.1 = Lexer.initial ∨ .header mode.1 ∈ entries) ∧
      ∀ source ∈ mode.2, .rule source ∈ entries := by
  have among := dropInitial_subset entries
  constructor
  · have named := List.mem_map_of_mem (f := Prod.fst) mem
    rw [names_sections, List.mem_cons, mem_titles_iff] at named
    exact named.imp_right fun header => among header
  · intro source own
    rcases List.mem_cons.mp mem with rfl | later
    · exact among (mem_leading own)
    · exact among (mem_of_mem_headed later own)

/-- The section of `INITIAL` holds declared rules, and they are those of the mode. -/
theorem initial_section (entries : List Entry) :
    ∃ sources, (sections entries).lookup Lexer.initial = some sources ∧
      Lexer.mode? ⟨(sections entries).map modeOf, some Lexer.initial⟩ Lexer.initial =
        some (.ofList sources) ∧
      ∀ source ∈ sources, .rule source ∈ entries :=
  ⟨leading (dropInitial entries), List.lookup_cons_self, List.lookup_cons_self,
    fun _ mem => dropInitial_subset entries (mem_leading mem)⟩

end Entries

namespace Draft

variable {d e : Draft} {entries : List Entry}

theorem reopensInitial_registered (d : Draft) (source : Source) (name : String) :
    reopensInitial { d with rules := d.rules.registerSource source } name = false := by
  have grown : (d.rules.registerSource source).rules.isEmpty = false := by
    rw [Bool.eq_false_iff, ne_eq, Array.isEmpty_iff]
    exact Array.push_ne_empty
  simp [reopensInitial, grown]

theorem reopensInitial_headed (earlier : List (String × RuleSet)) (last : String) (rules : RuleSet)
    (k : Nat) (name : String) : reopensInitial ⟨earlier, last, rules, k + 1⟩ name = false := by
  simp [reopensInitial]

/-- The modes of a draft that takes what is declared: the last one goes on with the rules before the
first header, and every header opens another. -/
theorem modes_of_addEntries {sources : List Source} (rules : d.rules = .ofList sources)
    (opens : ∀ name rest, entries = .header name :: rest → d.reopensInitial name = false)
    (added : entries.foldlM addEntry d = .ok e) :
    e.modes = d.earlier ++ (d.name, .ofList (sources ++ leading entries)) ::
      (headed entries).map modeOf := by
  induction entries generalizing d sources with
  | nil =>
      cases added
      rw [modes, rules, leading, List.append_nil]
      rfl
  | cons entry rest ih =>
      rw [List.foldlM_cons] at added
      cases entry with
      | rule source =>
          have grown : d.rules.registerSource source = .ofList (sources ++ [source]) := by
            rw [rules, RuleSet.ofList_concat]
          have begun := reopensInitial_registered d source
          rw [ih grown (fun name _ _ => begun name) added, leading, headed, List.append_assoc,
            List.singleton_append]
      | header name =>
          cases taken : d.addEntry (.header name) with
          | error cause =>
              rw [taken] at added
              cases added
          | ok next =>
              rw [taken] at added
              rw [addEntry] at taken
              obtain ⟨-, ⟨reopens, -⟩ | ⟨-, -, rfl⟩⟩ := addHeader_cases taken
              · rw [String.ofList_toList, opens name rest rfl] at reopens
                cases reopens
              · -- the last mode is complete, and one without rules comes after it
                have fresh : RuleSet.empty = .ofList [] := rfl
                have begun := reopensInitial_headed d.modes (.ofList name.toList) .empty d.headers
                rw [ih fresh (fun name _ _ => begun name) added, modes, rules, String.ofList_toList,
                  leading, headed, List.append_nil, List.append_assoc]
                rfl

theorem exists_addEntries (named : ∀ name ∈ titles entries, name ≠ "")
    (opens : ∀ name rest, entries = .header name :: rest → d.reopensInitial name = false)
    (distinct : (d.modes.map Prod.fst ++ titles entries).Nodup) :
    ∃ e, entries.foldlM addEntry d = .ok e := by
  induction entries generalizing d with
  | nil => exact ⟨d, rfl⟩
  | cons entry rest ih =>
      cases entry with
      | rule source =>
          have begun := reopensInitial_registered d source
          refine ih named (fun name _ _ => begun name) ?_
          rw [modes, List.map_append] at distinct ⊢
          exact distinct
      | header name =>
          obtain ⟨own, later⟩ := List.forall_mem_cons.mp named
          rw [titles, List.append_cons] at distinct
          have fresh : name ∉ d.modes.map Prod.fst := by
            intro mem
            have front := (List.nodup_append.mp distinct).1
            exact (List.nodup_append.mp front).2.2 name mem name List.mem_cons_self rfl
          have taken : d.addEntry (.header name) = .ok ⟨d.modes, name, .empty, d.headers + 1⟩ := by
            rw [addEntry, addHeader, String.ofList_toList]
            simp [own, opens name rest rfl, fresh]
          have begun := reopensInitial_headed d.modes name .empty d.headers
          rw [List.foldlM_cons, taken]
          refine ih later (fun name _ _ => begun name) ?_
          rw [modes, List.map_append]
          exact distinct

theorem exists_opening (entries : List Entry) :
    ∃ d : Draft, d.earlier = [] ∧ d.name = Lexer.initial ∧ d.rules = .empty ∧
      (∀ name rest, dropInitial entries = .header name :: rest → d.reopensInitial name = false) ∧
      entries.foldlM addEntry .new = (dropInitial entries).foldlM addEntry d := by
  cases entries with
  | nil => exact ⟨.new, rfl, rfl, rfl, nofun, rfl⟩
  | cons entry rest =>
      cases entry with
      | rule source => exact ⟨.new, rfl, rfl, rfl, nofun, rfl⟩
      | header name =>
          rw [dropInitial]
          by_cases first : name = Lexer.initial
          · subst first
            refine ⟨{ Draft.new with headers := 1 }, rfl, rfl, rfl, fun name _ _ => ?_, ?_⟩
            · exact reopensInitial_headed _ _ _ 0 name
            · rw [if_pos rfl]
              rfl
          · refine ⟨.new, rfl, rfl, rfl, fun other _ same => ?_, ?_⟩
            · rw [if_neg first] at same
              cases same
              simp [reopensInitial, first]
            · rw [if_neg first]

theorem modes_of_addEntries_new (added : entries.foldlM addEntry .new = .ok e) :
    e.modes = (sections entries).map modeOf := by
  obtain ⟨d, earlier, name, rules, opens, same⟩ := exists_opening entries
  have fresh : d.rules = .ofList [] := rules
  rw [same] at added
  rw [modes_of_addEntries fresh opens added, earlier, name]
  rfl

theorem exists_addEntries_new (named : ∀ name ∈ titles entries, name ≠ "")
    (distinct : ((sections entries).map Prod.fst).Nodup) :
    ∃ e, entries.foldlM addEntry .new = .ok e := by
  obtain ⟨d, earlier, name, -, opens, same⟩ := exists_opening entries
  rw [same]
  refine exists_addEntries (fun name mem => named name ?_) opens ?_
  · exact titles_dropInitial_subset entries mem
  · rw [modes, earlier, name]
    rwa [names_sections] at distinct

end Draft

section Compile

variable {u : Universe} {text : String} {l : Lexer}

/-- A text compiles exactly if each of its lines is silent or declares something and no two sections
have a name; its lexer has the sections as modes. -/
theorem compile_eq_ok_iff :
    compile u text = .ok l ↔
      ∃ entries, Reads u ((Text.lines text.toList).map Text.chopReturn) entries ∧
        ((sections entries).map Prod.fst).Nodup ∧
        l = ⟨(sections entries).map modeOf, some Lexer.initial⟩ := by
  constructor
  · intro compiled
    obtain ⟨d, drawn, rfl⟩ := exists_draft compiled
    have distinct := (drafted_of_draft drawn).distinct
    obtain ⟨entries, reads, added⟩ := Draft.addLines_eq_iff.mp drawn
    have modes := Draft.modes_of_addEntries_new added
    refine ⟨entries, reads, ?_, by rw [modes]⟩
    rwa [modes, List.map_map] at distinct
  · rintro ⟨entries, reads, distinct, rfl⟩
    obtain ⟨d, added⟩ := Draft.exists_addEntries_new reads.titles_ne_empty distinct
    have drawn : draft u text = (d, none) := Draft.addLines_eq_iff.mpr ⟨entries, reads, added⟩
    rw [compile_of_draft drawn, Draft.modes_of_addEntries_new added]

/-- A lexer is what is declared. -/
structure Embodies (l : Lexer) (entries : List Entry) : Prop where
  modes_eq : l.modes = (sections entries).map modeOf
  sources_eq : (l.modes.map fun m => (m.1, m.2.rules.toList.map Rule.source)) = sections entries
  index_eq : ∀ mode ∈ l.modes, ∀ {i : Nat} {rule : Rule},
    mode.2.rules[i]? = some rule → rule.index = i
  names_eq : l.names = Lexer.initial :: (titles entries).filter (· ≠ Lexer.initial)
  names_nodup : l.names.Nodup
  active_eq : l.active = some Lexer.initial

theorem embodies {entries : List Entry} (distinct : ((sections entries).map Prod.fst).Nodup) :
    Embodies ⟨(sections entries).map modeOf, some Lexer.initial⟩ entries where
  modes_eq := rfl
  sources_eq := by
    rw [List.map_map]
    refine List.map_id'' (fun m => ?_) _
    exact congrArg (Prod.mk m.1) (RuleSet.sources_ofList m.2)
  index_eq := by
    intro mode mem i rule found
    obtain ⟨m, -, rfl⟩ := List.mem_map.mp mem
    exact (RuleSet.Numbered.ofList m.2).index_eq found
  names_eq := by
    rw [names_sections] at distinct
    rw [Lexer.names, List.map_map, ← titles_dropInitial (List.nodup_cons.mp distinct).1,
      ← names_sections]
    rfl
  names_nodup := by
    rw [Lexer.names, List.map_map]
    exact distinct
  active_eq := rfl

/-- A lexer that is compiled is what the lines declare, and its searches and exports succeed, whatever
was asked of it before. -/
theorem compile_embodies (compiled : compile u text = .ok l) :
    (∃ entries, Reads u ((Text.lines text.toList).map Text.chopReturn) entries ∧
      Embodies l entries) ∧
    ∀ requests e, (∀ input pos, (l.serveAll requests).find input pos ≠ .error e) ∧
      (l.serveAll requests).exportTables ≠ .error e := by
  obtain ⟨entries, reads, distinct, rfl⟩ := compile_eq_ok_iff.mp compiled
  have lexer := embodies distinct
  refine ⟨⟨entries, reads, lexer⟩, ?_⟩
  have present : Lexer.initial ∈ Lexer.names ⟨(sections entries).map modeOf, some Lexer.initial⟩ := by
    rw [lexer.names_eq]
    exact List.mem_cons_self
  have tracked : Lexer.Tracked ⟨(sections entries).map modeOf, some Lexer.initial⟩ [] := by
    refine ⟨fun name active => ?_, nofun, fun missing => absurd present missing.1⟩
    cases active
    exact present
  exact tracked.serveAll_ne_error present

theorem compile_embodies_arrows :
    ∃ l, compile .bytes "# a\n>INITIAL\r\nto=>\"=>\"=> go \n\n> B\nx=>[=>]+" = .ok l ∧
      l.names = ["INITIAL", "B"] ∧
      (∃ entries, Reads .bytes ((Text.lines
        "# a\n>INITIAL\r\nto=>\"=>\"=> go \n\n> B\nx=>[=>]+".toList).map Text.chopReturn) entries ∧
        Embodies l entries) ∧
      ∀ input pos e, (l.serve (.perform (.setMode "B"))).find input pos ≠ .error e := by
  have names : (compile .bytes
      "# a\n>INITIAL\r\nto=>\"=>\"=> go \n\n> B\nx=>[=>]+").toOption.map Lexer.names =
        some ["INITIAL", "B"] := by
    decide +kernel
  cases compiled : compile .bytes "# a\n>INITIAL\r\nto=>\"=>\"=> go \n\n> B\nx=>[=>]+" with
  | error e =>
      rw [compiled] at names
      cases names
  | ok l =>
      rw [compiled] at names
      obtain ⟨exactly, served⟩ := compile_embodies compiled
      refine ⟨l, rfl, Option.some.inj names, exactly, fun input pos e => ?_⟩
      exact (served [.perform (.setMode "B")] e).1 input pos

end Compile

end Munch.RuleFile
