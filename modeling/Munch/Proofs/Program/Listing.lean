import Munch.Program.Answer
import Munch.Proofs.Lexer.Scan
import Munch.Proofs.RuleFile.Sections
import Munch.Proofs.Text.Delimited
import Munch.Proofs.Text.Escaping

/-!
The listing of a scan, and what can be read back from it.

A token is listed on a line of its own: its rule, a tab and its escaped bytes.  `readListing?` cuts a
listing into its lines, each line at its last tab, and undoes the escaping behind it.  The names of
rules hold no line feed, and escaped bytes neither a line feed nor a tab, so what is read are the rules
and the bytes of the tokens, even if tabs stand in the names (`readListing?_tokens`).  A scan lists the
tokens that the rules declared for `INITIAL` make of the input, up to its end or to where none of them
matches, and says which of the two (`scan_lossless`).
-/

set_option autoImplicit false

namespace Munch.Program

open RuleFile (Reads sections)
open TokenStream (Tokenizes)

def splitLastTab? : List Char → Option (List Char × List Char)
  | [] => none
  | c :: rest =>
      match splitLastTab? rest with
      | some (before, behind) => some (c :: before, behind)
      | none => if c = '\t' then some ([], rest) else none

theorem splitLastTab?_of_not_mem {s : List Char} (noTab : '\t' ∉ s) : splitLastTab? s = none := by
  induction s with
  | nil => rfl
  | cons c rest ih =>
      rw [List.mem_cons, not_or] at noTab
      rw [splitLastTab?, ih noTab.2]
      exact if_neg (Ne.symm noTab.1)

theorem splitLastTab?_append {behind : List Char} (noTab : '\t' ∉ behind) (before : List Char) :
    splitLastTab? (before ++ '\t' :: behind) = some (before, behind) := by
  induction before with
  | nil => simp [splitLastTab?, splitLastTab?_of_not_mem noTab]
  | cons c rest ih => rw [List.cons_append, splitLastTab?, ih]

def readLine? (line : List Char) : Option (List Char × List UInt8) :=
  match splitLastTab? line with
  | none => none
  | some (name, shown) => (Text.unescapeBytes? shown).map fun bytes => (name, bytes)

/-- The names and bytes of which the lines of a text tell.  Nothing stands behind the last line
feed. -/
def readListing? (text : List Char) : Option (List (List Char × List UInt8)) :=
  match (text.splitOn '\n').getLast? with
  | some [] => (text.splitOn '\n').dropLast.mapM readLine?
  | _ => none

def tokenChars (token : Token) : List Char :=
  token.rule.toList ++ '\t' :: Text.escapeBytes token.bytes

theorem toList_tokenLine (token : Token) : (tokenLine token).toList = tokenChars token ++ ['\n'] := by
  simp [tokenLine, tokenChars]

theorem readLine?_tokenChars (token : Token) :
    readLine? (tokenChars token) = some (token.rule.toList, token.bytes) := by
  have noTab : '\t' ∉ Text.escapeBytes token.bytes := by
    intro mem
    exact absurd (Text.escapeBytes_isPrint mem) (by decide)
  rw [readLine?, tokenChars, splitLastTab?_append noTab]
  simp only [Text.unescapeBytes?_escapeBytes, Option.map_some]

theorem feed_not_mem_tokenChars {token : Token} (oneLine : '\n' ∉ token.rule.toList) :
    '\n' ∉ tokenChars token := by
  rw [tokenChars, List.mem_append, List.mem_cons]
  intro mem
  rcases mem with name | tab | shown
  · exact oneLine name
  · cases tab
  · exact absurd (Text.escapeBytes_isPrint shown) (by decide)

/-- The rules and the bytes of tokens are read back from their lines. -/
theorem readListing?_tokens {tokens : List Token}
    (oneLine : ∀ token ∈ tokens, '\n' ∉ token.rule.toList) :
    readListing? (String.join (tokens.map tokenLine)).toList =
      some (tokens.map fun token => (token.rule.toList, token.bytes)) := by
  have written : (String.join (tokens.map tokenLine)).toList =
      (tokens.map tokenChars).flatMap (· ++ ['\n']) := by
    simp only [String.toList_join, List.flatMap_map, toList_tokenLine]
  have plain : ∀ line ∈ tokens.map tokenChars, '\n' ∉ line := by
    intro line mem
    obtain ⟨token, listed, rfl⟩ := List.mem_map.mp mem
    exact feed_not_mem_tokenChars (oneLine token listed)
  rw [written, readListing?, Text.splitOn_ended plain, List.getLast?_concat, List.dropLast_concat]
  simp only [List.mapM_map, Function.comp_def, readLine?_tokenChars]
  exact List.mapM_pure

theorem printItems_tokens (path output : String) (tokens : List Token)
    (items : List TokenStream.Item) :
    printItems path output (tokens.map .token ++ items) =
      printItems path (output ++ String.join (tokens.map tokenLine)) items := by
  induction tokens generalizing output with
  | nil => simp
  | cons token rest ih =>
      simp only [List.map_cons, List.cons_append, printItems, ih, String.join_cons,
        String.append_assoc]

theorem printItems_end (path output : String) : printItems path output [] = .success output :=
  rfl

theorem printItems_unmatched (path output : String) (byte : UInt8) (pos : Nat) :
    printItems path output [.failure (.unexpectedByte byte pos)] =
      ⟨1, output, path ++ ": unexpected byte '" ++ String.ofList (Text.escapeByte byte) ++ "' at " ++
        toString pos ++ "\n"⟩ := by
  have message : (ScanError.unexpectedByte byte pos).message =
      "unexpected byte '" ++ String.ofList (Text.escapeByte byte) ++ "' at " ++ toString pos := rfl
  have joined : ": " ++ "unexpected byte '" = ": unexpected byte '" := rfl
  simp only [printItems, Report.failure, message, String.append_assoc, ← joined]

theorem answer_scan {files : Files} {rules path text : String} {u : Universe} {l : Lexer}
    {bytes : ByteArray} (readable : readText files rules = .ok text)
    (compiled : RuleFile.compile u text = .ok l) (contents : files path = .ok bytes)
    (present : Lexer.initial ∈ l.names) (verbose : Bool) :
    answer files ⟨rules, u, verbose, .scan path⟩ = printItems path ""
      ((TokenStream.start { l with active := some Lexer.initial } bytes.toList).run noSwitching).1 := by
  have switched : l.setMode Lexer.initial = .ok { l with active := some Lexer.initial } :=
    if_pos present
  simp only [answer, readable, compiled, carryOut, printTokens, contents, switched]

/-- What a scan lists is how the rules that the text declares for `INITIAL` tokenize the input, byte for
byte, and it can be read back from the listing.  If the tokens make up the whole input, nothing is said
behind them; otherwise the byte is named at which no rule matches. -/
theorem scan_lossless {files : Files} {rules path text : String} {u : Universe} {l : Lexer}
    {bytes : ByteArray} (readable : readText files rules = .ok text)
    (compiled : RuleFile.compile u text = .ok l) (contents : files path = .ok bytes) :
    let request : Request := ⟨rules, u, false, .scan path⟩
    let report := answer files request
    ∃ entries sources tokens p,
      Reads u ((Text.lines text.toList).map Text.chopReturn) entries ∧
      (sections entries).lookup Lexer.initial = some sources ∧
      l.mode? Lexer.initial = some (.ofList sources) ∧
      Tokenizes sources bytes.toList tokens p ∧
      journal files request = [] ∧
      report.output = String.join (tokens.map tokenLine) ∧
      readListing? report.output.toList =
        some (tokens.map fun token => (token.rule.toList, token.bytes)) ∧
      tokens.flatMap Token.bytes = bytes.toList.take p ∧
      (∀ token ∈ tokens, token.bytes ≠ []) ∧
      (report.exitCode = 0 ∧ report.errors = "" ∧ p = bytes.toList.length ∨
        ∃ byte, bytes.toList[p]? = some byte ∧ report.exitCode = 1 ∧
          report.errors = path ++ ": unexpected byte '" ++
            String.ofList (Text.escapeByte byte) ++ "' at " ++ toString p ++ "\n") := by
  intro request report
  obtain ⟨entries, reads, -, rfl⟩ := RuleFile.compile_eq_ok_iff.mp compiled
  obtain ⟨sources, declared, found, named⟩ := RuleFile.initial_section entries
  obtain ⟨tokens, items, p, given, tokenizes, ending⟩ :=
    TokenStream.run_start_spec (l := ⟨_, some Lexer.initial⟩) rfl found (.ofList sources) bytes.toList
  have oneLine : ∀ token ∈ tokens, '\n' ∉ token.rule.toList := by
    intro token mem
    obtain ⟨source, place, same⟩ := (tokenizes.longest token mem).named
    rw [same]
    exact (reads.entries_oneLine _ (named source (List.mem_of_getElem? place))).1
  have present : Lexer.initial ∈
      Lexer.names ⟨(sections entries).map RuleFile.modeOf, some Lexer.initial⟩ :=
    List.mem_cons_self
  have printed : report = printItems path (String.join (tokens.map tokenLine)) items := by
    rw [← String.empty_append (s := String.join _), ← printItems_tokens, ← given]
    exact answer_scan readable compiled contents present false
  refine ⟨entries, sources, tokens, p, reads, declared, found, tokenizes, rfl, ?_⟩
  have read := readListing?_tokens oneLine
  have together := tokenizes.tiles.flatMap_bytes
  have nonempty := tokenizes.tiles.bytes_ne_nil
  rcases ending with ⟨nothing, atEnd⟩ | ⟨byte, failure, here⟩
  · rw [nothing, printItems_end] at printed
    rw [printed]
    exact ⟨rfl, read, together, nonempty, .inl ⟨rfl, rfl, atEnd⟩⟩
  · rw [failure, printItems_unmatched] at printed
    rw [printed]
    exact ⟨rfl, read, together, nonempty, .inr ⟨byte, here, rfl, rfl⟩⟩

section Tabbed

open RuleSet (Source MatchesSlice)
open TokenStream (Tiles)

/-- Two rules, of which the second has a tab in its name and begins as the first. -/
def tabbedRules : List Source :=
  [⟨"c", .literal [120], none⟩, ⟨"a\tb", .literal [120, 120], none⟩]

def tabbedInput : List UInt8 :=
  [120, 120, 120, 63]

theorem matchesSlice_tabbed_iff {start stop index : Nat} :
    MatchesSlice tabbedRules tabbedInput start stop index ↔
      index < 2 ∧ stop = start + index + 1 ∧ stop ≤ 3 := by
  have alone : ∀ stop < 5, ∀ start < stop,
      slice tabbedInput start stop = [120] ↔ stop = start + 1 ∧ stop ≤ 3 := by decide
  have twice : ∀ stop < 5, ∀ start < stop,
      slice tabbedInput start stop = [120, 120] ↔ stop = start + 2 ∧ stop ≤ 3 := by decide
  constructor
  · rintro ⟨after, le, source, listed, matched⟩
    have inside : stop < 5 := Nat.lt_succ_of_le le
    match index, listed with
    | 0, rfl =>
        have place := (alone stop inside start after).mp (Pattern.matches_literal_iff.mp matched)
        omega
    | 1, rfl =>
        have place := (twice stop inside start after).mp (Pattern.matches_literal_iff.mp matched)
        omega
  · rintro ⟨few, place, le⟩
    have inside : stop < 5 := by omega
    have after : start < stop := by omega
    refine ⟨after, Nat.le_of_lt_succ inside, ?_⟩
    match index, few with
    | 0, _ =>
        have same := (alone stop inside start after).mpr ⟨place, le⟩
        exact ⟨_, rfl, Pattern.matches_literal_iff.mpr same⟩
    | 1, _ =>
        have same := (twice stop inside start after).mpr ⟨place, le⟩
        exact ⟨_, rfl, Pattern.matches_literal_iff.mpr same⟩

theorem tokenizes_tabbed :
    Tokenizes tabbedRules tabbedInput
      [⟨"a\tb", 1, [120, 120], 0, 2⟩, ⟨"c", 0, [120], 2, 3⟩] 3 := by
  have best (start stop index : Nat) (place : stop = start + index + 1) (few : index < 2)
      (le : stop ≤ 3) (most : index = 1 ∨ stop = 3) :
      IsGreatest {stop | ∃ index, MatchesSlice tabbedRules tabbedInput start stop index} stop ∧
        IsLeast {index | MatchesSlice tabbedRules tabbedInput start stop index} index := by
    have here := matchesSlice_tabbed_iff.mpr ⟨few, place, le⟩
    refine ⟨⟨⟨index, here⟩, ?_⟩, ⟨here, ?_⟩⟩
    · rintro other ⟨index, matched⟩
      have bounds := matchesSlice_tabbed_iff.mp matched
      omega
    · intro other matched
      have bounds := matchesSlice_tabbed_iff.mp matched
      omega
  constructor
  case tiles =>
    have first : Tiles tabbedInput [⟨"a\tb", 1, [120, 120], 0, 2⟩] 2 :=
      Tiles.none.snoc ⟨"a\tb", 1, [120, 120], 0, 2⟩ rfl (by decide) (by decide) rfl
    exact first.snoc ⟨"c", 0, [120], 2, 3⟩ rfl (by decide) (by decide) rfl
  case longest =>
    intro token mem
    simp only [List.mem_cons, List.not_mem_nil, or_false] at mem
    rcases mem with rfl | rfl
    · obtain ⟨greatest, least⟩ := best 0 2 1 rfl (by decide) (by decide) (.inl rfl)
      exact ⟨rfl, rfl, greatest, least, _, rfl, rfl⟩
    · obtain ⟨greatest, least⟩ := best 2 3 0 rfl (by decide) (by decide) (.inr rfl)
      exact ⟨rfl, rfl, greatest, least, _, rfl, rfl⟩
  case ended =>
    intro stop index matched
    have bounds := matchesSlice_tabbed_iff.mp matched
    omega

def tabbed : Files := fun path =>
  if path = "rules" then .ok "c=>x\na\tb=>xx".toUTF8 else .ok ⟨#[120, 120, 120, 63]⟩

theorem scan_tabbed :
    let report := answer tabbed ⟨"rules", .ascii, false, .scan "input"⟩
    report = ⟨1, "a\tb\txx\nc\tx\n", "input: unexpected byte '?' at 3\n"⟩ ∧
      readListing? report.output.toList =
        some [("a\tb".toList, [120, 120]), ("c".toList, [120])] ∧
      ∃ entries, Reads .ascii ((Text.lines "c=>x\na\tb=>xx".toList).map Text.chopReturn) entries ∧
        (sections entries).lookup Lexer.initial = some tabbedRules := by
  intro report
  have readable : readText tabbed "rules" = .ok "c=>x\na\tb=>xx" := rfl
  have compiled : RuleFile.compile .ascii "c=>x\na\tb=>xx" =
      .ok ⟨[(Lexer.initial, .ofList tabbedRules)], some Lexer.initial⟩ := by
    with_unfolding_all rfl
  have contents : tabbed "input" = .ok ⟨#[120, 120, 120, 63]⟩ := rfl
  have input : (⟨#[120, 120, 120, 63]⟩ : ByteArray).toList = tabbedInput := by cbv
  obtain ⟨entries, sources, tokens, p, reads, declared, mode, tokenizes, -, listed, read, -, -,
    ending⟩ := scan_lossless readable compiled contents
  rw [input] at tokenizes ending
  have same : sources = tabbedRules := by
    rw [← RuleSet.sources_ofList sources, ← RuleSet.sources_ofList tabbedRules]
    exact congrArg (·.rules.toList.map Rule.source) (Option.some.inj mode).symm
  subst same
  obtain ⟨rfl, rfl⟩ := tokenizes.unique tokenizes_tabbed
  refine ⟨?_, read, entries, reads, declared⟩
  rcases ending with ⟨-, -, atEnd⟩ | ⟨byte, here, exitCode, errors⟩
  · cases atEnd
  · cases here
    have whole : report = ⟨report.exitCode, report.output, report.errors⟩ := rfl
    rw [whole, exitCode, listed, errors]
    decide
end Tabbed

end Munch.Program
