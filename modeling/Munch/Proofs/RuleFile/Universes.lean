import Munch.Proofs.Lexer.Modes
import Munch.Proofs.Pattern.Narrowing
import Munch.RuleFile.Compile

/-!
One rule file compiled in both universes.

What a rule file says beside its patterns is read without a universe, and a pattern is wrong in both
or in none.  So the lines of a file make drafts that agree in all but the sets in their patterns
(`Draft.Narrows`), and the lexers agree so as well (`compile_agree`).  Their automata differ, but
longest matches depend only on what patterns match: on input of ASCII both lexers find the same, and
give the same tokens and failures whatever the modes are switched to (`compile_universes`).
-/

set_option autoImplicit false

namespace Munch

namespace RuleSet

/-- Rules of the same name and action, whose patterns narrow those of the other. -/
structure Source.Narrows (a b : Source) : Prop where
  name_eq : a.name = b.name
  action_eq : a.action = b.action
  pattern : a.pattern.Narrows b.pattern

/-- Sets whose rules narrow those of the other, one by one. -/
def Narrows (s t : RuleSet) : Prop :=
  ∃ sources sources', Kept s sources ∧ Kept t sources' ∧
    List.Forall₂ Source.Narrows sources sources'

def labels (s : RuleSet) : List (String × Option String) :=
  s.rules.toList.map fun rule => (rule.name, rule.action)

section Sources

variable {sources sources' : List Source} {input : List UInt8}

theorem matchesSlice_iff (narrows : List.Forall₂ Source.Narrows sources sources')
    (ascii : IsAscii input) (start stop index : Nat) :
    MatchesSlice sources input start stop index ↔ MatchesSlice sources' input start stop index := by
  have slice : IsAscii (slice input start stop) :=
    fun b mem => ascii b (List.mem_of_mem_drop (List.mem_of_mem_take mem))
  have listed := rel_getElem? narrows index
  rw [MatchesSlice, MatchesSlice]
  refine and_congr_right fun _ => and_congr_right fun _ => ?_
  generalize sources[index]? = a, sources'[index]? = b at listed
  cases listed with
  | none => simp
  | some source => simp [source.pattern.sameAscii _ slice]

theorem isLongestMatch_iff (narrows : List.Forall₂ Source.Narrows sources sources')
    (ascii : IsAscii input) (pos : Nat) (token : Token) :
    IsLongestMatch sources input pos token ↔ IsLongestMatch sources' input pos token := by
  have named : (∃ source, sources[token.index]? = some source ∧ token.rule = source.name) ↔
      ∃ source, sources'[token.index]? = some source ∧ token.rule = source.name := by
    have listed := rel_getElem? narrows token.index
    generalize sources[token.index]? = a, sources'[token.index]? = b at listed
    cases listed with
    | none => simp
    | some source => simp [source.name_eq]
  have slices := matchesSlice_iff narrows ascii
  constructor
  · intro ⟨start, bytes, greatest, least, name⟩
    simp only [slices] at greatest least
    exact ⟨start, bytes, greatest, least, named.mp name⟩
  · intro ⟨start, bytes, greatest, least, name⟩
    simp only [← slices] at greatest least
    exact ⟨start, bytes, greatest, least, named.mpr name⟩

end Sources

namespace Narrows

variable {s s' t t' : RuleSet}

theorem empty : Narrows .empty .empty :=
  ⟨[], [], .refl _, .refl _, .nil⟩

theorem of_alike (narrows : Narrows s t) (first : Alike s' s) (second : Alike t' t) :
    Narrows s' t' := by
  obtain ⟨sources, sources', kept, kept', each⟩ := narrows
  exact ⟨sources, sources', first.trans kept, second.trans kept', each⟩

theorem register (narrows : Narrows s t) (name : String) (action : Option String)
    {p q : Pattern} (pattern : p.Narrows q) :
    Narrows (s.register name p action) (t.register name q action) := by
  obtain ⟨sources, sources', kept, kept', each⟩ := narrows
  have grown : Kept (s.registerSource ⟨name, p, action⟩) (sources ++ [⟨name, p, action⟩]) :=
    kept.perform (.register ⟨name, p, action⟩)
  have grown' : Kept (t.registerSource ⟨name, q, action⟩) (sources' ++ [⟨name, q, action⟩]) :=
    kept'.perform (.register ⟨name, q, action⟩)
  have last : Source.Narrows ⟨name, p, action⟩ ⟨name, q, action⟩ := ⟨rfl, rfl, pattern⟩
  exact ⟨_, _, grown, grown', List.rel_append each (.cons last .nil)⟩

theorem labels_eq (narrows : Narrows s t) : s.labels = t.labels := by
  obtain ⟨sources, sources', kept, kept', each⟩ := narrows
  have labels : ∀ {r : RuleSet} {given : List Source}, Sound r given →
      r.labels = given.map fun source => (source.name, source.action) := by
    intro r given sound
    rw [← sound.sources_eq, List.map_map]
    rfl
  rw [labels kept.sound, labels kept'.sound]
  clear labels kept kept'
  induction each with
  | nil => rfl
  | cons head _ ih => rw [List.map_cons, List.map_cons, ih, head.name_eq, head.action_eq]

theorem find_eq (narrows : Narrows s t) {input : List UInt8} (ascii : IsAscii input) (pos : Nat) :
    (s.find input pos).1 = (t.find input pos).1 := by
  obtain ⟨sources, sources', kept, kept', each⟩ := narrows
  cases found : (s.find input pos).1 with
  | matched token =>
      have longest := kept.holds.find_eq_matched_iff.mp found
      rw [isLongestMatch_iff each ascii] at longest
      exact (kept'.holds.find_eq_matched_iff.mpr longest).symm
  | noMatch =>
      have unmatched := kept.holds.find_eq_noMatch_iff.mp found
      simp only [matchesSlice_iff each ascii] at unmatched
      exact (kept'.holds.find_eq_noMatch_iff.mpr unmatched).symm
  | endOfInput =>
      have beyond := kept.holds.find_eq_endOfInput_iff.mp found
      exact (kept'.holds.find_eq_endOfInput_iff.mpr beyond).symm

end Narrows

end RuleSet

namespace Lexer

abbrev Narrows : Lexer → Lexer → Prop :=
  Related RuleSet.Narrows

variable {l l' m m' : Lexer}

namespace Narrows

theorem empty : Narrows empty empty where
  active_eq := rfl
  names_eq := rfl
  modes _ := .none

theorem of_alike (narrows : Narrows l m) (first : Alike l' l) (second : Alike m' m) :
    Narrows l' m' where
  active_eq := first.active_eq.trans (narrows.active_eq.trans second.active_eq.symm)
  names_eq := first.names_eq.trans (narrows.names_eq.trans second.names_eq.symm)
  modes name := by
    have before := first.modes name
    have between := narrows.modes name
    have behind := second.modes name
    generalize l'.mode? name = a, l.mode? name = b, m.mode? name = c, m'.mode? name = d
      at before between behind
    cases before with
    | none =>
        cases between
        cases behind
        exact .none
    | some alike =>
        cases between with
        | some sets =>
            cases behind with
            | some alike' => exact .some (sets.of_alike alike alike')

theorem addMode (narrows : Narrows l m) (name : String) {s t : RuleSet} (sets : s.Narrows t) :
    Agree Narrows (l.addMode name s) (m.addMode name t) := by
  rw [Lexer.addMode, Lexer.addMode, ← narrows.names_eq]
  split
  · exact .error _
  · refine .ok ⟨?_, ?_, fun key => ?_⟩
    · simp only [narrows.active_eq]
    · simpa [names] using narrows.names_eq
    · have modes : Option.Rel RuleSet.Narrows (l.modes.lookup key) (m.modes.lookup key) :=
        narrows.modes key
      rw [mode?_append, mode?_append]
      generalize l.modes.lookup key = a, m.modes.lookup key = b at modes
      cases modes with
      | some sets => exact .some sets
      | none =>
          split
          · exact .some sets
          · exact .none

/-- On input of ASCII a search gives the same, and leaves lexers of which one narrows the other. -/
theorem found_eq (narrows : Narrows l m) {input : List UInt8} (ascii : IsAscii input) (pos : Nat) :
    l.found input pos = m.found input pos :=
  Related.found_eq narrows fun sets => sets.find_eq ascii pos

end Narrows

end Lexer

namespace TokenStream

/-- What a call gives back: the next token, or whether a switch is refused. -/
inductive Reply where
  | given (g : Given)
  | switched (answer : Except Lexer.Error Unit)

def reply (s : TokenStream) : Call → Reply
  | .next => .given s.next.1
  | .setMode name => .switched ((s.setMode name).map fun _ => ())

def replies (s : TokenStream) : List Call → List Reply
  | [] => []
  | c :: rest => s.reply c :: (s.call c).2.replies rest

/-- Streams of an input of ASCII at the same position, with lexers of which one narrows the other. -/
structure Narrows (s t : TokenStream) : Prop where
  lexer : s.lexer.Narrows t.lexer
  input_eq : s.input = t.input
  pos_eq : s.pos = t.pos
  done_eq : s.done = t.done
  ascii : IsAscii s.input

namespace Narrows

variable {s t : TokenStream}

theorem next (narrows : Narrows s t) : s.next.1 = t.next.1 ∧ Narrows s.next.2 t.next.2 := by
  have done := narrows.done_eq
  cases ended : s.done with
  | true =>
      rw [ended] at done
      rw [next_of_done ended, next_of_done done.symm]
      exact ⟨rfl, narrows⟩
  | false =>
      rw [ended] at done
      have found : s.lexer.found s.input s.pos = t.lexer.found t.input t.pos := by
        rw [← narrows.input_eq, ← narrows.pos_eq]
        exact narrows.lexer.found_eq narrows.ascii s.pos
      rcases next_of_going ended with ⟨e, answer, here⟩ | ⟨outcome, kept, answer, alike, here⟩
      all_goals
        rw [answer] at found
        rcases next_of_going done.symm with ⟨e', answer', there⟩ |
          ⟨outcome', kept', answer', alike', there⟩
        all_goals
          rw [answer'] at found
          cases found
      · rw [here, there]
        exact ⟨rfl, { narrows with done_eq := rfl }⟩
      · have lexer := narrows.lexer.of_alike alike alike'
        rw [here, there]
        cases outcome with
        | matched token => exact ⟨rfl, { narrows with lexer, pos_eq := rfl }⟩
        | endOfInput => exact ⟨rfl, { narrows with lexer, done_eq := rfl }⟩
        | noMatch =>
            refine ⟨?_, { narrows with lexer, done_eq := rfl }⟩
            simp only [narrows.input_eq, narrows.pos_eq]

theorem call (narrows : Narrows s t) (c : Call) :
    s.reply c = t.reply c ∧ Narrows (s.call c).2 (t.call c).2 := by
  cases c with
  | next =>
      obtain ⟨same, later⟩ := narrows.next
      exact ⟨congrArg Reply.given same, later⟩
  | setMode name =>
      rw [reply, reply, TokenStream.call, TokenStream.call, setMode, setMode]
      rcases narrows.lexer.setMode name with ⟨e, refused, refused'⟩ | ⟨l', m', set, set', lexer⟩
      · rw [refused, refused']
        exact ⟨rfl, narrows⟩
      · rw [set, set']
        exact ⟨rfl, { narrows with lexer }⟩

theorem calls (narrows : Narrows s t) (cs : List Call) :
    s.replies cs = t.replies cs ∧ Narrows (s.calls cs).2 (t.calls cs).2 := by
  induction cs generalizing s t with
  | nil => exact ⟨rfl, narrows⟩
  | cons c rest ih =>
      obtain ⟨first, next⟩ := narrows.call c
      obtain ⟨later, final⟩ := ih next
      exact ⟨congrArg₂ List.cons first later, final⟩

end Narrows

end TokenStream

namespace Lexer

inductive Use where
  | find (input : List UInt8) (pos : Nat)
  | setMode (name : String)
  | scan (input : List UInt8) (calls : List TokenStream.Call)

inductive Use.Answer where
  | found (answer : Except Error Outcome)
  | switched (answer : Except Error Unit)
  | scanned (replies : List TokenStream.Reply)

def Use.IsAscii : Use → Prop
  | .find input _ => Munch.IsAscii input
  | .setMode _ => True
  | .scan input _ => Munch.IsAscii input

/-- The answer to a use, and the lexer after it. -/
def answer (l : Lexer) : Use → Use.Answer × Lexer
  | .find input pos => (.found (l.found input pos), l.serve (.perform (.find input pos)))
  | .setMode name =>
      (.switched ((l.setMode name).map fun _ => ()), l.serve (.perform (.setMode name)))
  | .scan input calls =>
      (.scanned ((TokenStream.start l input).replies calls), l.serve (.scan input calls))

def answers (l : Lexer) : List Use → List Use.Answer
  | [] => []
  | use :: rest => (l.answer use).1 :: (l.answer use).2.answers rest

variable {l m : Lexer}

theorem Narrows.answer (narrows : Narrows l m) {use : Use} (ascii : use.IsAscii) :
    (l.answer use).1 = (m.answer use).1 ∧ Narrows (l.answer use).2 (m.answer use).2 := by
  cases use with
  | find input pos =>
      have later := narrows.of_alike (alike_perform_find l input pos) (alike_perform_find m input pos)
      exact ⟨congrArg Use.Answer.found (narrows.found_eq ascii pos), later⟩
  | setMode name =>
      refine ⟨?_, Related.switched narrows name⟩
      rw [Lexer.answer, Lexer.answer]
      rcases narrows.setMode name with ⟨e, refused, refused'⟩ | ⟨l', m', set, set', -⟩
      · rw [refused, refused']
      · rw [set, set']
        rfl
  | scan input calls =>
      have start : TokenStream.Narrows (.start l input) (.start m input) :=
        ⟨narrows, rfl, rfl, rfl, ascii⟩
      obtain ⟨same, later⟩ := start.calls calls
      exact ⟨congrArg Use.Answer.scanned same, later.lexer⟩

/-- A lexer whose rules narrow those of another answers as that does, as long as input is ASCII. -/
theorem Narrows.answers_eq (narrows : Narrows l m) {uses : List Use}
    (ascii : ∀ use ∈ uses, use.IsAscii) : l.answers uses = m.answers uses := by
  induction uses generalizing l m with
  | nil => rfl
  | cons use rest ih =>
      obtain ⟨own, later⟩ := List.forall_mem_cons.mp ascii
      obtain ⟨same, next⟩ := narrows.answer own
      rw [answers, answers, same, ih next later]

end Lexer

namespace RuleFile

namespace Draft

def SameMode (a b : String × RuleSet) : Prop :=
  a.1 = b.1 ∧ a.2.Narrows b.2

structure Narrows (d e : Draft) : Prop where
  earlier : List.Forall₂ SameMode d.earlier e.earlier
  name_eq : d.name = e.name
  rules : d.rules.Narrows e.rules
  headers_eq : d.headers = e.headers

namespace Narrows

variable {d e : Draft}

theorem new : Narrows .new .new where
  earlier := .nil
  name_eq := rfl
  rules := .empty
  headers_eq := rfl

theorem modes (narrows : Narrows d e) : List.Forall₂ SameMode d.modes e.modes :=
  List.rel_append narrows.earlier (.cons ⟨narrows.name_eq, narrows.rules⟩ .nil)

theorem names_eq (narrows : Narrows d e) : d.modes.map Prod.fst = e.modes.map Prod.fst := by
  have modes := narrows.modes
  generalize d.modes = ms, e.modes = ns at modes
  induction modes with
  | nil => rfl
  | cons head _ ih => rw [List.map_cons, List.map_cons, head.1, ih]

theorem reopensInitial_eq (narrows : Narrows d e) (name : String) :
    d.reopensInitial name = e.reopensInitial name := by
  have empty : d.rules.rules.isEmpty = e.rules.rules.isEmpty := by
    have sizes := congrArg List.length narrows.rules.labels_eq
    rw [RuleSet.labels, RuleSet.labels, List.length_map, List.length_map, Array.length_toList,
      Array.length_toList] at sizes
    rw [Array.isEmpty, Array.isEmpty, sizes]
  rw [reopensInitial, reopensInitial, narrows.headers_eq, empty]

theorem addHeader (narrows : Narrows d e) (name : List Char) :
    Agree Narrows (d.addHeader name) (e.addHeader name) := by
  unfold Draft.addHeader
  simp only [narrows.names_eq, narrows.reopensInitial_eq, narrows.headers_eq]
  split
  · exact .error _
  · split
    · exact .ok { narrows with headers_eq := rfl }
    · split
      · exact .error _
      · exact .ok ⟨narrows.modes, rfl, .empty, rfl⟩

theorem addRule (narrows : Narrows d e) (name pattern : List Char) (action : Option (List Char)) :
    Agree Narrows (d.addRule .ascii name pattern action) (e.addRule .bytes name pattern action) := by
  simp only [Draft.addRule]
  split
  · exact .error _
  · split
    · exact .error _
    · have parsed := Pattern.parseChars_agree pattern
      generalize Pattern.parseChars .ascii pattern = p, Pattern.parseChars .bytes pattern = q
        at parsed
      cases parsed with
      | error e => exact .error _
      | ok pattern =>
          have rules := narrows.rules.register (String.ofList name) (action.map String.ofList) pattern
          exact .ok { narrows with rules }

theorem addLine (narrows : Narrows d e) (line : Line) :
    Agree Narrows (d.addLine .ascii line) (e.addLine .bytes line) := by
  cases line with
  | skipped => exact .ok narrows
  | header name => exact narrows.addHeader name
  | arrowless => exact .error _
  | rule name pattern action => exact narrows.addRule name pattern action

theorem addLines (narrows : Narrows d e) (number : Nat) (lines : List (List Char)) :
    Narrows (d.addLines .ascii number lines).1 (e.addLines .bytes number lines).1 ∧
      (d.addLines .ascii number lines).2 = (e.addLines .bytes number lines).2 := by
  induction lines generalizing d e number with
  | nil => exact ⟨narrows, rfl⟩
  | cons line rest ih =>
      have added := narrows.addLine (.read (Text.chopReturn line))
      rw [Draft.addLines, Draft.addLines]
      generalize d.addLine .ascii (.read (Text.chopReturn line)) = a,
        e.addLine .bytes (.read (Text.chopReturn line)) = b at added
      cases added with
      | error cause => exact ⟨narrows, rfl⟩
      | ok next => exact ih next (number + 1)

end Narrows

theorem agree_addModes {l m : Lexer} {ms ns : List (String × RuleSet)} (narrows : l.Narrows m)
    (modes : List.Forall₂ SameMode ms ns) :
    Agree Lexer.Narrows (addModes l ms) (addModes m ns) := by
  induction modes generalizing l m with
  | nil => exact .ok narrows
  | @cons first second _ _ head _ ih =>
      obtain ⟨name, rules⟩ := first
      obtain ⟨name', rules'⟩ := second
      obtain ⟨rfl, sets⟩ := head
      have added := narrows.addMode name sets
      rw [addModes, addModes]
      generalize l.addMode name rules = a, m.addMode name rules' = b at added
      cases added with
      | error e => exact .error _
      | ok next => exact ih next

end Draft

/-- The two universes refuse a rule file for the same reason, or compile it to lexers of which one
narrows the other. -/
theorem compile_agree (text : String) :
    Agree Lexer.Narrows (compile .ascii text) (compile .bytes text) := by
  obtain ⟨narrows, same⟩ := Draft.Narrows.new.addLines 1 (Text.lines text.toList)
  rw [compile, compile, draft, draft]
  generalize Draft.new.addLines .ascii 1 (Text.lines text.toList) = a,
    Draft.new.addLines .bytes 1 (Text.lines text.toList) = b at narrows same
  obtain ⟨d, error⟩ := a
  obtain ⟨d', error'⟩ := b
  cases same
  cases error with
  | some e => exact .error e
  | none => exact Draft.agree_addModes .empty narrows.modes

/-- The universe is irrelevant to input of ASCII.  Either both universes refuse a rule file with the
same error, or both give lexers of the same modes with the same names and actions of rules, which
answer all searches, switches and scans of input of ASCII alike.  And a pattern is wrong in both, or
the two patterns differ only in that sets of the smaller universe lack bytes from 0x80 on. -/
theorem compile_universes (text : String) :
    ((∃ e, compile .ascii text = .error e ∧ compile .bytes text = .error e) ∨
      ∃ l m, compile .ascii text = .ok l ∧ compile .bytes text = .ok m ∧
        l.names = m.names ∧ l.active = m.active ∧
        (∀ name, (l.mode? name).map RuleSet.labels = (m.mode? name).map RuleSet.labels) ∧
        ∀ uses : List Lexer.Use, (∀ use ∈ uses, use.IsAscii) → l.answers uses = m.answers uses) ∧
    ∀ pattern, Agree Pattern.Narrows (Pattern.parse .ascii pattern) (Pattern.parse .bytes pattern) := by
  refine ⟨?_, fun pattern => Pattern.parseChars_agree pattern.toList⟩
  have agree := compile_agree text
  generalize compile .ascii text = a, compile .bytes text = b at agree
  cases agree with
  | error e => exact .inl ⟨e, rfl, rfl⟩
  | @ok l m narrows =>
      refine .inr ⟨l, m, rfl, rfl, narrows.names_eq, narrows.active_eq, fun name => ?_,
        fun uses ascii => narrows.answers_eq ascii⟩
      have modes := narrows.modes name
      generalize l.mode? name = a, m.mode? name = b at modes
      cases modes with
      | none => rfl
      | some sets => exact congrArg some sets.labels_eq

end RuleFile

end Munch
