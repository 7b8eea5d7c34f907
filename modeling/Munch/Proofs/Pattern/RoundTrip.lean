import Munch.Proofs.Pattern.Printing
import Munch.Proofs.Pattern.Shunting
import Munch.Proofs.Pattern.Spelling

/-!
What is parsed, printed and parsed again.

Every piece of a text that a builder takes is a terminal of the grammar (`Spells`), so what is parsed
is tidy (`parseChars_tidy`).  The printed form of a pattern is read as the symbols that spell it out
(`spelled_print`), and of these the builder makes the pattern, if it is tidy.  So every pattern that
is parsed is what its printed form is parsed to (`parse_text`).
-/

set_option autoImplicit false

namespace Munch.Pattern

inductive Spells (u : Universe) : Piece → Symbol → Prop where
  | atom (p : Pattern) : Spells u (.atom p) (.atom p)
  | cls {c : Class} {p : Pattern} : c.toPattern u = .ok p → Spells u (.cls c) (.atom p)
  | wildcard : Spells u (.operator '.') (.atom (.range u.wildcard))
  | optional : Spells u (.operator '?') (.quantifier .optional)
  | zeroOrMore : Spells u (.operator '*') (.quantifier .zeroOrMore)
  | oneOrMore : Spells u (.operator '+') (.quantifier .oneOrMore)
  | bar : Spells u (.operator '|') .bar
  | opening : Spells u (.operator '(') .opening
  | closing : Spells u (.operator ')') .closing

section Pieces

variable {u : Universe} {b b' : Builder} {piece : Piece} {pieces : List Piece} {x : Symbol}
  {v : List Symbol}

theorem Spells.push_eq_take (spells : Spells b.alphabet piece x) : b.push piece = b.take x := by
  cases spells with
  | cls found =>
      rw [Builder.push, Builder.pushClass, found]
      rfl
  | _ => rfl

theorem exists_spells (taken : b.push piece = (none, b')) : ∃ x, Spells b.alphabet piece x := by
  cases piece with
  | atom p => exact ⟨_, .atom p⟩
  | cls c =>
      cases found : c.toPattern b.alphabet with
      | ok p => exact ⟨_, .cls found⟩
      | error e =>
          rw [Builder.push, Builder.pushClass, found] at taken
          cases taken
  | operator c =>
      rw [Builder.push] at taken
      unfold Builder.pushOperator at taken
      split at taken
      · exact ⟨_, .wildcard⟩
      · exact ⟨_, .opening⟩
      · exact ⟨_, .closing⟩
      · exact ⟨_, .bar⟩
      · exact ⟨_, .optional⟩
      · exact ⟨_, .zeroOrMore⟩
      · exact ⟨_, .oneOrMore⟩
      · cases taken

theorem pushAll_eq_takeAll (spells : List.Forall₂ (Spells u) pieces v) (alphabet : b.alphabet = u) :
    b.pushAll pieces = b.takeAll v := by
  induction spells generalizing b with
  | nil => rfl
  | @cons piece x pieces v first _ ih =>
      subst alphabet
      have kept := b.alphabet_take x
      rw [Builder.pushAll, Builder.takeAll, first.push_eq_take]
      cases taken : b.take x with
      | mk error next =>
          rw [taken] at kept
          cases error with
          | none => exact ih kept
          | some e => rfl

theorem exists_forall₂_spells (taken : b.pushAll pieces = .ok b') :
    ∃ v, List.Forall₂ (Spells b.alphabet) pieces v := by
  induction pieces generalizing b with
  | nil => exact ⟨[], .nil⟩
  | cons piece rest ih =>
      rw [Builder.pushAll] at taken
      split at taken
      · rename_i next pushed
        obtain ⟨x, first⟩ := exists_spells pushed
        have kept := b.alphabet_take x
        rw [← first.push_eq_take, pushed] at kept
        obtain ⟨v, later⟩ := ih taken
        rw [kept] at later
        exact ⟨x :: v, .cons first later⟩
      · cases taken

end Pieces

/-- A piece that a reader makes: its atoms are literals. -/
def Piece.IsRead : Piece → Prop
  | .atom p => p.isLiteral = true
  | _ => True

theorem readPiece_isRead {c : Char} {text rest : List Char} {piece : Piece}
    (read : readPiece c text = .ok (piece, rest)) : piece.IsRead := by
  have mapped : ∀ {α : Type} {r : Except Error (α × List Char)} (f : α → Piece),
      (∀ a, (f a).IsRead) → r.map (fun r => (f r.1, r.2)) = .ok (piece, rest) → piece.IsRead := by
    intro α r f each eq
    cases r with
    | error e => cases eq
    | ok pair =>
        cases eq
        exact each pair.1
  unfold readPiece at read
  split at read
  · exact mapped Member.piece (fun m => rfl) read
  · split at read
    · exact mapped Piece.cls (fun c => trivial) read
    · split at read
      · exact mapped (fun bytes => .atom (.literal bytes)) (fun bytes => rfl) read
      · split at read
        · cases read
          trivial
        · cases read
          rfl

theorem readPieces_isRead (text : List Char) : ∀ piece ∈ (readPieces text).1, piece.IsRead := by
  fun_induction readPieces text with
  | case1 => simp
  | case2 => simp
  | case3 c text piece rest read pieces error later ih =>
      rw [later] at ih
      exact List.forall_mem_cons.mpr ⟨readPiece_isRead read, ih⟩

theorem Class.tidy_toPattern {c : Class} {u : Universe} {p : Pattern}
    (found : c.toPattern u = .ok p) : Tidy p := by
  have each : ∀ q ∈ c.alternatives, q.isAlternation = false ∧ Tidy q := by
    intro q mem
    rw [alternatives] at mem
    rcases List.mem_append.mp mem with bytes | wide
    · split at bytes
      · cases bytes
      · rw [List.mem_singleton.mp bytes]
        exact ⟨rfl, .range c.bytes⟩
    · obtain ⟨x, -, rfl⟩ := List.mem_map.mp wide
      exact ⟨rfl, .literal _⟩
  unfold toPattern at found
  split at found
  · cases found
  · cases found
    exact .range _
  · cases found
    exact .range _
  · rename_i wide
    split at found
    · rename_i single
      cases found
      exact (each p (by rw [single]; exact List.mem_cons_self)).2
    · rename_i several
      cases found
      refine .alternation ?_ (fun q mem => (each q mem).1) (fun q mem => (each q mem).2)
      have some : 1 ≤ c.alternatives.length := by
        rw [alternatives, wide, List.length_append, List.map_cons, List.length_cons]
        omega
      have notOne : c.alternatives.length ≠ 1 := by
        intro one
        obtain ⟨q, single⟩ := List.length_eq_one_iff.mp one
        exact several q single
      omega

theorem Spells.tidy {u : Universe} {piece : Piece} {p : Pattern} (isRead : piece.IsRead)
    (spells : Spells u piece (.atom p)) : Tidy p := by
  cases spells with
  | atom =>
      cases p with
      | literal bytes => exact .literal bytes
      | _ => cases isRead
  | cls found => exact Class.tidy_toPattern found
  | wildcard => exact .range _

theorem tidyAtoms_of_spells {u : Universe} {pieces : List Piece} {v : List Symbol}
    (spells : List.Forall₂ (Spells u) pieces v) (isRead : ∀ piece ∈ pieces, piece.IsRead) :
    TidyAtoms v := by
  induction spells with
  | nil =>
      intro p mem
      cases mem
  | cons first _ ih =>
      obtain ⟨own, later⟩ := List.forall_mem_cons.mp isRead
      intro p mem
      rcases List.mem_cons.mp mem with rfl | old
      · exact first.tidy own
      · exact ih later p old

theorem exists_pieces_of_parseChars {u : Universe} {text : List Char} {t : Pattern}
    (parsed : parseChars u text = .ok t) :
    ∃ pieces v, readPieces text = (pieces, none) ∧ List.Forall₂ (Spells u) pieces v ∧
      AltOf v t := by
  rw [parseChars] at parsed
  split at parsed
  rename_i pieces error read
  split at parsed
  · cases parsed
  · cases parsed
  · rename_i b taken
    obtain ⟨v, spells⟩ := exists_forall₂_spells taken
    rw [pushAll_eq_takeAll spells rfl] at taken
    have assembled : Builder.assemble u v = .ok t := by
      rw [Builder.assemble, taken]
      exact parsed
    exact ⟨pieces, v, read, spells, Builder.assemble_eq_ok_iff.mp assembled⟩

/-- What is parsed is tidy. -/
theorem parseChars_tidy {u : Universe} {text : List Char} {t : Pattern}
    (parsed : parseChars u text = .ok t) : Tidy t := by
  obtain ⟨pieces, v, read, spells, alt⟩ := exists_pieces_of_parseChars parsed
  have isRead := readPieces_isRead text
  rw [read] at isRead
  exact alt.tidy (tidyAtoms_of_spells spells isRead)

theorem readPieces_cons {c : Char} {text rest : List Char} {piece : Piece}
    (read : readPiece c text = .ok (piece, rest)) :
    readPieces (c :: text) = (piece :: (readPieces rest).1, (readPieces rest).2) := by
  rw [readPieces]
  split
  · rename_i failed
    rw [read] at failed
    cases failed
  · rename_i found
    rw [read] at found
    cases found
    rfl

/-- Text that is read as symbols, whatever follows it. -/
def Spelled (u : Universe) (text : List Char) (v : List Symbol) : Prop :=
  ∃ pieces, List.Forall₂ (Spells u) pieces v ∧
    ∀ rest, readPieces (text ++ rest) = (pieces ++ (readPieces rest).1, (readPieces rest).2)

namespace Spelled

variable {u : Universe} {text text' : List Char} {v w : List Symbol}

theorem nil (u : Universe) : Spelled u [] [] :=
  ⟨[], .nil, fun _ => rfl⟩

theorem append (first : Spelled u text v) (second : Spelled u text' w) :
    Spelled u (text ++ text') (v ++ w) := by
  obtain ⟨pieces, spells, read⟩ := first
  obtain ⟨pieces', spells', read'⟩ := second
  refine ⟨pieces ++ pieces', List.rel_append spells spells', fun rest => ?_⟩
  rw [List.append_assoc, read, read', List.append_assoc]

theorem single {c : Char} {piece : Piece} {x : Symbol} (spells : Spells u piece x)
    (read : ∀ rest, readPiece c (text ++ rest) = .ok (piece, rest)) :
    Spelled u (c :: text) [x] := by
  refine ⟨[piece], .cons spells .nil, fun rest => ?_⟩
  rw [List.cons_append, readPieces_cons (read rest)]
  rfl

theorem operator {c : Char} {x : Symbol} (spells : Spells u (.operator c) x)
    (meaning : c ≠ '\\' ∧ c ≠ '[' ∧ c ≠ '"' ∧ isOperator c = true) : Spelled u [c] [x] := by
  obtain ⟨escape, bracket, quote, isOperator⟩ := meaning
  refine single spells fun rest => ?_
  rw [readPiece, if_neg escape, if_neg bracket, if_neg quote, if_pos isOperator]
  rfl

/-- A text is parsed to what the grammar makes of its symbols. -/
theorem parseChars_eq {t : Pattern} (spelled : Spelled u text v) (alt : AltOf v t) :
    parseChars u text = .ok t := by
  obtain ⟨pieces, spells, read⟩ := spelled
  have whole := read []
  rw [List.append_nil] at whole
  have assembled := (Builder.assemble_eq_ok_iff (u := u)).mpr alt
  rw [Builder.assemble] at assembled
  rw [parseChars, whole, readPieces, List.append_nil]
  simp only [pushAll_eq_takeAll (b := Builder.new u) spells rfl]
  split at assembled
  · rename_i b taken
    rw [taken]
    exact assembled
  · cases assembled

end Spelled

section Print

variable (u : Universe)

theorem readPiece_of_readMember {c : Char} {text rest : List Char} {m : Member}
    (opens : Opens isSpecialByte c) (read : readMember c text = .ok (m, rest)) :
    readPiece c text = .ok (m.piece, rest) := by
  rw [readMember] at read
  rw [readPiece]
  split
  · rename_i escape
    rw [if_pos escape] at read
    rw [read]
    rfl
  · rename_i plain
    rw [if_neg plain] at read
    cases read
    have bracket : c ≠ '[' := opens.ne (by decide) (by decide)
    have quote : c ≠ '"' := opens.ne (by decide) (by decide)
    have notOperator : isOperator c = false := by
      have ne : ∀ x, x ∈ ['.', '?', '*', '+', '|', '(', ')'] → c ≠ x := by
        have special : ∀ x ∈ ['.', '?', '*', '+', '|', '(', ')'],
            x ≠ '\\' ∧ isSpecialByte (UInt8.ofNat x.toNat) = true := by simp [isSpecialByte]
        exact fun x mem => opens.ne (special x mem).1 (special x mem).2
      simp [isOperator, ne]
    rw [if_neg bracket, if_neg quote, notOperator, if_neg Bool.false_ne_true]

theorem spelled_printByte (b : UInt8) : Spelled u (printByte b) [.atom (.literal [b])] := by
  obtain ⟨c, tail, m, text, opens, same, read⟩ := exists_read_escapeWith escapes_isSpecialByte b
  have spells : Spells u m.piece (.atom (.literal [b])) := by
    rw [← same.bytes_eq]
    exact .atom _
  rw [printByte_eq, text]
  exact .single spells fun rest => readPiece_of_readMember opens (read rest)

theorem spelled_literal (bytes : List UInt8) :
    Spelled u (bytes.flatMap printByte) (bytes.map fun b => .atom (.literal [b])) := by
  induction bytes with
  | nil => exact .nil u
  | cons b rest ih => exact (spelled_printByte u b).append ih

theorem spelled_printClass (set : ByteSet) : Spelled u (printClass set) [.atom (.range set)] := by
  have spells : Spells u (.cls { bytes := set, wide := [], negated := false })
      (.atom (.range set)) := .cls rfl
  refine .single spells fun rest => ?_
  have read := readClass_printClass set rest
  rw [readPiece, if_neg (by decide), if_pos rfl, List.append_assoc, List.singleton_append, read]
  rfl

theorem spelled_opening : Spelled u ['('] [.opening] :=
  .operator .opening (by decide)

theorem spelled_closing : Spelled u [')'] [.closing] :=
  .operator .closing (by decide)

theorem spelled_bar : Spelled u ['|'] [.bar] :=
  .operator .bar (by decide)

theorem spelled_optional : Spelled u ['?'] [.quantifier .optional] :=
  .operator .optional (by decide)

theorem spelled_zeroOrMore : Spelled u ['*'] [.quantifier .zeroOrMore] :=
  .operator .zeroOrMore (by decide)

theorem spelled_oneOrMore : Spelled u ['+'] [.quantifier .oneOrMore] :=
  .operator .oneOrMore (by decide)

variable {u}

theorem Spelled.group {text behind : List Char} {v w : List Symbol} (inner : Spelled u text v)
    (outer : Spelled u behind w) :
    Spelled u ('(' :: (text ++ ')' :: behind)) (.opening :: (v ++ .closing :: w)) :=
  (spelled_opening u).append (inner.append ((spelled_closing u).append outer))

variable (u)

mutual

/-- The printed form of a pattern is read as its symbols. -/
theorem spelled_print : ∀ p : Pattern, Spelled u (print p) (symbols p)
  | .literal bytes => by
      rw [print, symbols]
      exact spelled_literal u bytes
  | .sequence items => by
      rw [print, symbols]
      exact (spelled_printSequence items).group (.nil u)
  | .alternation items => by
      rw [print, symbols]
      exact (spelled_printAlternatives items).group (.nil u)
  | .optional item => by
      rw [print, symbols]
      exact (spelled_print item).group (spelled_optional u)
  | .repetition item => by
      rw [print, symbols]
      exact (spelled_print item).group (spelled_oneOrMore u)
  | .zeroOrMore item => by
      rw [print, symbols]
      exact (spelled_print item).group (spelled_zeroOrMore u)
  | .range set => by
      rw [print, symbols]
      exact spelled_printClass u set

theorem spelled_printSequence : ∀ items : List Pattern,
    Spelled u (printSequence items) (symbolsInOrder items)
  | [] => by
      rw [printSequence, symbolsInOrder]
      exact .nil u
  | p :: ps => by
      rw [printSequence, symbolsInOrder]
      exact (spelled_print p).append (spelled_printSequence ps)

theorem spelled_printAlternatives : ∀ items : List Pattern,
    Spelled u (printAlternatives items) (symbolsWithBars items)
  | [] => by
      rw [printAlternatives, symbolsWithBars]
      exact .nil u
  | [p] => by
      rw [printAlternatives, symbolsWithBars]
      exact spelled_print p
  | p :: q :: ps => by
      have later := spelled_printAlternatives (q :: ps)
      rw [printAlternatives, symbolsWithBars]
      · exact (spelled_print p).append ((spelled_bar u).append later)
      · simp
      · simp

end

end Print

theorem parseChars_print_of_altOf {p t : Pattern} (alt : AltOf (symbols p) t) (u : Universe) :
    parseChars u (print p) = .ok t :=
  (spelled_print u p).parseChars_eq alt

theorem parseChars_print {t : Pattern} (tidy : Tidy t) (u : Universe) :
    parseChars u (print t) = .ok t :=
  parseChars_print_of_altOf tidy.altOf_symbols u

/-- A pattern that was parsed is what its printed form is parsed to, in any universe. -/
theorem parse_text {u : Universe} {text : String} {t : Pattern} (parsed : parse u text = .ok t)
    (u' : Universe) : parse u' t.text = .ok t := by
  rw [parse, Pattern.text, String.toList_ofList]
  exact parseChars_print (parseChars_tidy parsed) u'

theorem parse_text_quantified_empty :
    parse .ascii "a|?" = .ok (.alternation [.literal [97], .optional .empty]) ∧
      ∀ u', parse u' (text (.alternation [.literal [97], .optional .empty])) =
        .ok (.alternation [.literal [97], .optional .empty]) := by
  have parsed : parse .ascii "a|?" = .ok (.alternation [.literal [97], .optional .empty]) := by
    cbv
  exact ⟨parsed, parse_text parsed⟩

end Munch.Pattern
