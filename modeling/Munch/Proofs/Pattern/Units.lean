import Munch.Proofs.Pattern.RoundTrip

/-!
The units of pattern text.

A unit is what one piece is read from: an escape, a class, a quoted literal or a lone character
(`UnitText`).  Reading looks at no more than the unit, so whatever stands behind it is left as it is
(`exists_unitText`); in particular a unit that cannot be read cannot be read either when the text
behind it is cut off (`readPiece_error_of_append`).

A boundary is a position that reading comes to (`Boundary`), and reading goes on from there until the
text ends or a unit is bad (`Boundary.exists_end`).  Text that is cut off behind a bad unit is no
pattern (`Boundary.parseChars_error`).
-/

set_option autoImplicit false

namespace Munch.Pattern

inductive EscapeText : List Char → Prop where
  | letter {c : Char} (plain : c ≠ 'x') : EscapeText [c]
  | hex {c d : Char} {value : Nat} (digits : hexPair? c d = some value) : EscapeText ['x', c, d]

inductive Body (close : Char) : List Char → Prop where
  | close : Body close [close]
  | plain {c : Char} {behind : List Char} (plain : c ≠ '\\') (inside : c ≠ close)
      (body : Body close behind) : Body close (c :: behind)
  | escape {text behind : List Char} (escape : EscapeText text) (body : Body close behind) :
      Body close ('\\' :: (text ++ behind))

inductive UnitText : List Char → Prop where
  | escape {text : List Char} (escape : EscapeText text) : UnitText ('\\' :: text)
  | cls {text : List Char} (body : Body ']' text) : UnitText ('[' :: text)
  | quoted {text : List Char} (body : Body '"' text) : UnitText ('"' :: text)
  | single {c : Char} (plain : c ∉ ['\\', '[', '"']) : UnitText [c]

/-- A reader takes a text, whatever stands behind it. -/
def Takes {α : Type} (read : List Char → Except Error (α × List Char)) (used : List Char)
    (value : α) : Prop :=
  ∀ rest, read (used ++ rest) = .ok (value, rest)

section Read

variable {c close : Char} {text rest : List Char} {m : Member}

theorem exists_escapeText (read : readEscape text = .ok (m, rest)) :
    ∃ used, text = used ++ rest ∧ EscapeText used ∧ Takes readEscape used m := by
  unfold readEscape at read
  split at read
  · cases read
  · cases read
    exact ⟨['n'], rfl, .letter (by decide), fun _ => rfl⟩
  · cases read
    exact ⟨['r'], rfl, .letter (by decide), fun _ => rfl⟩
  · cases read
    exact ⟨['t'], rfl, .letter (by decide), fun _ => rfl⟩
  · rename_i first second behind
    split at read
    · rename_i value digits
      cases read
      refine ⟨['x', first, second], rfl, .hex digits, fun rest => ?_⟩
      simp only [List.cons_append, List.nil_append, readEscape, digits]
    · cases read
  · cases read
  · rename_i letter behind notN notR notT _ notX
    cases read
    refine ⟨[letter], rfl, .letter notX, fun rest => readEscape_char rest fun mem => ?_⟩
    simp only [List.mem_cons, List.not_mem_nil, or_false] at mem
    exact mem.elim notN fun mem => mem.elim notR fun mem => mem.elim notT notX

theorem exists_memberText (inside : c ≠ close) (read : readMember c text = .ok (m, rest)) :
    ∃ used, text = used ++ rest ∧ Takes (readMember c) used m ∧
      ∀ {behind}, Body close behind → Body close (c :: (used ++ behind)) := by
  rw [readMember] at read
  by_cases escape : c = '\\'
  · subst escape
    obtain ⟨used, same, escapeText, takes⟩ := exists_escapeText read
    exact ⟨used, same, takes, .escape escapeText⟩
  · rw [if_neg escape] at read
    cases read
    exact ⟨[], rfl, fun rest => readMember_char rest escape, .plain escape inside⟩

theorem Body.exists_append_close (body : Body close text) : ∃ before, text = before ++ [close] := by
  induction body with
  | close => exact ⟨[], rfl⟩
  | @plain c _ _ _ _ ih =>
      obtain ⟨before, same⟩ := ih
      exact ⟨c :: before, by rw [same, List.cons_append]⟩
  | @escape text _ _ _ ih =>
      obtain ⟨before, same⟩ := ih
      exact ⟨'\\' :: (text ++ before), by rw [same, List.cons_append, List.append_assoc]⟩

theorem rangeEnd?_eq_some {d : Char} (dash : rangeEnd? text = some (d, rest)) :
    text = '-' :: d :: rest ∧ d ≠ ']' := by
  unfold rangeEnd? at dash
  split at dash
  · split at dash
    · cases dash
    · rename_i inside
      cases dash
      exact ⟨rfl, inside⟩
  · cases dash

theorem rangeEnd?_eq_none_of_body (body : Body ']' text) {behind : List Char}
    (alone : rangeEnd? (text ++ behind) = none) (rest : List Char) :
    rangeEnd? (text ++ rest) = none := by
  obtain ⟨before, rfl⟩ := body.exists_append_close
  match before with
  | [] => rfl
  | [c] => by_cases dash : c = '-' <;> simp [rangeEnd?, dash]
  | c :: d :: more => by_cases dash : c = '-' <;> simp_all [rangeEnd?]

theorem exists_body_of_readMembers {cls found : Class}
    (read : readMembers cls text = .ok (found, rest)) :
    ∃ used, text = used ++ rest ∧ Body ']' used ∧ Takes (readMembers cls) used found := by
  fun_induction readMembers cls text with
  | case1 => cases read
  | case2 =>
      cases read
      exact ⟨[']'], rfl, .close, fun rest => by simp [readMembers]⟩
  | case3 => cases read
  | case4 cls c text inside lo afterLo loRead alone ih =>
      obtain ⟨usedLo, same, takesLo, bodyLo⟩ := exists_memberText inside loRead
      obtain ⟨used, sameToo, body, takes⟩ := ih read
      refine ⟨c :: (usedLo ++ used), by simp [same, sameToo], bodyLo body, fun rest => ?_⟩
      rw [sameToo] at alone
      rw [List.cons_append, List.append_assoc, readMembers_member inside (takesLo (used ++ rest))
        (rangeEnd?_eq_none_of_body body alone rest)]
      exact takes rest
  | case5 => cases read
  | case6 => cases read
  | case7 cls c text inside lo afterLo loRead d behind dash hi afterHi hiRead grown grows ih =>
      obtain ⟨sameDash, insideHi⟩ := rangeEnd?_eq_some dash
      obtain ⟨usedLo, sameLo, takesLo, bodyLo⟩ := exists_memberText inside loRead
      obtain ⟨usedHi, sameHi, takesHi, bodyHi⟩ := exists_memberText insideHi hiRead
      obtain ⟨used, same, body, takes⟩ := ih read
      refine ⟨c :: (usedLo ++ '-' :: d :: (usedHi ++ used)), by simp [sameLo, sameDash, sameHi, same],
        bodyLo (.plain (by decide) (by decide) (bodyHi body)), fun rest => ?_⟩
      have range : rangeEnd? ('-' :: d :: (usedHi ++ (used ++ rest))) =
          some (d, usedHi ++ (used ++ rest)) := by simp [rangeEnd?, insideHi]
      have shape : c :: (usedLo ++ '-' :: d :: (usedHi ++ used)) ++ rest =
          c :: (usedLo ++ '-' :: d :: (usedHi ++ (used ++ rest))) := by simp
      rw [shape, readMembers_range inside (takesLo _) range (takesHi _) grows]
      exact takes rest

theorem exists_body_of_readClass {found : Class} (read : readClass text = .ok (found, rest)) :
    ∃ used, text = used ++ rest ∧ Body ']' used ∧ Takes readClass used found := by
  unfold readClass at read
  split at read
  · obtain ⟨used, same, body, takes⟩ := exists_body_of_readMembers read
    exact ⟨'^' :: used, by rw [same, List.cons_append], .plain (by decide) (by decide) body, takes⟩
  · rename_i notNegated
    obtain ⟨used, same, body, takes⟩ := exists_body_of_readMembers read
    refine ⟨used, same, body, fun rest => ?_⟩
    rw [← takes rest]
    unfold readClass
    split
    · rename_i behind negated
      obtain ⟨before, rfl⟩ := body.exists_append_close
      cases before with
      | nil => cases negated
      | cons c before =>
          cases negated
          exact absurd same (notNegated _)
    · rfl

theorem readQuoted_member {bytes : List UInt8} (inside : c ≠ '"')
    (read : readMember c text = .ok (m, rest)) :
    readQuoted bytes (c :: text) = readQuoted (bytes ++ m.bytes) rest := by
  rw [readQuoted]
  · split
    · rename_i failed
      rw [read] at failed
      cases failed
    · rename_i taken
      rw [read] at taken
      cases taken
      rfl
  · exact inside

theorem exists_body_of_readQuoted {bytes found : List UInt8}
    (read : readQuoted bytes text = .ok (found, rest)) :
    ∃ used, text = used ++ rest ∧ Body '"' used ∧ Takes (readQuoted bytes) used found := by
  fun_induction readQuoted bytes text with
  | case1 => cases read
  | case2 =>
      cases read
      exact ⟨['"'], rfl, .close, fun rest => by simp [readQuoted]⟩
  | case3 => cases read
  | case4 bytes c text inside m afterMember memberRead ih =>
      obtain ⟨usedHere, sameHere, takesHere, bodyHere⟩ := exists_memberText inside memberRead
      obtain ⟨used, same, body, takes⟩ := ih read
      refine ⟨c :: (usedHere ++ used), by simp [sameHere, same], bodyHere body, fun rest => ?_⟩
      rw [List.cons_append, List.append_assoc, readQuoted_member inside (takesHere (used ++ rest))]
      exact takes rest

section Piece

variable {piece : Piece}

theorem exists_of_map_ok {α : Type} {reader : List Char → Except Error (α × List Char)} {f : α → Piece}
    (read : (reader text).map (fun r => (f r.1, r.2)) = .ok (piece, rest)) :
    ∃ a, reader text = .ok (a, rest) ∧ f a = piece := by
  cases given : reader text with
  | error e =>
      rw [given] at read
      cases read
  | ok pair =>
      rw [given] at read
      cases read
      exact ⟨pair.1, rfl, rfl⟩

theorem readPiece_escape (text : List Char) :
    readPiece '\\' text = (readEscape text).map fun r => (r.1.piece, r.2) :=
  if_pos rfl

theorem readPiece_class (text : List Char) :
    readPiece '[' text = (readClass text).map fun r => (.cls r.1, r.2) := by
  rw [readPiece, if_neg (by decide), if_pos rfl]

theorem readPiece_quoted (text : List Char) :
    readPiece '"' text = (readQuoted [] text).map fun r => (.atom (.literal r.1), r.2) := by
  rw [readPiece, if_neg (by decide), if_neg (by decide), if_pos rfl]

theorem readPiece_single (plain : c ∉ ['\\', '[', '"']) (text : List Char) :
    readPiece c text = .ok (if isOperator c then .operator c else (Member.char c).piece, text) := by
  simp only [List.mem_cons, List.not_mem_nil, or_false, not_or] at plain
  obtain ⟨escape, bracket, quote⟩ := plain
  rw [readPiece, if_neg escape, if_neg bracket, if_neg quote]
  split <;> rfl

/-- A piece is read from a unit, whatever stands behind it. -/
theorem exists_unitText (read : readPiece c text = .ok (piece, rest)) :
    ∃ used, text = used ++ rest ∧ UnitText (c :: used) ∧ Takes (readPiece c) used piece := by
  by_cases escape : c = '\\'
  · subst escape
    obtain ⟨m, found, rfl⟩ := exists_of_map_ok read
    obtain ⟨used, same, escape, takes⟩ := exists_escapeText found
    refine ⟨used, same, .escape escape, fun rest => ?_⟩
    rw [readPiece_escape, takes]
    rfl
  by_cases bracket : c = '['
  · subst bracket
    rw [readPiece_class] at read
    obtain ⟨cls, found, rfl⟩ := exists_of_map_ok read
    obtain ⟨used, same, body, takes⟩ := exists_body_of_readClass found
    refine ⟨used, same, .cls body, fun rest => ?_⟩
    rw [readPiece_class, takes]
    rfl
  by_cases quote : c = '"'
  · subst quote
    rw [readPiece_quoted] at read
    obtain ⟨bytes, found, rfl⟩ := exists_of_map_ok (f := fun bytes => .atom (.literal bytes)) read
    obtain ⟨used, same, body, takes⟩ := exists_body_of_readQuoted found
    refine ⟨used, same, .quoted body, fun rest => ?_⟩
    rw [readPiece_quoted, takes]
    rfl
  have plain : c ∉ ['\\', '[', '"'] := by simp [escape, bracket, quote]
  rw [readPiece_single plain] at read
  cases read
  exact ⟨[], rfl, .single plain, readPiece_single plain⟩

theorem readPiece_error_of_append {behind : List Char} {e : Error}
    (misread : readPiece c (text ++ behind) = .error e) : ∃ e, readPiece c text = .error e := by
  cases read : readPiece c text with
  | error e => exact ⟨e, rfl⟩
  | ok pair =>
      obtain ⟨used, same, -, takes⟩ := exists_unitText read
      rw [same, List.append_assoc, takes] at misread
      cases misread

theorem readPieces_error {e : Error} (misread : readPiece c text = .error e) :
    readPieces (c :: text) = ([], some e) := by
  rw [readPieces]
  split
  · rename_i other
    rw [misread] at other
    cases other
    rfl
  · rename_i other
    rw [misread] at other
    cases other

theorem parseChars_piece {u : Universe} {p : Pattern} (read : readPiece c text = .ok (piece, []))
    (pushed : (Builder.new u).push piece = (Builder.new u).pushAtom p) :
    parseChars u (c :: text) = .ok p := by
  have waiting : (Builder.new u).pushAtom p = (none, ⟨u, ⟨[p, .empty], [.concat]⟩⟩) := rfl
  have finished : Builder.finish ⟨u, ⟨[p, .empty], [.concat]⟩⟩ = .ok p := by
    have joined : concat .empty p = p := empty_concat p
    simp only [Builder.finish, applyAll, Op.apply?, joined]
  rw [parseChars, readPieces_cons read, readPieces]
  simp only [Builder.pushAll, pushed, waiting, finished]

end Piece

end Read

/-- The positions that reading a text unit by unit comes to. -/
inductive Boundary (text : List Char) : Nat → Prop where
  | start : Boundary text 0
  | next {k : Nat} {c : Char} {behind rest : List Char} {piece : Piece} (before : Boundary text k)
      (here : text.drop k = c :: behind) (read : readPiece c behind = .ok (piece, rest)) :
      Boundary text (text.length - rest.length)

/-- The unit at a position is bad: it cannot be read, or it is a class that stands for no pattern. -/
def Misread (u : Universe) (text : List Char) (k : Nat) : Prop :=
  ∃ c behind, text.drop k = c :: behind ∧
    ((∃ e, readPiece c behind = .error e) ∨
      ∃ cls rest e, readPiece c behind = .ok (.cls cls, rest) ∧ cls.toPattern u = .error e)

section Boundary

variable {text : List Char} {k : Nat}

theorem take_eq_append_unit {c : Char} {used rest : List Char}
    (here : text.drop k = c :: (used ++ rest)) :
    text.length - rest.length = k + (used.length + 1) ∧
      text.take (k + (used.length + 1)) = text.take k ++ c :: used ∧
      text.drop (k + (used.length + 1)) = rest := by
  have lengths := congrArg List.length here
  rw [List.length_drop, List.length_cons, List.length_append] at lengths
  refine ⟨by omega, ?_, ?_⟩
  · rw [List.take_add, here, List.take_succ_cons, List.take_left]
  · rw [← List.drop_drop, here, List.drop_succ_cons, List.drop_left]

theorem Boundary.le_length (boundary : Boundary text k) : k ≤ text.length := by
  cases boundary with
  | start => exact Nat.zero_le _
  | next _ _ _ => exact Nat.sub_le _ _

/-- The text before a boundary is read as the same pieces, whatever stands behind it. -/
theorem Boundary.exists_pieces (boundary : Boundary text k) :
    ∃ pieces, ∀ rest, readPieces (text.take k ++ rest) =
      (pieces ++ (readPieces rest).1, (readPieces rest).2) := by
  induction boundary with
  | start => exact ⟨[], fun rest => rfl⟩
  | @next _ _ _ _ piece before here read ih =>
      obtain ⟨pieces, readBefore⟩ := ih
      obtain ⟨used, rfl, -, takes⟩ := exists_unitText read
      obtain ⟨position, taken, -⟩ := take_eq_append_unit here
      refine ⟨pieces ++ [piece], fun rest => ?_⟩
      rw [position, taken, List.append_assoc, readBefore, List.cons_append,
        readPieces_cons (takes rest), List.append_assoc]
      rfl

/-- From a boundary, reading comes to the end of the text or to a bad unit. -/
theorem Boundary.exists_end (u : Universe) (boundary : Boundary text k) :
    ∃ l, k ≤ l ∧ Boundary text l ∧ (l = text.length ∨ Misread u text l) := by
  induction left : text.length - k using Nat.strongRecOn generalizing k with
  | ind n ih =>
      have inside := boundary.le_length
      cases here : text.drop k with
      | nil =>
          have atEnd : text.length ≤ k := List.drop_eq_nil_iff.mp here
          exact ⟨k, Nat.le_refl k, boundary, .inl (Nat.le_antisymm inside atEnd)⟩
      | cons c behind =>
          cases read : readPiece c behind with
          | error e => exact ⟨k, Nat.le_refl k, boundary, .inr ⟨c, behind, here, .inl ⟨e, read⟩⟩⟩
          | ok pair =>
              obtain ⟨used, rfl, -, -⟩ := exists_unitText read
              obtain ⟨position, -, -⟩ := take_eq_append_unit here
              have next := boundary.next here read
              obtain ⟨l, le, there, ended⟩ := ih (text.length - (text.length - pair.2.length))
                (by have := next.le_length; omega) next rfl
              exact ⟨l, by omega, there, ended⟩

theorem parseChars_error_of_readPieces {u : Universe} {e : Error}
    (unread : (readPieces text).2 = some e) : ∃ e, parseChars u text = .error e := by
  rw [parseChars]
  generalize readPieces text = read at unread
  obtain ⟨pieces, error⟩ := read
  cases unread
  cases taken : (Builder.new u).pushAll pieces with
  | error early => exact ⟨early, by simp only [taken]⟩
  | ok b => exact ⟨e, by simp only [taken]⟩

theorem parseChars_error_of_badPiece {u : Universe} {cls : Class} {before after : List Piece}
    {e : Error} (bad : cls.toPattern u = .error e)
    (read : (readPieces text).1 = before ++ .cls cls :: after) :
    ∃ e, parseChars u text = .error e := by
  rw [parseChars]
  generalize readPieces text = pair at read
  obtain ⟨pieces, error⟩ := pair
  have same : pieces = before ++ .cls cls :: after := read
  subst same
  cases taken : (Builder.new u).pushAll (before ++ .cls cls :: after) with
  | error e => exact ⟨e, by simp only [taken]⟩
  | ok b =>
      -- every piece that a builder takes stands for a terminal, and this class for none
      obtain ⟨v, spells⟩ := exists_forall₂_spells taken
      obtain ⟨lengths, each⟩ := List.forall₂_iff_get.mp spells
      have inside : before.length < (before ++ Piece.cls cls :: after).length := by
        rw [List.length_append, List.length_cons]
        omega
      have here := each before.length inside (lengths ▸ inside)
      simp only [List.get_eq_getElem, List.getElem_append_right (Nat.le_refl _), Nat.sub_self,
        List.getElem_cons_zero] at here
      generalize v[before.length] = x at here
      cases here with
      | cls found =>
          rw [show (Builder.new u).alphabet = u from rfl, bad] at found
          cases found

theorem Boundary.parseChars_error_of_unread {u : Universe} {c : Char} {behind : List Char} {e : Error}
    {cut : Nat} (boundary : Boundary text k) (here : text.drop k = c :: behind)
    (unread : readPiece c behind = .error e) (after : k < cut) :
    ∃ e, parseChars u (text.take cut) = .error e := by
  obtain ⟨pieces, readBefore⟩ := boundary.exists_pieces
  obtain ⟨more, rfl⟩ := Nat.exists_eq_add_of_le after
  have shape : text.take (k + 1 + more) = text.take k ++ c :: behind.take more := by
    rw [Nat.add_assoc, Nat.add_comm 1, List.take_add, here, List.take_succ_cons]
  -- what was cut off is not what the unit failed for
  rw [← List.take_append_drop more behind] at unread
  obtain ⟨e, stillUnread⟩ := readPiece_error_of_append unread
  apply parseChars_error_of_readPieces
  rw [shape, readBefore, readPieces_error stillUnread]

theorem Boundary.parseChars_error_of_badClass {u : Universe} {c : Char} {behind rest : List Char}
    {cls : Class} {e : Error} {cut : Nat} (boundary : Boundary text k)
    (here : text.drop k = c :: behind) (read : readPiece c behind = .ok (.cls cls, rest))
    (bad : cls.toPattern u = .error e) (whole : text.length - rest.length ≤ cut) :
    ∃ e, parseChars u (text.take cut) = .error e := by
  obtain ⟨pieces, readBefore⟩ := boundary.exists_pieces
  obtain ⟨used, rfl, -, takes⟩ := exists_unitText read
  obtain ⟨position, taken, dropped⟩ := take_eq_append_unit here
  obtain ⟨more, rfl⟩ := Nat.exists_eq_add_of_le (position ▸ whole)
  have shape : text.take (k + (used.length + 1) + more) =
      text.take k ++ c :: (used ++ rest.take more) := by
    rw [List.take_add, taken, dropped, List.append_assoc, List.cons_append]
  apply parseChars_error_of_badPiece bad
  rw [shape, readBefore, readPieces_cons (takes _)]

/-- A text is no pattern if it is cut off behind the beginning of a bad unit, and behind the whole unit
if that can be read. -/
theorem Boundary.parseChars_error {u : Universe} (boundary : Boundary text k)
    (misread : Misread u text k) {cut : Nat} (after : k < cut)
    (whole : ∀ {c behind piece rest}, text.drop k = c :: behind →
      readPiece c behind = .ok (piece, rest) → text.length - rest.length ≤ cut) :
    ∃ e, parseChars u (text.take cut) = .error e := by
  obtain ⟨c, behind, here, unread | badClass⟩ := misread
  · obtain ⟨e, unread⟩ := unread
    exact boundary.parseChars_error_of_unread here unread after
  · obtain ⟨cls, rest, e, read, bad⟩ := badClass
    exact boundary.parseChars_error_of_badClass here read bad (whole here read)

end Boundary

end Munch.Pattern
