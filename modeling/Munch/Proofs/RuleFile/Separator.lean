import Mathlib.Data.Nat.Find
import Munch.Proofs.Pattern.Units
import Munch.Proofs.RuleFile.ByteSearch

/-!
The arrow that ends a pattern, as the pattern is read.

The search for the arrow runs over the characters with two flags, and a pattern is read unit by unit.
The search passes over a unit in the state in which it came to it (`arrowOffset?_unit`), so it finds
the first arrow at a boundary of units (`arrowOffset?_of_boundary`).  Where a unit is bad, the search
may lose its way, but then what it cuts out is no pattern (`Stuck.parseChars_error`).
-/

set_option autoImplicit false

namespace Munch.RuleFile

open Pattern (Boundary Misread EscapeText Body UnitText parseChars)

/-- The search passes over a text, whatever stands behind it, and comes out with other flags. -/
def Passes (inClass inQuotes : Bool) (text : List Char) (inClass' inQuotes' : Bool) : Prop :=
  ∀ rest, arrowOffset? inClass inQuotes (text ++ rest) =
    (arrowOffset? inClass' inQuotes' rest).map (· + text.length)

section Passes

variable {inClass inQuotes inClass' inQuotes' : Bool} {c : Char} {text : List Char}

theorem Passes.append {text' : List Char} {inClass'' inQuotes'' : Bool}
    (first : Passes inClass inQuotes text inClass' inQuotes')
    (second : Passes inClass' inQuotes' text' inClass'' inQuotes'') :
    Passes inClass inQuotes (text ++ text') inClass'' inQuotes'' := by
  intro rest
  rw [List.append_assoc, first, second, Option.map_map, List.length_append]
  congr 1
  funext k
  simp only [Function.comp_apply]
  omega

theorem arrowOffset?_cons (plain : c ≠ '\\') (inClass inQuotes : Bool) (rest : List Char) :
    arrowOffset? inClass inQuotes (c :: rest) =
      if c = '=' && !inClass && !inQuotes && rest.head? = some '>' then some 0
      else
        (arrowOffset?
          (if c = '[' && !inClass && !inQuotes then true
            else if c = ']' && inClass then false else inClass)
          (if c = '"' && !inClass then !inQuotes else inQuotes) rest).map (· + 1) := by
  rw [arrowOffset?]
  · exact fun same _ => plain same
  · exact fun _ _ same _ => plain same

theorem passes_ordinary (ordinary : c ∉ ['\\', '=', '"', '[', ']']) (inClass inQuotes : Bool) :
    Passes inClass inQuotes [c] inClass inQuotes := by
  intro rest
  simp only [List.mem_cons, List.not_mem_nil, or_false, not_or] at ordinary
  obtain ⟨escape, equals, quote, opening, closing⟩ := ordinary
  rw [List.singleton_append, arrowOffset?_cons escape]
  simp [equals, quote, opening, closing]

theorem passes_member (escape : c ≠ '\\') (closing : c ≠ ']') : Passes true false [c] true false := by
  intro rest
  rw [List.singleton_append, arrowOffset?_cons escape]
  simp [closing]

theorem passes_quoted (escape : c ≠ '\\') (closing : c ≠ '"') : Passes false true [c] false true := by
  intro rest
  rw [List.singleton_append, arrowOffset?_cons escape]
  simp [closing]

theorem hexPair?_ordinary {c d : Char} {value : Nat} (digits : Pattern.hexPair? c d = some value) :
    c ∉ ['\\', '=', '"', '[', ']'] ∧ d ∉ ['\\', '=', '"', '[', ']'] := by
  have noDigit : ∀ x ∈ ['\\', '=', '"', '[', ']'], Text.hexValue? x = none ∧ x ≠ '+' := by
    intro x mem
    simp only [List.mem_cons, List.not_mem_nil, or_false] at mem
    rcases mem with rfl | rfl | rfl | rfl | rfl <;> exact ⟨rfl, by decide⟩
  constructor
  · intro mem
    obtain ⟨none, notPlus⟩ := noDigit c mem
    rw [Pattern.hexPair?, none] at digits
    cases low : Text.hexValue? d <;> simp [low, notPlus] at digits
  · intro mem
    rw [Pattern.hexPair?, (noDigit d mem).1] at digits
    cases high : Text.hexValue? c <;> simp [high] at digits

theorem passes_escape (escape : EscapeText text) (inClass inQuotes : Bool) :
    Passes inClass inQuotes ('\\' :: text) inClass inQuotes := by
  have skipped : ∀ c, Passes inClass inQuotes ['\\', c] inClass inQuotes := by
    intro c rest
    rfl
  cases escape with
  | letter plain => exact skipped _
  | hex digits =>
      obtain ⟨high, low⟩ := hexPair?_ordinary digits
      exact (skipped 'x').append ((passes_ordinary high _ _).append (passes_ordinary low _ _))

theorem passes_body {close : Char}
    (stays : ∀ c, c ≠ '\\' → c ≠ close → Passes inClass inQuotes [c] inClass inQuotes)
    (leaves : Passes inClass inQuotes [close] false false) (body : Body close text) :
    Passes inClass inQuotes text false false := by
  induction body with
  | close => exact leaves
  | plain escape inside _ ih => exact (stays _ escape inside).append ih
  | escape escape _ ih => exact (passes_escape escape _ _).append ih

theorem arrowOffset?_unit (unit : UnitText text) {rest : List Char}
    (noArrow : ¬ ['=', '>'] <+: text ++ rest) :
    arrowOffset? false false (text ++ rest) =
      (arrowOffset? false false rest).map (· + text.length) := by
  cases unit with
  | escape escape => exact passes_escape escape _ _ rest
  | cls body =>
      have opens : Passes false false ['['] true false := fun rest => rfl
      have closes : Passes true false [']'] false false := fun rest => rfl
      exact opens.append (passes_body (fun c => passes_member) closes body) rest
  | quoted body =>
      have opens : Passes false false ['"'] false true := fun rest => rfl
      have closes : Passes false true ['"'] false false := fun rest => rfl
      exact opens.append (passes_body (fun c => passes_quoted) closes body) rest
  | @single c plain =>
      simp only [List.mem_cons, List.not_mem_nil, or_false, not_or] at plain
      obtain ⟨escape, opening, quote⟩ := plain
      have searching : (c = '=' && !false && !false && rest.head? = some '>') = false := by
        rw [Bool.eq_false_iff]
        intro arrow
        simp only [Bool.not_false, Bool.and_true, Bool.and_eq_true, decide_eq_true_eq] at arrow
        obtain ⟨rfl, follows⟩ := arrow
        obtain ⟨behind, rfl⟩ := List.head?_eq_some_iff.mp follows
        exact noArrow ⟨behind, rfl⟩
      rw [List.singleton_append, arrowOffset?_cons escape, searching]
      simp [opening, quote]

theorem arrow_of_arrowOffset? {offset : Nat}
    (found : arrowOffset? inClass inQuotes text = some offset) :
    ['=', '>'] <+: text.drop offset := by
  fun_induction arrowOffset? inClass inQuotes text generalizing offset with
  | case1 => cases found
  | case2 => cases found
  | case3 inClass inQuotes c rest ih =>
      obtain ⟨before, foundBefore, rfl⟩ := Option.map_eq_some_iff.mp found
      exact ih foundBefore
  | case4 inClass inQuotes c rest _ _ arrow =>
      cases found
      simp only [Bool.and_eq_true, decide_eq_true_eq] at arrow
      obtain ⟨behind, rfl⟩ := List.head?_eq_some_iff.mp arrow.2
      rw [arrow.1.1.1]
      exact ⟨behind, rfl⟩
  | case5 =>
      rename_i ih
      obtain ⟨before, foundBefore, rfl⟩ := Option.map_eq_some_iff.mp found
      exact ih foundBefore

end Passes

def ArrowAt (text : List Char) (k : Nat) : Prop :=
  ['=', '>'] <+: text.drop k

theorem splitArrow?_eq_some_iff {line before rest : List Char} :
    splitArrow? line = some (before, rest) ↔
      line = before ++ '=' :: '>' :: rest ∧ ∀ j < before.length, ¬ ArrowAt line j := by
  fun_induction splitArrow? line generalizing before with
  | case1 => simp
  | case2 rest' =>
      constructor
      · intro split
        cases split
        exact ⟨rfl, nofun⟩
      · rintro ⟨split, first⟩
        cases before with
        | nil =>
            cases split
            rfl
        | cons c before => exact absurd ⟨rest', rfl⟩ (first 0 (Nat.succ_pos _))
  | case3 c line noArrow ih =>
      constructor
      · intro split
        obtain ⟨⟨later, behind⟩, found, eq⟩ := Option.map_eq_some_iff.mp split
        cases eq
        obtain ⟨rfl, first⟩ := ih.mp found
        refine ⟨rfl, fun j inside => ?_⟩
        cases j with
        | zero =>
            rintro ⟨tail, same⟩
            simp only [List.cons_append, List.nil_append, List.drop_zero, List.cons.injEq] at same
            exact noArrow tail same.1.symm same.2.symm
        | succ j => exact first j (Nat.lt_of_succ_lt_succ inside)
      · rintro ⟨split, first⟩
        cases before with
        | nil =>
            cases split
            exact absurd rfl (noArrow rest rfl)
        | cons d before =>
            cases split
            rw [ih.mpr ⟨rfl, fun j inside => first (j + 1) (Nat.succ_lt_succ inside)⟩]
            rfl

theorem splitArrow?_spaced {before : List Char} (arrowless : ¬ ['=', '>'] <:+: before)
    (rest : List Char) :
    splitArrow? (before ++ ' ' :: '=' :: '>' :: rest) = some (before ++ [' '], rest) := by
  induction before with
  | nil => rfl
  | cons c before ih =>
      have later : ¬ ['=', '>'] <:+: before := fun arrow => arrowless (List.infix_cons arrow)
      rw [List.cons_append, splitArrow?, ih later]
      · rfl
      · rintro behind rfl begins
        cases before with
        | nil => cases begins
        | cons d before =>
            cases begins
            exact arrowless ⟨[], before, rfl⟩

section Boundary

variable {u : Universe} {text : List Char} {k : Nat}

/-- The search comes to every boundary with no arrow at a boundary before it. -/
theorem arrowOffset?_of_boundary (boundary : Boundary text k)
    (clear : ∀ j < k, Boundary text j → ¬ ArrowAt text j) :
    arrowOffset? false false text = (arrowOffset? false false (text.drop k)).map (· + k) := by
  induction boundary with
  | start => simp
  | next before here read ih =>
      obtain ⟨used, rfl, unit, -⟩ := Pattern.exists_unitText read
      obtain ⟨position, -, dropped⟩ := Pattern.take_eq_append_unit here
      rw [position] at clear ⊢
      have noArrow := clear _ (by omega) before
      rw [ArrowAt, here, ← List.cons_append] at noArrow
      rw [ih fun j lt => clear j (by omega), here, ← List.cons_append,
        arrowOffset?_unit unit noArrow, dropped, Option.map_map, List.length_cons]
      congr 1
      funext n
      simp only [Function.comp_apply]
      omega

theorem arrowOffset?_of_arrow (arrow : ArrowAt text k) :
    arrowOffset? false false (text.drop k) = some 0 := by
  obtain ⟨behind, same⟩ := arrow
  rw [← same]
  rfl

theorem splitAction_pattern (text : List Char) :
    (splitAction text).1 = text.take ((arrowOffset? false false text).getD text.length) := by
  rw [splitAction]
  cases arrowOffset? false false text with
  | none => exact List.take_length.symm
  | some offset => rfl

/-- Behind a boundary with no arrow there, the pattern that is cut out reaches over the first
character, and over the unit if it can be read. -/
theorem splitAction_reaches (boundary : Boundary text k)
    (clear : ∀ j ≤ k, Boundary text j → ¬ ArrowAt text j) {c : Char} {behind : List Char}
    (here : text.drop k = c :: behind) :
    k < (arrowOffset? false false text).getD text.length ∧
      ∀ {piece rest}, Pattern.readPiece c behind = .ok (piece, rest) →
        text.length - rest.length ≤ (arrowOffset? false false text).getD text.length := by
  have noArrow := clear k (Nat.le_refl k) boundary
  have inside : k < text.length := by
    refine Nat.lt_of_not_le fun beyond => ?_
    rw [List.drop_eq_nil_of_le beyond] at here
    cases here
  rw [arrowOffset?_of_boundary boundary fun j lt => clear j (Nat.le_of_lt lt)]
  cases found : arrowOffset? false false (text.drop k) with
  | none => exact ⟨inside, fun _ => Nat.sub_le _ _⟩
  | some offset =>
      have positive : offset ≠ 0 := by
        rintro rfl
        have arrow := arrow_of_arrowOffset? found
        rw [List.drop_zero] at arrow
        exact noArrow arrow
      refine ⟨?_, fun {piece rest} read => ?_⟩
      · simp only [Option.map_some, Option.getD_some]
        omega
      · obtain ⟨used, rfl, unit, -⟩ := Pattern.exists_unitText read
        obtain ⟨position, -, -⟩ := Pattern.take_eq_append_unit here
        rw [ArrowAt, here, ← List.cons_append] at noArrow
        rw [here, ← List.cons_append, arrowOffset?_unit unit noArrow] at found
        obtain ⟨more, -, rfl⟩ := Option.map_eq_some_iff.mp found
        simp only [List.length_cons, Option.map_some, Option.getD_some]
        omega

/-- Reading comes to a first boundary at which the text goes on with an arrow. -/
structure FirstArrow (text : List Char) (k : Nat) : Prop where
  boundary : Boundary text k
  arrow : ArrowAt text k
  first : ∀ j < k, Boundary text j → ¬ ArrowAt text j

/-- Reading comes to the end of the text, and to no arrow. -/
structure Arrowless (text : List Char) : Prop where
  boundary : Boundary text text.length
  clear : ∀ k, Boundary text k → ¬ ArrowAt text k

/-- Reading comes to a bad unit, and to no arrow before it. -/
structure Stuck (u : Universe) (text : List Char) (k : Nat) : Prop where
  boundary : Boundary text k
  misread : Misread u text k
  clear : ∀ j ≤ k, Boundary text j → ¬ ArrowAt text j

theorem FirstArrow.arrowOffset?_eq (found : FirstArrow text k) :
    arrowOffset? false false text = some k := by
  rw [arrowOffset?_of_boundary found.boundary found.first, arrowOffset?_of_arrow found.arrow,
    Option.map_some, Nat.zero_add]

theorem Arrowless.arrowOffset?_eq (arrowless : Arrowless text) :
    arrowOffset? false false text = none := by
  rw [arrowOffset?_of_boundary arrowless.boundary fun j _ => arrowless.clear j,
    List.drop_eq_nil_of_le (Nat.le_refl _)]
  rfl

/-- What is cut out around a bad unit is no pattern. -/
theorem Stuck.parseChars_error (stuck : Stuck u text k) :
    ∃ e, parseChars u (splitAction text).1 = .error e := by
  have ⟨_, _, here, _⟩ := stuck.misread
  rw [splitAction_pattern]
  refine stuck.boundary.parseChars_error stuck.misread
    (splitAction_reaches stuck.boundary stuck.clear here).1 ?_
  intro c behind piece rest here read
  exact (splitAction_reaches stuck.boundary stuck.clear here).2 read

theorem reading_cases (u : Universe) (text : List Char) :
    (∃ k, FirstArrow text k) ∨ Arrowless text ∨ ∃ k, Stuck u text k := by
  classical
  by_cases arrow : ∃ k, Boundary text k ∧ ArrowAt text k
  · obtain ⟨boundary, here⟩ := Nat.find_spec arrow
    exact .inl ⟨_, boundary, here, fun j lt boundary here => Nat.find_min arrow lt ⟨boundary, here⟩⟩
  · have clear : ∀ j, Boundary text j → ¬ ArrowAt text j :=
      fun j boundary here => arrow ⟨j, boundary, here⟩
    have beginning : Boundary text 0 := .start
    obtain ⟨k, -, boundary, rfl | misread⟩ := beginning.exists_end u
    · exact .inr (.inl ⟨boundary, clear⟩)
    · exact .inr (.inr ⟨k, boundary, misread, fun j _ => clear j⟩)

end Boundary

/-- The search for the arrow and the reading of patterns agree on every text.  Reading comes to a first
arrow, to the end or to a bad unit.  In the first case the search finds this arrow and in the second
none, and in the third what it cuts out is no pattern.  Over bytes the search finds the same, and
characters begin at the arrow and behind it. -/
theorem arrowOffset?_spec (u : Universe) (text : String) :
    ((∃ k, FirstArrow text.toList k) ∨ Arrowless text.toList ∨ ∃ k, Stuck u text.toList k) ∧
    (∀ k, FirstArrow text.toList k → arrowOffset? false false text.toList = some k) ∧
    (Arrowless text.toList → arrowOffset? false false text.toList = none) ∧
    (∀ k, Stuck u text.toList k → ∃ e, parseChars u (splitAction text.toList).1 = .error e) ∧
    arrowByteOffset? false false (bytes text) =
      (arrowOffset? false false text.toList).map
        (fun k => (String.ofList (text.toList.take k)).utf8ByteSize) ∧
    ∀ offset, arrowByteOffset? false false (bytes text) = some offset →
      String.Pos.Raw.IsValid text ⟨offset⟩ ∧ String.Pos.Raw.IsValid text ⟨offset + 2⟩ := by
  have overBytes := arrowByteOffset?_encode false false text.toList
  rw [← bytes_eq_encode] at overBytes
  refine ⟨reading_cases u text.toList, fun k => FirstArrow.arrowOffset?_eq,
    Arrowless.arrowOffset?_eq, fun k => Stuck.parseChars_error, ?_, fun offset found => ?_⟩
  · simp only [overBytes, utf8ByteSize_ofList_eq]
  · rw [overBytes] at found
    obtain ⟨k, search, rfl⟩ := Option.map_eq_some_iff.mp found
    obtain ⟨behind, arrow⟩ := arrow_of_arrowOffset? search
    have next : (encode (text.toList.take (k + 2))).length =
        (encode (text.toList.take k)).length + 2 := by
      rw [List.take_add, ← arrow, encode, List.flatMap_append, List.length_append]
      rfl
    exact ⟨isValid_encode_take text k, next ▸ isValid_encode_take text (k + 2)⟩

end Munch.RuleFile
