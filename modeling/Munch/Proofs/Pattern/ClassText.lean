import Munch.Proofs.Pattern.ClassItems
import Munch.Proofs.Pattern.Language
import Munch.Proofs.Pattern.Units

/-!
Classes as they are written, and what they are read as.

A class is written item by item, with a caret in front if it is negated, and a bare minus sign may stand
before the first item or behind the last (`ClassText`).  It is refused for its first wrong item, and
otherwise stands for what its items hold, or for the other bytes of the universe if it is negated and
has no wide characters (`parse_classText`).
-/

set_option autoImplicit false

namespace Munch.Pattern

inductive Dash where
  | absent
  | first
  | last
  deriving DecidableEq

/-- A class as it is written. -/
structure ClassText where
  negated : Bool
  dash : Dash
  items : List ItemText

namespace ClassText

def itemChars (t : ClassText) : List Char :=
  t.items.flatMap ItemText.chars

def inner (t : ClassText) : List Char :=
  match t.dash with
  | .absent => t.itemChars
  | .first => '-' :: t.itemChars
  | .last => t.itemChars ++ ['-']

def body (t : ClassText) : List Char :=
  (if t.negated then ['^'] else []) ++ t.inner ++ [']']

def text (t : ClassText) : String :=
  String.ofList ('[' :: t.body)

def fault? (t : ClassText) : Option Error :=
  t.items.findSome? ItemText.fault?

def Holds (t : ClassText) (b : UInt8) : Prop :=
  (∃ item ∈ t.items, item.Holds b) ∨ b = 0x2d ∧ t.dash ≠ .absent

def wides (t : ClassText) : List Char :=
  t.items.filterMap ItemText.wide?

end ClassText

namespace ClassText

variable {cls : Class} {rest : List Char}

theorem rangeEnd?_itemChars (t : ClassText) (alone : rangeEnd? rest = none) :
    rangeEnd? (t.itemChars ++ rest) = none :=
  rangeEnd?_items alone

theorem readMembers_itemChars_error (t : ClassText) {e : Error} (fault : t.fault? = some e)
    (alone : rangeEnd? rest = none) : readMembers cls (t.itemChars ++ rest) = .error e := by
  rw [itemChars, readMembers_items t.items alone, Class.foldlM_addItem_error cls fault]
  rfl

theorem exists_readMembers_itemChars (t : ClassText) (sound : t.fault? = none) (cls : Class)
    (rest : List Char) (alone : rangeEnd? rest = none) :
    ∃ grown, readMembers cls (t.itemChars ++ rest) = readMembers grown rest ∧
      cls.Gains grown (fun b => ∃ item ∈ t.items, item.Holds b) t.wides := by
  obtain ⟨grown, added, gains⟩ := Class.exists_foldlM_addItem cls sound
  refine ⟨grown, ?_, gains⟩
  rw [itemChars, readMembers_items t.items alone, added]
  rfl

theorem readMembers_dash (alone : rangeEnd? rest = none) :
    readMembers cls ('-' :: rest) = readMembers (cls.addByte 0x2d) rest :=
  readMembers_member (by decide) (readMember_char rest (by decide)) alone

theorem readMembers_close (cls : Class) : readMembers cls [']'] = .ok (cls, []) := by
  rw [readMembers]

theorem readMembers_inner_error (t : ClassText) {e : Error} (fault : t.fault? = some e) :
    readMembers cls (t.inner ++ [']']) = .error e := by
  rw [inner]
  cases t.dash with
  | absent => exact t.readMembers_itemChars_error fault rfl
  | first =>
      rw [List.cons_append, readMembers_dash (t.rangeEnd?_itemChars rfl)]
      exact t.readMembers_itemChars_error fault rfl
  | last =>
      rw [List.append_assoc]
      exact t.readMembers_itemChars_error fault rfl

theorem exists_readMembers_inner (t : ClassText) (sound : t.fault? = none) (cls : Class) :
    ∃ grown, readMembers cls (t.inner ++ [']']) = .ok (grown, []) ∧
      cls.Gains grown t.Holds t.wides := by
  rw [inner]
  cases dash : t.dash with
  | absent =>
      obtain ⟨grown, read, gains⟩ := t.exists_readMembers_itemChars sound cls [']'] rfl
      refine ⟨grown, read.trans (readMembers_close grown), ?_⟩
      exact gains.congr fun b => by simp [Holds, dash]
  | first =>
      have minus := cls.gains_addByte 0x2d
      obtain ⟨grown, read, gains⟩ :=
        t.exists_readMembers_itemChars sound (cls.addByte 0x2d) [']'] rfl
      refine ⟨grown, ?_, ?_⟩
      · rw [List.cons_append, readMembers_dash (t.rangeEnd?_itemChars rfl)]
        exact read.trans (readMembers_close grown)
      · exact (minus.trans gains).congr fun b => by simp [Holds, dash, or_comm]
  | last =>
      obtain ⟨grown, read, gains⟩ := t.exists_readMembers_itemChars sound cls ['-', ']'] rfl
      have minus := grown.gains_addByte 0x2d
      refine ⟨grown.addByte 0x2d, ?_, ?_⟩
      · rw [List.append_assoc]
        exact read.trans ((readMembers_dash rfl).trans (readMembers_close _))
      · have both := gains.trans minus
        rw [List.append_nil] at both
        exact both.congr fun b => by simp [Holds, dash]

theorem avoids_caret_inner (t : ClassText) : Avoids '^' (t.inner ++ [']']) := by
  have items (rest : List Char) (apart : Avoids '^' rest) : Avoids '^' (t.itemChars ++ rest) := by
    rw [itemChars]
    cases t.items with
    | nil => exact apart
    | cons item later =>
        have member (m : MemberText) (rest : List Char) : Avoids '^' (m.chars ++ rest) := by
          obtain ⟨c, tail, text, -, -, caret, -⟩ := m.exists_read
          rw [text]
          exact fun same => caret (Option.some.inj same)
        rw [List.flatMap_cons, List.append_assoc]
        cases item with
        | single m => exact member m _
        | interval lo hi =>
            rw [ItemText.chars, List.append_assoc]
            exact member lo _
  rw [inner]
  cases t.dash with
  | absent => exact items [']'] (by simp [Avoids])
  | first => simp [Avoids]
  | last =>
      rw [List.append_assoc]
      exact items ['-', ']'] (by simp [Avoids])

/-- A sign of a negation counts in front only. -/
theorem readClass_body (t : ClassText) :
    readClass t.body = readMembers { Class.empty with negated := t.negated } (t.inner ++ [']']) := by
  rw [body]
  cases t.negated with
  | true => rfl
  | false =>
      have apart := t.avoids_caret_inner
      rw [if_neg Bool.false_ne_true, List.nil_append]
      unfold readClass
      split
      · rename_i caret
        rw [caret] at apart
        exact absurd rfl apart
      · rfl

theorem readClass_error (t : ClassText) {e : Error} (fault : t.fault? = some e) :
    readClass t.body = .error e :=
  t.readClass_body.trans (t.readMembers_inner_error fault)

/-- A class with no wrong item is read to its end, and holds what its items hold. -/
theorem exists_readClass (t : ClassText) (sound : t.fault? = none) :
    ∃ cls, readClass t.body = .ok (cls, []) ∧ cls.negated = t.negated ∧ cls.wide = t.wides ∧
      ∀ b, b ∈ cls.bytes ↔ t.Holds b := by
  obtain ⟨cls, read, gains⟩ :=
    t.exists_readMembers_inner sound { Class.empty with negated := t.negated }
  refine ⟨cls, t.readClass_body.trans read, gains.negated_eq, gains.wide_eq, fun b => ?_⟩
  exact (gains.mem_iff b).trans (or_iff_right (ByteSet.not_mem_empty b))

end ClassText

namespace Class

variable {cls : Class} {w : List UInt8}

theorem exists_alternatives_matches (cls : Class) (w : List UInt8) :
    (∃ p ∈ cls.alternatives, Matches p w) ↔
      (∃ b ∈ cls.bytes, w = [b]) ∨ ∃ c ∈ cls.wide, w = String.utf8EncodeChar c := by
  have bytes : (∃ p ∈ (if cls.bytes.isEmpty then [] else [Pattern.range cls.bytes]), Matches p w) ↔
      ∃ b ∈ cls.bytes, w = [b] := by
    split
    · rename_i empty
      simp [ByteSet.not_mem_of_isEmpty empty]
    · simp [matches_range_iff]
  simp only [alternatives, List.mem_append, or_and_right, exists_or, bytes]
  simp [matches_literal_iff]

theorem exists_toPattern (u : Universe) (plain : cls.negated = false) :
    ∃ p, cls.toPattern u = .ok p ∧ ∀ w, Matches p w ↔
      (∃ b ∈ cls.bytes, w = [b]) ∨ ∃ c ∈ cls.wide, w = String.utf8EncodeChar c := by
  have offered := cls.exists_alternatives_matches
  unfold toPattern
  split
  · rename_i negated _
    rw [plain] at negated
    cases negated
  · rename_i negated _
    rw [plain] at negated
    cases negated
  · rename_i none
    refine ⟨_, rfl, fun w => ?_⟩
    simp [matches_range_iff, none]
  · split
    · rename_i p single
      refine ⟨p, rfl, fun w => ?_⟩
      rw [← offered, single]
      simp
    · exact ⟨_, rfl, fun w => matches_alternation_iff.trans (offered w)⟩

theorem toPattern_of_wide (u : Universe) (negated : cls.negated = true) {c : Char}
    (first : cls.wide.head? = some c) : cls.toPattern u = .error (.wideMember c) := by
  obtain ⟨rest, wide⟩ := List.head?_eq_some_iff.mp first
  simp only [toPattern, negated, wide]

theorem toPattern_of_negated (u : Universe) (negated : cls.negated = true) (none : cls.wide = []) :
    cls.toPattern u = .ok (.range (cls.bytes.complementIn u)) := by
  simp only [toPattern, negated, none]

end Class

section Parse

variable {u : Universe} {text : List Char} {cls : Class}

theorem parseChars_class (read : readClass text = .ok (cls, [])) :
    parseChars u ('[' :: text) = cls.toPattern u := by
  have piece : readPiece '[' text = .ok (.cls cls, []) := by
    rw [readPiece_class, read]
    rfl
  cases made : cls.toPattern u with
  | error e =>
      rw [parseChars, readPieces_cons piece, readPieces]
      simp only [Builder.pushAll, Builder.push, Builder.pushClass, Builder.new, made]
  | ok p =>
      refine parseChars_piece piece ?_
      simp only [Builder.push, Builder.pushClass, Builder.new, made]

theorem parseChars_class_error {e : Error} (failed : readClass text = .error e) :
    parseChars u ('[' :: text) = .error e := by
  have piece : readPiece '[' text = .error e := by
    rw [readPiece_class, failed]
    rfl
  rw [parseChars, readPieces_error piece]
  rfl

end Parse

/-- A class that is written item by item is refused for the first interval that is wrong.  Otherwise it
matches its bytes and its wide characters, or, if it is negated, the bytes of the universe that it does
not hold; a negated class is refused for its first wide character. -/
theorem parse_classText (u : Universe) (t : ClassText) :
    (∀ e, t.fault? = some e → parse u t.text = .error e) ∧
    (t.fault? = none → t.negated = false → ∃ p, parse u t.text = .ok p ∧
      ∀ w, Matches p w ↔
        (∃ b, t.Holds b ∧ w = [b]) ∨ ∃ c ∈ t.wides, w = String.utf8EncodeChar c) ∧
    (t.fault? = none → t.negated = true →
      (∀ c, t.wides.head? = some c → parse u t.text = .error (.wideMember c)) ∧
      (t.wides = [] → ∃ p, parse u t.text = .ok p ∧
        ∀ w, Matches p w ↔ ∃ b, b ≤ u.max ∧ ¬ t.Holds b ∧ w = [b])) := by
  have text : parse u t.text = parseChars u ('[' :: t.body) := by
    rw [parse, ClassText.text, String.toList_ofList]
  rw [text]
  refine ⟨fun e fault => ?_, fun sound plain => ?_, fun sound negated => ?_⟩
  · exact parseChars_class_error (t.readClass_error fault)
  · obtain ⟨cls, read, sign, wide, bytes⟩ := t.exists_readClass sound
    obtain ⟨p, made, language⟩ := cls.exists_toPattern u (sign.trans plain)
    refine ⟨p, (parseChars_class read).trans made, fun w => (language w).trans ?_⟩
    simp only [bytes, wide]
  · obtain ⟨cls, read, sign, wide, bytes⟩ := t.exists_readClass sound
    rw [parseChars_class read, ← wide]
    refine ⟨fun c first => cls.toPattern_of_wide u (sign.trans negated) first, fun none => ?_⟩
    refine ⟨_, cls.toPattern_of_negated u (sign.trans negated) none, fun w => ?_⟩
    simp only [matches_range_iff, ByteSet.mem_complementIn, bytes, and_assoc]

/-- A bare minus sign is a member, and so is a bracket behind a backslash. -/
example : (ClassText.mk true .last [.interval (.char 'a') (.char 'z'), .single (.char ']')]).text =
    "[^a-z\\]-]" := by
  decide

end Munch.Pattern
