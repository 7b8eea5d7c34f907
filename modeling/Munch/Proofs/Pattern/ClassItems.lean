import Munch.Proofs.Pattern.Printing

/-!
The items of a class as they are written, and what they add to the class.

An item is a member or an interval between two, and a member is a character or a byte in hexadecimal
digits.  Reading takes the items in their order (`readMembers_items`).  An item either is wrong, which
depends on its bounds alone (`ItemText.fault?`), or adds its bytes or its wide character to the class
(`Class.exists_addItem`); the first item that is wrong decides (`Class.foldlM_addItem_error`).
-/

set_option autoImplicit false

namespace Munch.Pattern

structure HexDigit where
  char : Char
  value : Nat
  reads : Text.hexValue? char = some value

/-- A member of a class: a character, or a byte in two hexadecimal digits. -/
inductive MemberText where
  | char (c : Char)
  | hex (high low : HexDigit)

namespace MemberText

/-- What is written for a member.  A character that means something in classes is escaped. -/
def chars : MemberText → List Char
  | .char c => escapeChar ['\\', ']', '-', '^'] c
  | .hex high low => ['\\', 'x', high.char, low.char]

def byte? : MemberText → Option UInt8
  | .char c => if c.toNat < 0x80 then some (UInt8.ofNat c.toNat) else none
  | .hex high low => some (UInt8.ofNat (16 * high.value + low.value))

def wide? : MemberText → Option Char
  | .char c => if c.toNat < 0x80 then none else some c
  | .hex _ _ => none

def member : MemberText → Member
  | .char c => .char c
  | .hex high low => .byte (UInt8.ofNat (16 * high.value + low.value))

end MemberText

/-- What stands in a class: a member, or all bytes between two. -/
inductive ItemText where
  | single (m : MemberText)
  | interval (lo hi : MemberText)

namespace ItemText

def chars : ItemText → List Char
  | .single m => m.chars
  | .interval lo hi => lo.chars ++ '-' :: hi.chars

/-- What is wrong with an item: a bound of several bytes, or bounds the wrong way round. -/
def fault? : ItemText → Option Error
  | .single _ => none
  | .interval lo hi =>
      match lo.byte?, hi.byte? with
      | none, _ => lo.wide?.map .wideMember
      | some _, none => hi.wide?.map .wideMember
      | some l, some h => if h < l then some (.invertedRange l h) else none

def Holds : ItemText → UInt8 → Prop
  | .single m, b => m.byte? = some b
  | .interval lo hi, b => ∃ l h, lo.byte? = some l ∧ hi.byte? = some h ∧ l ≤ b ∧ b ≤ h

def wide? : ItemText → Option Char
  | .single m => m.wide?
  | .interval _ _ => none

end ItemText

section Member

variable {m : MemberText} {b : UInt8}

theorem MemberText.exists_read (m : MemberText) :
    ∃ c tail, m.chars = c :: tail ∧ c ≠ ']' ∧ c ≠ '-' ∧ c ≠ '^' ∧
      ∀ rest, readMember c (tail ++ rest) = .ok (m.member, rest) := by
  cases m with
  | char c =>
      obtain ⟨d, tail, text, apart, read⟩ :=
        exists_read_escapeChar (show '\\' ∈ ['\\', ']', '-', '^'] by decide) (by simp) c
      have signs : d ≠ ']' ∧ d ≠ '-' ∧ d ≠ '^' := by
        rcases apart with rfl | ordinary
        · decide
        · simp only [List.mem_cons, List.not_mem_nil, or_false, not_or] at ordinary
          exact ordinary.2
      exact ⟨d, tail, text, signs.1, signs.2.1, signs.2.2, read⟩
  | hex high low =>
      refine ⟨_, _, rfl, by decide, by decide, by decide, fun rest => ?_⟩
      have digits : hexPair? high.char low.char = some (16 * high.value + low.value) := by
        simp only [hexPair?, high.reads, low.reads]
      rw [readMember, if_pos rfl]
      simp only [List.cons_append, List.nil_append, readEscape, digits, member]

theorem MemberText.single_of_byte? (byte : m.byte? = some b) : m.member.single = .ok b := by
  cases m with
  | char c =>
      rw [byte?] at byte
      split at byte
      · rename_i ascii
        cases byte
        rw [member, Member.single, if_pos ascii]
      · cases byte
  | hex high low =>
      cases byte
      rfl

theorem MemberText.exists_wide? (none : m.byte? = none) :
    ∃ c, m.wide? = some c ∧ m.member = .char c ∧ m.member.single = .error (.wideMember c) ∧
      ¬ c.toNat < 0x80 := by
  cases m with
  | char c =>
      rw [byte?] at none
      split at none
      · cases none
      · rename_i wide
        refine ⟨c, ?_, rfl, ?_, wide⟩
        · rw [wide?, if_neg wide]
        · rw [member, Member.single, if_neg wide]
  | hex high low => cases none

theorem MemberText.wide?_of_byte? (byte : m.byte? = some b) : m.wide? = none := by
  cases m with
  | char c =>
      rw [byte?] at byte
      split at byte
      · rename_i ascii
        rw [wide?, if_pos ascii]
      · cases byte
  | hex high low => rfl

end Member

/-- A class that has come to hold more bytes and wide characters. -/
structure Class.Gains (cls grown : Class) (holds : UInt8 → Prop) (wide : List Char) : Prop where
  negated_eq : grown.negated = cls.negated
  wide_eq : grown.wide = cls.wide ++ wide
  mem_iff : ∀ b, b ∈ grown.bytes ↔ b ∈ cls.bytes ∨ holds b

namespace Class

variable {cls grown more : Class} {holds holds' : UInt8 → Prop} {wide wide' : List Char}

theorem Gains.refl (cls : Class) : Gains cls cls (fun _ => False) [] where
  negated_eq := rfl
  wide_eq := (List.append_nil _).symm
  mem_iff _ := (or_iff_left id).symm

theorem Gains.trans (first : Gains cls grown holds wide) (second : Gains grown more holds' wide') :
    Gains cls more (fun b => holds b ∨ holds' b) (wide ++ wide') where
  negated_eq := second.negated_eq.trans first.negated_eq
  wide_eq := by rw [second.wide_eq, first.wide_eq, List.append_assoc]
  mem_iff b := by rw [second.mem_iff, first.mem_iff, or_assoc]

theorem Gains.congr (gains : Gains cls grown holds wide) (same : ∀ b, holds b ↔ holds' b) :
    Gains cls grown holds' wide :=
  { gains with mem_iff := fun b => (gains.mem_iff b).trans (or_congr_right (same b)) }

theorem gains_addByte (cls : Class) (b : UInt8) : Gains cls (cls.addByte b) (· = b) [] where
  negated_eq := rfl
  wide_eq := (List.append_nil _).symm
  mem_iff _ := ByteSet.mem_insert

theorem gains_addMember (cls : Class) (m : MemberText) :
    Gains cls (cls.addMember m.member) (fun b => m.byte? = some b) m.wide?.toList := by
  cases byte : m.byte? with
  | some b =>
      have added : cls.addMember m.member = cls.addByte b := by
        cases m with
        | char c =>
            rw [MemberText.byte?] at byte
            split at byte
            · rename_i ascii
              cases byte
              rw [MemberText.member, addMember, addChar, if_pos ascii]
            · cases byte
        | hex high low =>
            cases byte
            rfl
      rw [added, m.wide?_of_byte? byte]
      simpa [eq_comm] using cls.gains_addByte b
  | none =>
      obtain ⟨c, wide, member, -, large⟩ := m.exists_wide? byte
      rw [member, wide, addMember, addChar, if_neg large]
      exact ⟨rfl, rfl, fun _ => by simp⟩

def addItem (cls : Class) : ItemText → Except Error Class
  | .single m => .ok (cls.addMember m.member)
  | .interval lo hi => cls.addInterval lo.member hi.member

theorem addItem_error {item : ItemText} {e : Error} (fault : item.fault? = some e) :
    cls.addItem item = .error e := by
  cases item with
  | single m => cases fault
  | interval lo hi =>
      rw [ItemText.fault?] at fault
      rw [addItem, addInterval]
      cases low : lo.byte? with
      | none =>
          obtain ⟨c, wide, -, unfit, -⟩ := lo.exists_wide? low
          simp only [low, wide, Option.map_some, Option.some.injEq] at fault
          rw [unfit, fault]
      | some l =>
          rw [lo.single_of_byte? low]
          cases high : hi.byte? with
          | none =>
              obtain ⟨c, wide, -, unfit, -⟩ := hi.exists_wide? high
              simp only [low, high, wide, Option.map_some, Option.some.injEq] at fault
              rw [unfit, fault]
          | some h =>
              rw [hi.single_of_byte? high]
              simp only [low, high] at fault
              split at fault
              · rename_i inverted
                cases fault
                exact if_pos inverted
              · cases fault

theorem exists_addItem (cls : Class) {item : ItemText} (sound : item.fault? = none) :
    ∃ grown, cls.addItem item = .ok grown ∧ Gains cls grown item.Holds item.wide?.toList := by
  cases item with
  | single m => exact ⟨_, rfl, cls.gains_addMember m⟩
  | interval lo hi =>
      rw [ItemText.fault?] at sound
      cases low : lo.byte? with
      | none =>
          obtain ⟨c, wide, -⟩ := lo.exists_wide? low
          simp [low, wide] at sound
      | some l =>
          cases high : hi.byte? with
          | none =>
              obtain ⟨c, wide, -⟩ := hi.exists_wide? high
              simp [low, high, wide] at sound
          | some h =>
              simp only [low, high, ite_eq_right_iff, reduceCtorEq, imp_false] at sound
              refine ⟨{ cls with bytes := cls.bytes.insertRange l h }, ?_, rfl,
                (List.append_nil _).symm, fun b => ?_⟩
              · rw [addItem, addInterval, lo.single_of_byte? low, hi.single_of_byte? high]
                exact if_neg sound
              · rw [ByteSet.mem_insertRange]
                simp [ItemText.Holds, low, high]

/-- The first item that is wrong decides. -/
theorem foldlM_addItem_error {items : List ItemText} {e : Error} (cls : Class)
    (fault : items.findSome? ItemText.fault? = some e) : items.foldlM addItem cls = .error e := by
  induction items generalizing cls with
  | nil => cases fault
  | cons item rest ih =>
      rw [List.findSome?_cons] at fault
      rw [List.foldlM_cons]
      cases own : item.fault? with
      | some e' =>
          rw [own] at fault
          cases fault
          rw [addItem_error own]
          rfl
      | none =>
          rw [own] at fault
          obtain ⟨grown, added, -⟩ := cls.exists_addItem own
          rw [added]
          exact ih grown fault

theorem exists_foldlM_addItem {items : List ItemText} (cls : Class)
    (sound : items.findSome? ItemText.fault? = none) :
    ∃ grown, items.foldlM addItem cls = .ok grown ∧
      Gains cls grown (fun b => ∃ item ∈ items, item.Holds b) (items.filterMap ItemText.wide?) := by
  induction items generalizing cls with
  | nil => exact ⟨cls, rfl, by simpa using Gains.refl cls⟩
  | cons item rest ih =>
      rw [List.findSome?_cons] at sound
      cases own : item.fault? with
      | some e =>
          rw [own] at sound
          cases sound
      | none =>
          rw [own] at sound
          obtain ⟨grown, added, gains⟩ := cls.exists_addItem own
          obtain ⟨last, addedAll, gainsAll⟩ := ih grown sound
          refine ⟨last, ?_, ?_⟩
          · rw [List.foldlM_cons, added]
            exact addedAll
          · have both := gains.trans gainsAll
            cases wide : item.wide? <;> simpa [wide] using both

end Class

section Read

variable {cls : Class} {rest : List Char}

theorem rangeEnd?_member (m : MemberText) (rest : List Char) : rangeEnd? (m.chars ++ rest) = none := by
  obtain ⟨c, tail, text, -, minus, -⟩ := m.exists_read
  rw [text]
  exact Avoids.rangeEnd?_eq_none fun same => minus (Option.some.inj same)

theorem rangeEnd?_items {items : List ItemText} (alone : rangeEnd? rest = none) :
    rangeEnd? (items.flatMap ItemText.chars ++ rest) = none := by
  cases items with
  | nil => exact alone
  | cons item later =>
      rw [List.flatMap_cons, List.append_assoc]
      cases item with
      | single m => exact rangeEnd?_member m _
      | interval lo hi =>
          rw [ItemText.chars, List.append_assoc]
          exact rangeEnd?_member lo _

/-- Reading adds an item, unless what stands behind it makes a range of its last member. -/
theorem readMembers_item {item : ItemText} (alone : rangeEnd? rest = none) :
    readMembers cls (item.chars ++ rest) =
      (cls.addItem item).bind fun grown => readMembers grown rest := by
  cases item with
  | single m =>
      obtain ⟨c, tail, text, inside, -, -, read⟩ := m.exists_read
      rw [ItemText.chars, text, List.cons_append, readMembers_member inside (read rest) alone]
      rfl
  | interval lo hi =>
      obtain ⟨c, tail, text, inside, -, -, read⟩ := lo.exists_read
      obtain ⟨d, tail', text', bound, -, -, read'⟩ := hi.exists_read
      have range : rangeEnd? ('-' :: d :: (tail' ++ rest)) = some (d, tail' ++ rest) := if_neg bound
      have shape : ItemText.chars (.interval lo hi) ++ rest =
          c :: (tail ++ '-' :: d :: (tail' ++ rest)) := by
        simp [ItemText.chars, text, text']
      rw [shape, readMembers_cons inside (read _), range]
      simp only [read' rest, Except.bind]
      rfl

theorem readMembers_items (items : List ItemText) (alone : rangeEnd? rest = none) :
    readMembers cls (items.flatMap ItemText.chars ++ rest) =
      (items.foldlM Class.addItem cls).bind fun grown => readMembers grown rest := by
  induction items generalizing cls with
  | nil => rfl
  | cons item later ih =>
      rw [List.flatMap_cons, List.append_assoc, readMembers_item (rangeEnd?_items alone),
        List.foldlM_cons]
      cases cls.addItem item with
      | error e => rfl
      | ok grown => exact ih

end Read

end Munch.Pattern
