import Munch.RuleFile.Line

/-!
The arrow that ends a pattern, over the bytes of a text.

The bytes of an ASCII character are itself, and those of other characters are no marks.  So a search
over the bytes passes over the same characters as a search over the characters, even where a backslash
takes away the meaning of the first byte of several, and stops at the same arrow
(`arrowByteOffset?_encode`).  The bytes of whole characters end where a character begins
(`isValid_encode_take`).
-/

set_option autoImplicit false

namespace Munch.RuleFile

/-- The search for the arrow over the bytes of a text, in which a backslash takes the meaning of the
byte after it away. -/
def arrowByteOffset? (inClass inQuotes : Bool) : List UInt8 → Option Nat
  | [] => none
  | b :: rest =>
      if b = '\\'.toUInt8 then
        match rest with
        | [] => none
        | _ :: rest => (arrowByteOffset? inClass inQuotes rest).map (· + 2)
      else if b = '='.toUInt8 && !inClass && !inQuotes && rest.head? = some '>'.toUInt8 then some 0
      else
        let inQuotes' := if b = '"'.toUInt8 && !inClass then !inQuotes else inQuotes
        let inClass' :=
          if b = '['.toUInt8 && !inClass && !inQuotes then true
          else if b = ']'.toUInt8 && inClass then false
          else inClass
        (arrowByteOffset? inClass' inQuotes' rest).map (· + 1)

def encode (text : List Char) : List UInt8 :=
  text.flatMap String.utf8EncodeChar

section Encode

variable {c : Char}

theorem toNat_toUInt8 (ascii : c.toNat < 128) : c.toUInt8.toNat = c.toNat := by
  rw [Char.toUInt8, UInt32.toNat_toUInt8]
  exact Nat.mod_eq_of_lt (Nat.lt_trans ascii (by decide))

theorem toUInt8_eq_iff {d : Char} (ascii : c.toNat < 128) (asciiToo : d.toNat < 128) :
    c.toUInt8 = d.toUInt8 ↔ c = d := by
  constructor
  · intro same
    have numbers := congrArg UInt8.toNat same
    rw [toNat_toUInt8 ascii, toNat_toUInt8 asciiToo] at numbers
    exact Char.toNat_inj.mp numbers
  · exact congrArg Char.toUInt8

theorem utf8EncodeChar_ascii (ascii : c.toNat < 128) : String.utf8EncodeChar c = [c.toUInt8] :=
  String.utf8EncodeChar_eq_singleton
    (Char.utf8Size_eq_one_iff.mpr (UInt32.le_iff_toNat_le.mpr (Nat.le_of_lt_succ ascii)))

theorem utf8EncodeChar_wide (wide : ¬ c.toNat < 128) :
    ∀ b ∈ String.utf8EncodeChar c, 128 ≤ b.toNat := by
  have large : ∀ m n : Nat, m + n < 256 → 128 ≤ n → 128 ≤ (UInt8.ofNat (m + n)).toNat := by
    intro m n below above
    rw [UInt8.toNat_ofNat', Nat.mod_eq_of_lt below]
    omega
  have notSmall : ¬ c.val.toNat ≤ 127 := fun small => wide (Nat.lt_succ_of_le small)
  rw [String.utf8EncodeChar, if_neg notSmall]
  intro b mem
  split at mem
  · simp only [List.mem_cons, List.not_mem_nil, or_false] at mem
    rcases mem with rfl | rfl <;> exact large _ _ (by omega) (by omega)
  · split at mem
    · simp only [List.mem_cons, List.not_mem_nil, or_false] at mem
      rcases mem with rfl | rfl | rfl <;> exact large _ _ (by omega) (by omega)
    · simp only [List.mem_cons, List.not_mem_nil, or_false] at mem
      rcases mem with rfl | rfl | rfl | rfl <;> exact large _ _ (by omega) (by omega)

@[simp]
theorem encode_cons (c : Char) (text : List Char) :
    encode (c :: text) = String.utf8EncodeChar c ++ encode text :=
  List.flatMap_cons

theorem encode_cons_ascii (ascii : c.toNat < 128) (text : List Char) :
    encode (c :: text) = c.toUInt8 :: encode text := by
  rw [encode_cons, utf8EncodeChar_ascii ascii, List.singleton_append]

theorem head?_encode {m : Char} (mark : m.toNat < 128) (text : List Char) :
    (encode text).head? = some m.toUInt8 ↔ text.head? = some m := by
  cases text with
  | nil => simp [encode]
  | cons c rest =>
      by_cases ascii : c.toNat < 128
      · rw [encode_cons_ascii ascii, List.head?_cons, List.head?_cons, Option.some.injEq,
          Option.some.injEq, toUInt8_eq_iff ascii mark]
      · obtain ⟨b, more, bytes⟩ := List.exists_cons_of_ne_nil
          (List.ne_nil_of_length_pos (String.length_utf8EncodeChar c ▸ c.utf8Size_pos))
        have large := utf8EncodeChar_wide ascii b (bytes ▸ List.mem_cons_self)
        rw [encode_cons, bytes, List.cons_append, List.head?_cons, List.head?_cons,
          Option.some.injEq, Option.some.injEq]
        constructor
        · rintro rfl
          rw [toNat_toUInt8 mark] at large
          omega
        · rintro rfl
          exact absurd mark ascii

end Encode

theorem arrowByteOffset?_cons {b : UInt8} (plain : b ≠ '\\'.toUInt8) (inClass inQuotes : Bool)
    (rest : List UInt8) :
    arrowByteOffset? inClass inQuotes (b :: rest) =
      if b = '='.toUInt8 && !inClass && !inQuotes && rest.head? = some '>'.toUInt8 then some 0
      else
        (arrowByteOffset?
          (if b = '['.toUInt8 && !inClass && !inQuotes then true
            else if b = ']'.toUInt8 && inClass then false else inClass)
          (if b = '"'.toUInt8 && !inClass then !inQuotes else inQuotes) rest).map (· + 1) := by
  rw [arrowByteOffset?.eq_def]
  exact if_neg plain

theorem arrowByteOffset?_wide {bytes : List UInt8} (wide : ∀ b ∈ bytes, 128 ≤ b.toNat)
    (inClass inQuotes : Bool) (rest : List UInt8) :
    arrowByteOffset? inClass inQuotes (bytes ++ rest) =
      (arrowByteOffset? inClass inQuotes rest).map (· + bytes.length) := by
  induction bytes with
  | nil => simp
  | cons b bytes ih =>
      have large := wide b List.mem_cons_self
      have other : ∀ m : Char, m.toNat < 128 → b ≠ m.toUInt8 := by
        rintro m ascii rfl
        rw [toNat_toUInt8 ascii] at large
        omega
      rw [List.cons_append, arrowByteOffset?_cons (other '\\' (by decide))]
      simp only [other '=' (by decide), other '"' (by decide),
        other '[' (by decide), other ']' (by decide), decide_false, Bool.false_and,
        Bool.false_eq_true, if_false]
      rw [ih fun b mem => wide b (List.mem_cons_of_mem _ mem), Option.map_map, List.length_cons]
      rfl

theorem arrowByteOffset?_char {c : Char} (plain : c ≠ '\\') (inClass inQuotes : Bool)
    (rest : List Char) :
    arrowByteOffset? inClass inQuotes (encode (c :: rest)) =
      if c = '=' && !inClass && !inQuotes && rest.head? = some '>' then some 0
      else
        (arrowByteOffset?
          (if c = '[' && !inClass && !inQuotes then true
            else if c = ']' && inClass then false else inClass)
          (if c = '"' && !inClass then !inQuotes else inQuotes) (encode rest)).map
            (· + (String.utf8EncodeChar c).length) := by
  by_cases ascii : c.toNat < 128
  · have mark : ∀ m : Char, m.toNat < 128 → (c.toUInt8 = m.toUInt8 ↔ c = m) :=
      fun m asciiToo => toUInt8_eq_iff ascii asciiToo
    have plainByte : c.toUInt8 ≠ '\\'.toUInt8 := fun same => plain ((mark _ (by decide)).mp same)
    rw [encode_cons_ascii ascii, arrowByteOffset?_cons plainByte, utf8EncodeChar_ascii ascii]
    simp only [mark '=' (by decide), mark '[' (by decide), mark ']' (by decide),
      mark '"' (by decide), head?_encode (show '>'.toNat < 128 by decide), List.length_singleton]
  · have other : ∀ m : Char, m.toNat < 128 → c ≠ m := fun m asciiToo same => ascii (same ▸ asciiToo)
    rw [encode_cons, arrowByteOffset?_wide (utf8EncodeChar_wide ascii)]
    simp [other '=' (by decide), other '[' (by decide), other ']' (by decide),
      other '"' (by decide)]

theorem arrowByteOffset?_escape (c : Char) (inClass inQuotes : Bool) (rest : List Char) :
    arrowByteOffset? inClass inQuotes (encode ('\\' :: c :: rest)) =
      (arrowByteOffset? inClass inQuotes (encode rest)).map
        (· + (encode ['\\', c]).length) := by
  obtain ⟨b, more, bytes⟩ := List.exists_cons_of_ne_nil
    (List.ne_nil_of_length_pos (String.length_utf8EncodeChar c ▸ c.utf8Size_pos))
  have wide : ∀ b ∈ more, 128 ≤ b.toNat := by
    by_cases ascii : c.toNat < 128
    · rw [utf8EncodeChar_ascii ascii] at bytes
      cases bytes
      exact nofun
    · exact fun b mem => utf8EncodeChar_wide ascii b (bytes ▸ List.mem_cons_of_mem _ mem)
  have skipped : arrowByteOffset? inClass inQuotes ('\\'.toUInt8 :: b :: (more ++ encode rest)) =
      (arrowByteOffset? inClass inQuotes (more ++ encode rest)).map (· + 2) := by
    rw [arrowByteOffset?.eq_def]
    exact if_pos rfl
  have length : (encode ['\\', c]).length = more.length + 2 := by
    rw [encode_cons_ascii (by decide), encode_cons, bytes]
    simp [encode]
  rw [encode_cons_ascii (by decide), encode_cons, bytes, List.cons_append, skipped,
    arrowByteOffset?_wide wide, Option.map_map, length]
  rfl

/-- The search over the bytes finds the arrow that the search over the characters finds. -/
theorem arrowByteOffset?_encode (inClass inQuotes : Bool) (text : List Char) :
    arrowByteOffset? inClass inQuotes (encode text) =
      (arrowOffset? inClass inQuotes text).map fun k => (encode (text.take k)).length := by
  fun_induction arrowOffset? inClass inQuotes text with
  | case1 => rfl
  | case2 => rfl
  | case3 inClass inQuotes c rest ih =>
      rw [arrowByteOffset?_escape, ih, Option.map_map, Option.map_map]
      congr 1
      funext k
      simp only [Function.comp_apply, List.take_succ_cons, encode_cons, List.length_append]
      simp [encode]
      omega
  | case4 inClass inQuotes c rest alone escape arrow =>
      have plain : c ≠ '\\' := by
        rintro rfl
        simp at arrow
      rw [arrowByteOffset?_char plain, if_pos arrow]
      rfl
  | case5 inClass inQuotes c rest alone escape arrow =>
      rename_i ih
      have plain : c ≠ '\\' := by
        intro same
        cases rest with
        | nil => exact alone same rfl
        | cons d rest => exact escape d rest same rfl
      rw [arrowByteOffset?_char plain, if_neg arrow]
      refine (congrArg _ ih).trans ?_
      rw [Option.map_map, Option.map_map]
      congr 1
      funext k
      simp only [Function.comp_apply, List.take_succ_cons, encode_cons, List.length_append]
      omega

def bytes (text : String) : List UInt8 :=
  text.toByteArray.data.toList

theorem bytes_eq_encode (text : String) : bytes text = encode text.toList := by
  obtain ⟨chars, rfl⟩ : ∃ chars, text = String.ofList chars := ⟨_, String.ofList_toList.symm⟩
  rw [bytes, String.toByteArray_ofList, List.utf8Encode, List.toList_data_toByteArray,
    String.toList_ofList]
  rfl

theorem utf8ByteSize_ofList_eq (text : List Char) :
    (String.ofList text).utf8ByteSize = (encode text).length := by
  rw [← String.size_toByteArray, String.toByteArray_ofList, List.utf8Encode, List.size_toByteArray]
  rfl

theorem isValid_encode_take (text : String) (k : Nat) :
    String.Pos.Raw.IsValid text ⟨(encode (text.toList.take k)).length⟩ :=
  String.Pos.Raw.isValid_iff_exists_take_toList.mpr ⟨k, (utf8ByteSize_ofList_eq _).symm⟩

end Munch.RuleFile
