import Munch.Pattern.Printer
import Munch.Pattern.Reader
import Munch.Proofs.ByteSet.Runs

/-!
Reading what is printed for bytes and for sets of bytes.

A byte is printed in two contexts that differ in which bytes are special, and in both a reader gets the
byte back (`exists_read_escapeWith`).  A class is printed run by run, and the members that are read
from its runs are those of the set (`readClass_printClass`).
-/

set_option autoImplicit false

namespace Munch.Pattern

theorem toNat_ofNat_of_lt {n : Nat} (below : n < 128) : (Char.ofNat n).toNat = n := by
  have valid : n.isValidChar := .inl (by omega)
  unfold Char.ofNat
  rw [dif_pos valid]
  rfl

/-- A member that is a byte, or the character of a byte. -/
inductive Member.Is : Member → UInt8 → Prop where
  | byte (b : UInt8) : Member.Is (.byte b) b
  | char {b : UInt8} : b.toNat < 128 → Member.Is (.char (Char.ofNat b.toNat)) b

namespace Member.Is

variable {m : Member} {b : UInt8}

theorem bytes_eq (same : m.Is b) : m.bytes = [b] := by
  cases same with
  | byte => rfl
  | char below =>
      have number := toNat_ofNat_of_lt below
      have small : (Char.ofNat b.toNat).val.toNat ≤ 127 := by
        change (Char.ofNat b.toNat).toNat ≤ 127
        omega
      rw [bytes, String.utf8EncodeChar, if_pos small]
      change [UInt8.ofNat (Char.ofNat b.toNat).toNat] = [b]
      rw [number, UInt8.ofNat_toNat]

theorem single_eq (same : m.Is b) : m.single = .ok b := by
  cases same with
  | byte => rfl
  | char below =>
      rw [single, toNat_ofNat_of_lt below, if_pos below, UInt8.ofNat_toNat]

theorem addMember_eq (same : m.Is b) (cls : Class) : cls.addMember m = cls.addByte b := by
  cases same with
  | byte => rfl
  | char below =>
      rw [Class.addMember, Class.addChar, toNat_ofNat_of_lt below, if_pos below,
        UInt8.ofNat_toNat]

end Member.Is

def escapeWith (special : UInt8 → Bool) (b : UInt8) : List Char :=
  if special b then ['\\', Char.ofNat b.toNat] else printPlainByte b

theorem printByte_eq (b : UInt8) : printByte b = escapeWith isSpecialByte b := rfl

theorem printClassByte_eq (b : UInt8) : printClassByte b = escapeWith isClassSpecialByte b := rfl

/-- Special bytes that can be told from other escapes. -/
structure Escapes (special : UInt8 → Bool) : Prop where
  backslash : special 92 = true
  apart : ∀ b, special b = true → b.toNat < 128 ∧ Char.ofNat b.toNat ∉ ['n', 'r', 't', 'x']

theorem escapes_of_list {bytes : List UInt8} (backslash : 92 ∈ bytes)
    (apart : ∀ b ∈ bytes, b.toNat < 128 ∧ Char.ofNat b.toNat ∉ ['n', 'r', 't', 'x']) :
    Escapes bytes.contains where
  backslash := List.contains_iff_mem.mpr backslash
  apart b special := apart b (List.contains_iff_mem.mp special)

theorem escapes_isSpecialByte : Escapes isSpecialByte :=
  escapes_of_list (by decide) (by simp)

theorem escapes_isClassSpecialByte : Escapes isClassSpecialByte :=
  escapes_of_list (by decide) (by simp)

/-- What a printed byte may begin with. -/
def Opens (special : UInt8 → Bool) (c : Char) : Prop :=
  c = '\\' ∨ special (UInt8.ofNat c.toNat) = false

theorem Opens.ne {special : UInt8 → Bool} {c x : Char} (opens : Opens special c) (other : x ≠ '\\')
    (meaning : special (UInt8.ofNat x.toNat) = true) : c ≠ x := by
  rintro rfl
  rcases opens with same | plain
  · exact other same
  · rw [plain] at meaning
    cases meaning

theorem readEscape_char {c : Char} (rest : List Char) (plain : c ∉ ['n', 'r', 't', 'x']) :
    readEscape (c :: rest) = .ok (.char c, rest) := by
  unfold readEscape
  split <;> simp_all

theorem hexPair?_hexByte (b : UInt8) :
    hexPair? (Text.hexDigit (b.toNat / 16)) (Text.hexDigit b.toNat) = some b.toNat := by
  have digits : ∀ n : Fin 256,
      hexPair? (Text.hexDigit (n.val / 16)) (Text.hexDigit n.val) = some n.val := by
    decide +kernel
  exact digits ⟨b.toNat, b.toNat_lt⟩

theorem readEscape_hexByte (b : UInt8) (rest : List Char) :
    readEscape ('x' :: Text.hexByte b ++ rest) = .ok (.byte b, rest) := by
  have digits := hexPair?_hexByte b
  simp only [Text.hexByte, List.cons_append, List.nil_append, readEscape, digits, UInt8.ofNat_toNat]

theorem readMember_char {c : Char} (rest : List Char) (plain : c ≠ '\\') :
    readMember c rest = .ok (.char c, rest) := by
  rw [readMember, if_neg plain]

/-- A character as it is written where some characters mean something. -/
def escapeChar (special : List Char) (c : Char) : List Char :=
  if c ∈ special then ['\\', c] else [c]

theorem exists_read_escapeChar {special : List Char} (escape : '\\' ∈ special)
    (plain : ∀ c ∈ special, c ∉ ['n', 'r', 't', 'x']) (c : Char) :
    ∃ d tail, escapeChar special c = d :: tail ∧ (d = '\\' ∨ d ∉ special) ∧
      ∀ rest, readMember d (tail ++ rest) = .ok (.char c, rest) := by
  rw [escapeChar]
  split
  · rename_i mem
    exact ⟨_, _, rfl, .inl rfl, fun rest => readEscape_char rest (plain c mem)⟩
  · rename_i ordinary
    have notEscape : c ≠ '\\' := fun same => ordinary (same ▸ escape)
    exact ⟨c, [], rfl, .inr ordinary, fun rest => readMember_char rest notEscape⟩

/-- A printed byte is read as this byte. -/
theorem exists_read_escapeWith {special : UInt8 → Bool} (escapes : Escapes special) (b : UInt8) :
    ∃ c tail m, escapeWith special b = c :: tail ∧ Opens special c ∧ m.Is b ∧
      ∀ rest, readMember c (tail ++ rest) = .ok (m, rest) := by
  unfold escapeWith
  cases meaning : special b with
  | true =>
      obtain ⟨below, plain⟩ := escapes.apart b meaning
      exact ⟨_, _, _, rfl, .inl rfl, .char below, fun rest => readEscape_char rest plain⟩
  | false =>
      rw [if_neg Bool.false_ne_true, printPlainByte]
      split
      · rename_i same
        subst same
        exact ⟨_, _, _, rfl, .inl rfl, .byte 10, fun rest => rfl⟩
      · split
        · rename_i same
          subst same
          exact ⟨_, _, _, rfl, .inl rfl, .byte 13, fun rest => rfl⟩
        · split
          · rename_i same
            subst same
            exact ⟨_, _, _, rfl, .inl rfl, .byte 9, fun rest => rfl⟩
          · split
            · rename_i printable
              have below : b.toNat < 128 := by
                have le := UInt8.le_iff_toNat_le.mp printable.2
                exact Nat.lt_of_le_of_lt le (by decide)
              have number := toNat_ofNat_of_lt below
              have opens : special (UInt8.ofNat (Char.ofNat b.toNat).toNat) = false := by
                rw [number, UInt8.ofNat_toNat, meaning]
              have plain : Char.ofNat b.toNat ≠ '\\' := by
                intro same
                rw [same] at opens
                exact absurd escapes.backslash (Bool.eq_false_iff.mp opens)
              exact ⟨_, [], _, rfl, .inr opens, .char below, fun rest => readMember_char rest plain⟩
            · exact ⟨_, _, _, rfl, .inl rfl, .byte b, fun rest => readEscape_hexByte b rest⟩

section Members

variable {cls grown : Class} {c d : Char} {text text' rest rest' : List Char} {m lo hi : Member}

/-- What becomes of a class behind a member, by whether a range begins there. -/
theorem readMembers_cons (inside : c ≠ ']') (read : readMember c text = .ok (m, rest)) :
    readMembers cls (c :: text) =
      match rangeEnd? rest with
      | none => readMembers (cls.addMember m) rest
      | some (d, text') =>
          (readMember d text').bind fun (hi, rest') =>
            (cls.addInterval m hi).bind fun grown => readMembers grown rest' := by
  conv => lhs; rw [readMembers.eq_def]
  split
  · rename_i same
    cases same
  · rename_i same
    cases same
    exact absurd rfl inside
  · rename_i same
    cases same
    split
    · rename_i failed
      rw [read] at failed
      cases failed
    · rename_i found
      rw [read] at found
      cases found
      -- the bounds of a range are read one after the other, and each may fail
      split
      · rename_i alone
        rw [alone]
      · rename_i range
        rw [range]
        split
        · rename_i failed
          simp only [failed, Except.bind]
        · rename_i found
          simp only [found, Except.bind]
          split
          · rename_i failed
            rw [failed]
          · rename_i added
            rw [added]

theorem readMembers_member (inside : c ≠ ']') (read : readMember c text = .ok (m, rest))
    (alone : rangeEnd? rest = none) :
    readMembers cls (c :: text) = readMembers (cls.addMember m) rest := by
  rw [readMembers_cons inside read, alone]

theorem readMembers_range (inside : c ≠ ']') (readLo : readMember c text = .ok (lo, rest))
    (dash : rangeEnd? rest = some (d, text')) (readHi : readMember d text' = .ok (hi, rest'))
    (grows : cls.addInterval lo hi = .ok grown) :
    readMembers cls (c :: text) = readMembers grown rest' := by
  rw [readMembers_cons inside readLo, dash]
  simp only [readHi, grows, Except.bind]

end Members

def Avoids (x : Char) (text : List Char) : Prop :=
  text.head? ≠ some x

theorem Avoids.rangeEnd?_eq_none {text : List Char} (avoids : Avoids '-' text) :
    rangeEnd? text = none := by
  unfold rangeEnd?
  split
  · exact absurd rfl avoids
  · rfl

section Avoids

variable {x : Char} (other : x ≠ '\\') (meaning : isClassSpecialByte (UInt8.ofNat x.toNat) = true)

include other meaning

theorem avoids_printClassByte (b : UInt8) (rest : List Char) :
    Avoids x (printClassByte b ++ rest) := by
  obtain ⟨c, tail, m, text, opens, -, -⟩ := exists_read_escapeWith escapes_isClassSpecialByte b
  rw [printClassByte_eq, text]
  intro same
  exact opens.ne other meaning (Option.some.inj same)

theorem avoids_printRun (run : UInt8 × UInt8) (rest : List Char) :
    Avoids x (printRun run ++ rest) := by
  obtain ⟨lo, hi⟩ := run
  rw [printRun]
  split
  · exact avoids_printClassByte other meaning lo rest
  · split
    all_goals
      rw [List.append_assoc]
      exact avoids_printClassByte other meaning lo _

theorem avoids_runs (runs : List (UInt8 × UInt8)) (rest : List Char) (bracket : x ≠ ']') :
    Avoids x (runs.flatMap printRun ++ ']' :: rest) := by
  cases runs with
  | nil =>
      intro same
      exact bracket (Option.some.inj same).symm
  | cons run later =>
      rw [List.flatMap_cons, List.append_assoc]
      exact avoids_printRun other meaning run _

end Avoids

theorem readMembers_printClassByte (cls : Class) (b : UInt8) {rest : List Char}
    (avoids : Avoids '-' rest) :
    readMembers cls (printClassByte b ++ rest) = readMembers (cls.addByte b) rest := by
  obtain ⟨c, tail, m, text, opens, same, read⟩ :=
    exists_read_escapeWith escapes_isClassSpecialByte b
  have inside : c ≠ ']' := opens.ne (by decide) (by decide)
  rw [printClassByte_eq, text, List.cons_append,
    readMembers_member inside (read rest) avoids.rangeEnd?_eq_none, same.addMember_eq]

theorem readMembers_printBounds (cls : Class) {lo hi : UInt8} (le : lo ≤ hi) (rest : List Char) :
    readMembers cls (printClassByte lo ++ '-' :: (printClassByte hi ++ rest)) =
      readMembers { cls with bytes := cls.bytes.insertRange lo hi } rest := by
  obtain ⟨c, tail, m, textLo, opensLo, sameLo, readLo⟩ :=
    exists_read_escapeWith escapes_isClassSpecialByte lo
  obtain ⟨d, tail', m', textHi, opensHi, sameHi, readHi⟩ :=
    exists_read_escapeWith escapes_isClassSpecialByte hi
  have inside : c ≠ ']' := opensLo.ne (by decide) (by decide)
  have bound : d ≠ ']' := opensHi.ne (by decide) (by decide)
  have dash : Pattern.rangeEnd? ('-' :: (d :: (tail' ++ rest))) = some (d, tail' ++ rest) :=
    if_neg bound
  have grows : cls.addInterval m m' =
      .ok { cls with bytes := cls.bytes.insertRange lo hi } := by
    rw [Class.addInterval, sameLo.single_eq, sameHi.single_eq]
    exact if_neg (UInt8.not_lt.mpr le)
  rw [printClassByte_eq, printClassByte_eq, textLo, textHi, List.cons_append, List.cons_append,
    readMembers_range inside (readLo _) dash (readHi rest) grows]

def Class.addRun (cls : Class) (run : UInt8 × UInt8) : Class :=
  if run.1.toNat = run.2.toNat then cls.addByte run.1
  else if run.1.toNat + 1 = run.2.toNat then (cls.addByte run.1).addByte run.2
  else { cls with bytes := cls.bytes.insertRange run.1 run.2 }

theorem readMembers_printRun (cls : Class) {run : UInt8 × UInt8} (le : run.1.toNat ≤ run.2.toNat)
    {rest : List Char} (avoids : Avoids '-' rest) :
    readMembers cls (printRun run ++ rest) = readMembers (cls.addRun run) rest := by
  obtain ⟨lo, hi⟩ := run
  rw [printRun, Class.addRun]
  split
  · exact readMembers_printClassByte cls lo avoids
  · split
    · rw [List.append_assoc, readMembers_printClassByte cls lo
        (avoids_printClassByte (by decide) (by decide) hi rest),
        readMembers_printClassByte _ hi avoids]
    · rw [List.append_assoc, List.cons_append]
      exact readMembers_printBounds cls (UInt8.le_iff_toNat_le.mpr le) rest

theorem readMembers_runs (cls : Class) {runs : List (UInt8 × UInt8)}
    (proper : ∀ run ∈ runs, run.1.toNat ≤ run.2.toNat) (rest : List Char) :
    readMembers cls (runs.flatMap printRun ++ ']' :: rest) =
      .ok (runs.foldl Class.addRun cls, rest) := by
  induction runs generalizing cls with
  | nil => simp [readMembers]
  | cons run later ih =>
      rw [List.flatMap_cons, List.append_assoc,
        readMembers_printRun cls (proper run List.mem_cons_self)
          (avoids_runs (by decide) (by decide) later rest (by decide)),
        ih _ fun r mem => proper r (List.mem_cons_of_mem _ mem)]
      rfl

theorem Class.addRun_eq (cls : Class) (run : UInt8 × UInt8) :
    (cls.addRun run).wide = cls.wide ∧ (cls.addRun run).negated = cls.negated ∧
      ∀ c, c ∈ (cls.addRun run).bytes ↔ c ∈ cls.bytes ∨ ByteSet.InRun c run := by
  obtain ⟨lo, hi⟩ := run
  rw [addRun]
  split
  · rename_i same
    refine ⟨rfl, rfl, fun c => ?_⟩
    rw [addByte, ByteSet.mem_insert]
    refine or_congr_right ?_
    simp only [ByteSet.InRun, ← UInt8.toNat_inj] at same ⊢
    omega
  · split
    · rename_i next
      refine ⟨rfl, rfl, fun c => ?_⟩
      rw [addByte, addByte, ByteSet.mem_insert, ByteSet.mem_insert, or_assoc]
      refine or_congr_right ?_
      simp only [ByteSet.InRun, ← UInt8.toNat_inj] at next ⊢
      omega
    · exact ⟨rfl, rfl, fun c => ByteSet.mem_insertRun⟩

theorem Class.foldl_addRun (cls : Class) (runs : List (UInt8 × UInt8)) :
    (runs.foldl addRun cls).wide = cls.wide ∧ (runs.foldl addRun cls).negated = cls.negated ∧
      ∀ c, c ∈ (runs.foldl addRun cls).bytes ↔
        c ∈ cls.bytes ∨ ∃ run ∈ runs, ByteSet.InRun c run := by
  induction runs generalizing cls with
  | nil => simp
  | cons run later ih =>
      obtain ⟨wide, negated, members⟩ := cls.addRun_eq run
      obtain ⟨wide', negated', members'⟩ := ih (cls.addRun run)
      refine ⟨wide'.trans wide, negated'.trans negated, fun c => ?_⟩
      rw [List.foldl_cons, members', members]
      simp [or_assoc]

theorem Class.foldl_runs (set : ByteSet) :
    set.runs.foldl addRun Class.empty = { bytes := set, wide := [], negated := false } := by
  obtain ⟨wide, negated, members⟩ := Class.foldl_addRun Class.empty set.runs
  have bytes : (set.runs.foldl addRun Class.empty).bytes = set := by
    refine ByteSet.ext_of_mem fun c => ?_
    rw [members, ← ByteSet.mem_iff_runs]
    exact or_iff_right (ByteSet.not_mem_empty c)
  cases made : set.runs.foldl addRun Class.empty with
  | mk bytes' wide' negated' =>
      rw [made] at wide negated bytes
      cases wide
      cases negated
      cases bytes
      rfl

/-- A printed class is read as the class of the set. -/
theorem readClass_printClass (set : ByteSet) (rest : List Char) :
    readClass (set.runs.flatMap printRun ++ ']' :: rest) =
      .ok ({ bytes := set, wide := [], negated := false }, rest) := by
  have noCaret : Avoids '^' (set.runs.flatMap printRun ++ ']' :: rest) :=
    avoids_runs (by decide) (by decide) set.runs rest (by decide)
  have proper : ∀ run ∈ set.runs, run.1.toNat ≤ run.2.toNat :=
    fun run mem => ByteSet.le_of_mem_runs mem
  have read := readMembers_runs Class.empty proper rest
  unfold readClass
  split
  · rename_i caret
    rw [caret] at noCaret
    exact absurd rfl noCaret
  · rw [read, Class.foldl_runs]

end Munch.Pattern
