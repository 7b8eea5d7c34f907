import Mathlib.Tactic.SplitIfs
import Munch.Text.Quoted

/-!
Escaped bytes read back.

The escaped form of bytes is printable ASCII (`escapeBytes_isPrint`), so neither a tab nor a line feed
stands in it.  `unescapeBytes?` takes the escapes away again: the escaped form of one byte is undone
with anything behind it (`unescapeBytes?_escapeByte`), and so that of all bytes is
(`unescapeBytes?_escapeBytes`).
-/

set_option autoImplicit false

namespace Munch.Text

def letterByte? : Char → Option UInt8
  | 't' => some 9
  | 'r' => some 13
  | 'n' => some 10
  | '\x27' => some 39
  | '"' => some 34
  | '\\' => some 92
  | _ => none

def digitsByte? (high low : Char) : Option UInt8 :=
  match hexValue? high, hexValue? low with
  | some high, some low => some (UInt8.ofNat (16 * high + low))
  | _, _ => none

def plainByte? (c : Char) : Option UInt8 :=
  if 0x20 ≤ c.toNat ∧ c.toNat ≤ 0x7e ∧ c ≠ '\\' then some (UInt8.ofNat c.toNat) else none

def consByte? (b : Option UInt8) (bytes : Option (List UInt8)) : Option (List UInt8) :=
  b.bind fun b => bytes.map (b :: ·)

/-- The bytes of which a text is the escaped form. -/
def unescapeBytes? : List Char → Option (List UInt8)
  | [] => some []
  | '\\' :: 'x' :: high :: low :: rest => consByte? (digitsByte? high low) (unescapeBytes? rest)
  | '\\' :: c :: rest => consByte? (letterByte? c) (unescapeBytes? rest)
  | c :: rest => consByte? (plainByte? c) (unescapeBytes? rest)

theorem hexValue?_hexDigit (n : Nat) : hexValue? (hexDigit n) = some (n % 16) := by
  have digits : ∀ d : Fin 16, hexValue? (Nat.digitChar d.val) = some d.val := by decide
  exact digits ⟨n % 16, Nat.mod_lt n (by decide)⟩

theorem digitsByte?_hexDigit (b : UInt8) :
    digitsByte? (hexDigit (b.toNat / 16)) (hexDigit b.toNat) = some b := by
  have bound := b.toNat_lt
  have value : 16 * (b.toNat / 16 % 16) + b.toNat % 16 = b.toNat := by omega
  simp only [digitsByte?, hexValue?_hexDigit, value, UInt8.ofNat_toNat]

theorem plainByte?_ofNat {b : UInt8} (printable : 0x20 ≤ b ∧ b ≤ 0x7e) (plain : b ≠ 92) :
    plainByte? (Char.ofNat b.toNat) = some b ∧ Char.ofNat b.toNat ≠ '\\' := by
  have every : ∀ n : Fin 256, 0x20 ≤ n.val → n.val ≤ 0x7e → n.val ≠ 92 →
      plainByte? (Char.ofNat n.val) = some (UInt8.ofNat n.val) ∧ Char.ofNat n.val ≠ '\\' := by
    decide +kernel
  have other : b.toNat ≠ 92 := fun same => plain (UInt8.toNat_inj.mp same)
  have own := every ⟨b.toNat, b.toNat_lt⟩ (UInt8.le_iff_toNat_le.mp printable.1)
    (UInt8.le_iff_toNat_le.mp printable.2) other
  rwa [UInt8.ofNat_toNat] at own

theorem unescapeBytes?_plain {c : Char} (rest : List Char) (plain : c ≠ '\\') :
    unescapeBytes? (c :: rest) = consByte? (plainByte? c) (unescapeBytes? rest) := by
  rw [unescapeBytes?]
  · simp [plain]
  · simp [plain]

/-- The escaped form of a byte is undone, whatever stands behind it. -/
theorem unescapeBytes?_escapeByte (b : UInt8) (rest : List Char) :
    unescapeBytes? (escapeByte b ++ rest) = (unescapeBytes? rest).map (b :: ·) := by
  unfold escapeByte
  split_ifs with tab ret feed quote double back printable
  · subst tab
    rfl
  · subst ret
    rfl
  · subst feed
    rfl
  · subst quote
    rfl
  · subst double
    rfl
  · subst back
    rfl
  · obtain ⟨own, plain⟩ := plainByte?_ofNat printable back
    rw [List.singleton_append, unescapeBytes?_plain rest plain, own]
    rfl
  · simp only [hexByte, List.cons_append, List.nil_append, unescapeBytes?, digitsByte?_hexDigit]
    rfl

theorem unescapeBytes?_escapeBytes (bytes : List UInt8) :
    unescapeBytes? (escapeBytes bytes) = some bytes := by
  induction bytes with
  | nil => rfl
  | cons b rest ih =>
      rw [escapeBytes, List.flatMap_cons, unescapeBytes?_escapeByte]
      rw [escapeBytes] at ih
      rw [ih]
      rfl

def isPrint (c : Char) : Bool :=
  0x20 ≤ c.toNat && c.toNat ≤ 0x7e

theorem escapeBytes_isPrint {bytes : List UInt8} {c : Char} (mem : c ∈ escapeBytes bytes) :
    isPrint c = true := by
  have every : ∀ n : Fin 256, (escapeByte (UInt8.ofNat n.val)).all isPrint = true := by
    decide +kernel
  obtain ⟨b, -, written⟩ := List.mem_flatMap.mp mem
  have own := every ⟨b.toNat, b.toNat_lt⟩
  rw [UInt8.ofNat_toNat] at own
  exact List.all_eq_true.mp own c written

end Munch.Text
