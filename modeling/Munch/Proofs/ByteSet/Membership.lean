import Mathlib.Data.Nat.Bitwise
import Munch.ByteSet.Runs

/-!
The members of byte sets.

A byte is a member if its bit is set in its word (`contains_eq_testBit`).  Adding and erasing bytes
changes these members and no other, and sets with the same members are the same.  What a universe
makes of a set follows from it (`mem_wildcard`, `mem_complementIn`).
-/

set_option autoImplicit false

namespace Munch.ByteSet

variable {s t : ByteSet} {b c lo hi : UInt8}

theorem toNat_mask (b : UInt8) : (mask b).toNat = 2 ^ (b.toNat % 64) := by
  have small : b.toNat % 64 < 64 := Nat.mod_lt _ (by decide)
  have bound : 2 ^ (b.toNat % 64) < 2 ^ 64 := Nat.pow_lt_pow_right (by decide) small
  have shift : (UInt64.ofNat (b.toNat % 64)).toNat % 64 = b.toNat % 64 := by
    rw [UInt64.toNat_ofNat']
    omega
  rw [mask, UInt64.toNat_shiftLeft, shift]
  exact (congrArg (· % 2 ^ 64) (Nat.one_shiftLeft _)).trans (Nat.mod_eq_of_lt bound)

theorem contains_eq_testBit (s : ByteSet) (b : UInt8) :
    s.contains b = (s.word b).toNat.testBit (b.toNat % 64) := by
  have zero : s.word b &&& mask b = 0 ↔ (s.word b).toNat.testBit (b.toNat % 64) = false := by
    rw [← UInt64.toNat_inj, UInt64.toNat_and, toNat_mask, Nat.and_two_pow]
    simp
  rw [contains, Bool.eq_iff_iff, bne_iff_ne, ne_eq, zero, Bool.not_eq_false]

theorem mem_iff_testBit : b ∈ s ↔ (s.word b).toNat.testBit (b.toNat % 64) = true := by
  rw [← contains_eq_testBit]
  rfl

theorem not_mem_empty (b : UInt8) : b ∉ ByteSet.empty := by
  have word : ByteSet.empty.word b = 0 := Vector.getElem_replicate _
  rw [mem_iff_testBit, word]
  simp

theorem not_mem_of_isEmpty (empty : s.isEmpty = true) : b ∉ s := by
  have bound := b.toNat_lt
  have zero : s.word b = 0 := by
    rw [isEmpty, Vector.all_eq_true] at empty
    exact eq_of_beq (empty (b.toNat / 64) (by omega))
  rw [mem_iff_testBit, zero]
  simp

theorem byte_eq_iff : c = b ↔ c.toNat / 64 = b.toNat / 64 ∧ c.toNat % 64 = b.toNat % 64 := by
  rw [← UInt8.toNat_inj]
  omega

theorem word_insert (s : ByteSet) (b c : UInt8) :
    (s.insert b).word c =
      if b.toNat / 64 = c.toNat / 64 then s.word b ||| mask b else s.word c := by
  have boundB := b.toNat_lt
  have boundC := c.toNat_lt
  exact Vector.getElem_set (by omega) (by omega)

theorem mem_insert : c ∈ s.insert b ↔ c ∈ s ∨ c = b := by
  rw [mem_iff_testBit, mem_iff_testBit, byte_eq_iff, word_insert]
  by_cases same : b.toNat / 64 = c.toNat / 64
  · have words : s.word b = s.word c := by simp [word, same]
    rw [if_pos same, words, UInt64.toNat_or, Nat.testBit_or, toNat_mask, Nat.testBit_two_pow,
      Bool.or_eq_true, decide_eq_true_eq, and_iff_right same.symm, @eq_comm _ (c.toNat % 64)]
  · rw [if_neg same]
    simp [Ne.symm same]

theorem mem_foldl_insert {bytes : List UInt8} :
    c ∈ bytes.foldl insert s ↔ c ∈ s ∨ c ∈ bytes := by
  induction bytes generalizing s with
  | nil => simp
  | cons b rest ih =>
      rw [List.foldl_cons, ih, mem_insert, List.mem_cons]
      exact or_assoc

theorem mem_insertRange : c ∈ s.insertRange lo hi ↔ c ∈ s ∨ lo ≤ c ∧ c ≤ hi := by
  rw [insertRange, mem_foldl_insert, interval, List.mem_filter, and_iff_right (mem_allBytes c),
    Bool.and_eq_true, decide_eq_true_eq, decide_eq_true_eq]

theorem word_erase (s : ByteSet) (b c : UInt8) :
    (s.erase b).word c =
      if b.toNat / 64 = c.toNat / 64 then s.word b &&& ~~~(mask b) else s.word c := by
  have boundB := b.toNat_lt
  have boundC := c.toNat_lt
  exact Vector.getElem_set (by omega) (by omega)

theorem mem_erase : c ∈ s.erase b ↔ c ∈ s ∧ c ≠ b := by
  rw [mem_iff_testBit, mem_iff_testBit, ne_eq, byte_eq_iff, word_erase]
  by_cases same : b.toNat / 64 = c.toNat / 64
  · have words : s.word b = s.word c := by simp [word, same]
    have small : c.toNat % 64 < 64 := Nat.mod_lt _ (by decide)
    rw [if_pos same, words, UInt64.toNat_and, UInt64.toNat_not, Nat.testBit_and,
      show UInt64.size - 1 - (mask b).toNat = 2 ^ 64 - ((mask b).toNat + 1) by
        rw [Nat.sub_sub, Nat.add_comm]
        rfl,
      Nat.testBit_two_pow_sub_succ (mask b).toNat_lt, toNat_mask, Nat.testBit_two_pow]
    simp [small, same, @eq_comm _ (c.toNat % 64)]
  · rw [if_neg same]
    simp [Ne.symm same]

theorem mem_foldl_erase {bytes : List UInt8} :
    c ∈ bytes.foldl erase s ↔ c ∈ s ∧ c ∉ bytes := by
  induction bytes generalizing s with
  | nil => simp
  | cons b rest ih =>
      rw [List.foldl_cons, ih, mem_erase, List.mem_cons, not_or]
      exact and_assoc

theorem mem_full {u : Universe} : c ∈ u.full ↔ c ≤ u.max := by
  rw [Universe.full, range, mem_insertRange]
  simp [not_mem_empty]

theorem mem_wildcard {u : Universe} : c ∈ u.wildcard ↔ c ≤ u.max ∧ c ≠ 13 ∧ c ≠ 10 := by
  rw [Universe.wildcard, mem_erase, mem_erase, mem_full, and_assoc]

theorem mem_complementIn {u : Universe} : c ∈ s.complementIn u ↔ c ≤ u.max ∧ c ∉ s := by
  rw [complementIn, mem_foldl_erase, mem_full, mem_toList]

theorem word_union (s t : ByteSet) (b : UInt8) : (s.union t).word b = s.word b ||| t.word b := by
  have bound := b.toNat_lt
  exact Vector.getElem_zipWith (by omega)

theorem mem_union : c ∈ s.union t ↔ c ∈ s ∨ c ∈ t := by
  rw [mem_iff_testBit, mem_iff_testBit, mem_iff_testBit, word_union, UInt64.toNat_or, Nat.testBit_or,
    Bool.or_eq_true]

theorem mem_ofNat_iff {i j : Nat} (word : i < 4) (bit : j < 64) :
    UInt8.ofNat (64 * i + j) ∈ s ↔ s.words[i].toNat.testBit j = true := by
  have number : (UInt8.ofNat (64 * i + j)).toNat = 64 * i + j := by
    rw [UInt8.toNat_ofNat']
    omega
  have quotient : (UInt8.ofNat (64 * i + j)).toNat / 64 = i := by omega
  have remainder : (UInt8.ofNat (64 * i + j)).toNat % 64 = j := by omega
  rw [mem_iff_testBit, remainder, ByteSet.word]
  simp only [quotient]
  rfl

theorem ext_of_mem (same : ∀ b, b ∈ s ↔ b ∈ t) : s = t := by
  have words : s.words = t.words := by
    apply Vector.ext
    intro i below
    apply UInt64.toNat_inj.mp
    apply Nat.eq_of_testBit_eq
    intro j
    by_cases inside : j < 64
    · have agree := same (UInt8.ofNat (64 * i + j))
      rwa [mem_ofNat_iff below inside, mem_ofNat_iff below inside, ← Bool.eq_iff_iff] at agree
    · have large : 2 ^ 64 ≤ 2 ^ j := Nat.pow_le_pow_right (by decide) (by omega)
      rw [Nat.testBit_lt_two_pow (Nat.lt_of_lt_of_le (UInt64.toNat_lt _) large),
        Nat.testBit_lt_two_pow (Nat.lt_of_lt_of_le (UInt64.toNat_lt _) large)]
  obtain ⟨words'⟩ := s
  cases words
  rfl

theorem isEmpty_iff : s.isEmpty = true ↔ ∀ b, b ∉ s := by
  constructor
  · exact fun empty b => not_mem_of_isEmpty empty
  · intro none
    have same : s = ByteSet.empty := ext_of_mem fun b => iff_of_false (none b) (not_mem_empty b)
    simp [same, isEmpty, ByteSet.empty]

theorem allBytes_lt : allBytes.Pairwise (· < ·) :=
  allBytes_ascending.imp fun lt => UInt8.lt_iff_toNat_lt.mpr lt

theorem toList_ascending (s : ByteSet) : s.toList.Pairwise (· < ·) :=
  allBytes_lt.filter _

end Munch.ByteSet
