import Mathlib.Data.Finset.Card
import Mathlib.Data.FinEnum
import Munch.Proofs.ByteSet.Membership

/-!
The finite sets of bytes that bitmaps stand for.

A construction is built up by the operations on byte sets, one in the other in any order.  It makes a
bitmap, and it names a finite set, in which nothing is known of words and bits.  The bitmap has the
members of this set (`mem_bitmap`), so counting the bits of its words counts the members
(`size_eq_length_toList`), and equal bitmaps are equal sets (`bitmap_spec`).
-/

set_option autoImplicit false

namespace Munch.ByteSet

variable {s : ByteSet} {b : UInt8}

section Size

theorem countP_range_mul (p : Nat → Bool) (n m : Nat) :
    (List.range (n * m)).countP p =
      ((List.range m).map fun i => (List.range n).countP fun j => p (n * i + j)).sum := by
  induction m with
  | zero => simp
  | succ m ih =>
      rw [Nat.mul_succ, List.range_add, List.countP_append, ih, List.countP_map, List.range_succ]
      simp [Function.comp_def]

theorem toList_words (s : ByteSet) :
    s.words.toList = [s.words[0], s.words[1], s.words[2], s.words[3]] := by
  obtain ⟨⟨⟨words⟩, length⟩⟩ := s
  match words, length with
  | [_, _, _, _], _ => rfl

theorem countP_word (s : ByteSet) {i : Nat} (word : i < 4) :
    (List.range 64).countP (fun j => s.contains (UInt8.ofNat (64 * i + j))) =
      bitCount s.words[i] := by
  rw [bitCount]
  refine List.countP_congr fun j mem => ?_
  exact mem_ofNat_iff word (List.mem_range.mp mem)

theorem size_eq_length_toList (s : ByteSet) : s.size = s.toList.length := by
  have members : s.toList.length =
      (List.range (64 * 4)).countP fun k => s.contains (UInt8.ofNat k) := by
    rw [toList, ← List.countP_eq_length_filter, allBytes, List.countP_map]
    rfl
  rw [members, countP_range_mul, size, toList_words]
  simp only [List.foldl_cons, List.foldl_nil, ← countP_word]
  simp [List.range_succ, Nat.add_assoc]

end Size

/-- A byte set as it is built up by operations. -/
inductive Construction where
  | empty
  | singleton (b : UInt8)
  | range (lo hi : UInt8)
  | ofList (bytes : List UInt8)
  | full (u : Universe)
  | wildcard (u : Universe)
  | insert (c : Construction) (b : UInt8)
  | insertRange (c : Construction) (lo hi : UInt8)
  | erase (c : Construction) (b : UInt8)
  | union (c d : Construction)
  | complementIn (c : Construction) (u : Universe)

namespace Construction

def bitmap : Construction → ByteSet
  | .empty => .empty
  | .singleton b => .singleton b
  | .range lo hi => .range lo hi
  | .ofList bytes => .ofList bytes
  | .full u => u.full
  | .wildcard u => u.wildcard
  | .insert c b => c.bitmap.insert b
  | .insertRange c lo hi => c.bitmap.insertRange lo hi
  | .erase c b => c.bitmap.erase b
  | .union c d => c.bitmap ∪ d.bitmap
  | .complementIn c u => c.bitmap.complementIn u

def bytesBetween (lo hi : UInt8) : Finset UInt8 :=
  {b | lo ≤ b ∧ b ≤ hi}

def bytesUpTo (hi : UInt8) : Finset UInt8 :=
  {b | b ≤ hi}

/-- What the operations mean. -/
def members : Construction → Finset UInt8
  | .empty => ∅
  | .singleton b => {b}
  | .range lo hi => bytesBetween lo hi
  | .ofList bytes => bytes.toFinset
  | .full u => bytesUpTo u.max
  | .wildcard u => bytesUpTo u.max \ {13, 10}
  | .insert c b => Insert.insert b c.members
  | .insertRange c lo hi => c.members ∪ bytesBetween lo hi
  | .erase c b => c.members.erase b
  | .union c d => c.members ∪ d.members
  | .complementIn c u => bytesUpTo u.max \ c.members

theorem mem_bitmap (c : Construction) (b : UInt8) : b ∈ c.bitmap ↔ b ∈ c.members := by
  induction c with
  | empty => simp [bitmap, members, not_mem_empty]
  | singleton a => simp [bitmap, members, ByteSet.singleton, mem_insert, not_mem_empty]
  | range lo hi => simp [bitmap, members, bytesBetween, ByteSet.range, mem_insertRange, not_mem_empty]
  | ofList bytes => simp [bitmap, members, ByteSet.ofList, mem_foldl_insert, not_mem_empty]
  | full u => simp [bitmap, members, bytesUpTo, mem_full]
  | wildcard u => simp [bitmap, members, bytesUpTo, mem_wildcard]
  | insert c a ih => simp [bitmap, members, mem_insert, ih, or_comm]
  | insertRange c lo hi ih => simp [bitmap, members, bytesBetween, mem_insertRange, ih]
  | erase c a ih => simp [bitmap, members, mem_erase, ih, and_comm]
  | union c d ihC ihD =>
      rw [bitmap, members, Finset.mem_union, ← ihC, ← ihD]
      exact mem_union
  | complementIn c u ih => simp [bitmap, members, bytesUpTo, mem_complementIn, ih]

theorem toList_toFinset (c : Construction) : c.bitmap.toList.toFinset = c.members := by
  ext b
  rw [List.mem_toFinset, mem_toList, mem_bitmap]

/-- Whatever operations a bitmap is made by, it is the finite set that they mean: its bits are the
members, the number of bits is the number of members, no bit is set exactly if there are none, the list
has each member once and in ascending order, and equal bitmaps are equal sets. -/
theorem bitmap_spec (c d : Construction) :
    (∀ b, c.bitmap.contains b = true ↔ b ∈ c.members) ∧
      c.bitmap.size = c.members.card ∧
      (c.bitmap.isEmpty = true ↔ c.members = ∅) ∧
      c.bitmap.toList.Pairwise (· < ·) ∧ (∀ b, b ∈ c.bitmap.toList ↔ b ∈ c.members) ∧
      (c.bitmap = d.bitmap ↔ c.members = d.members) := by
  refine ⟨c.mem_bitmap, ?_, ?_, ?_, fun b => ?_, ?_⟩
  · have once : c.bitmap.toList.Nodup := allBytes_nodup.filter _
    rw [size_eq_length_toList, ← c.toList_toFinset, List.toFinset_card_of_nodup once]
  · rw [isEmpty_iff, Finset.eq_empty_iff_forall_notMem]
    exact forall_congr' fun b => not_congr (c.mem_bitmap b)
  · exact c.bitmap.toList_ascending
  · rw [mem_toList, mem_bitmap]
  · constructor
    · intro same
      rw [← toList_toFinset, same, toList_toFinset]
    · intro same
      refine ext_of_mem fun b => ?_
      rw [mem_bitmap, same, mem_bitmap]

end Construction

end Munch.ByteSet
