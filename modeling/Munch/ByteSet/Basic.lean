import Munch.Universe

/-!
Sets of bytes, kept as a bitmap of four words.

Byte `b` is bit `b % 64` of word `b / 64`.  The view of a set is `contains`: it says for each of the
256 bytes whether it is a member, and every operation is described by what it does to that answer.
-/

set_option autoImplicit false

namespace Munch

/-- A set of bytes: bit `b % 64` of word `b / 64` says whether `b` is a member. -/
structure ByteSet where
  words : Vector UInt64 4
  deriving DecidableEq

namespace ByteSet

def allBytes : List UInt8 :=
  (List.range 256).map UInt8.ofNat

theorem map_toNat_allBytes : allBytes.map UInt8.toNat = List.range 256 := by
  unfold allBytes
  rw [List.map_map]
  conv => rhs; rw [← List.map_id (List.range 256)]
  apply List.map_congr_left
  intro n below
  have : n < 256 := List.mem_range.mp below
  simpa using Nat.mod_eq_of_lt this

theorem allBytes_ascending : allBytes.Pairwise fun b c => b.toNat < c.toNat :=
  List.pairwise_map.mp (map_toNat_allBytes ▸ List.pairwise_lt_range)

theorem allBytes_nodup : allBytes.Nodup :=
  allBytes_ascending.imp fun lt same => Nat.ne_of_lt lt (congrArg UInt8.toNat same)

theorem mem_allBytes (b : UInt8) : b ∈ allBytes :=
  List.mem_map.mpr ⟨b.toNat, List.mem_range.mpr b.toNat_lt, UInt8.ofNat_toNat⟩

private theorem word_lt (b : UInt8) : b.toNat / 64 < 4 := by
  have bound := b.toNat_lt
  omega

def mask (b : UInt8) : UInt64 :=
  1 <<< UInt64.ofNat (b.toNat % 64)

def word (s : ByteSet) (b : UInt8) : UInt64 :=
  s.words.get ⟨b.toNat / 64, word_lt b⟩

def contains (s : ByteSet) (b : UInt8) : Bool :=
  s.word b &&& mask b != 0

instance : Membership UInt8 ByteSet where
  mem s b := s.contains b = true

instance (b : UInt8) (s : ByteSet) : Decidable (b ∈ s) :=
  inferInstanceAs (Decidable (s.contains b = true))

def empty : ByteSet :=
  ⟨Vector.replicate 4 0⟩

instance : EmptyCollection ByteSet := ⟨empty⟩

instance : Inhabited ByteSet := ⟨empty⟩

def insert (s : ByteSet) (b : UInt8) : ByteSet :=
  ⟨s.words.set (b.toNat / 64) (s.word b ||| mask b) (word_lt b)⟩

def erase (s : ByteSet) (b : UInt8) : ByteSet :=
  ⟨s.words.set (b.toNat / 64) (s.word b &&& ~~~(mask b)) (word_lt b)⟩

def singleton (b : UInt8) : ByteSet :=
  empty.insert b

/-- The bytes from `lo` to `hi`, both included; none if `lo` is above `hi`. -/
def interval (lo hi : UInt8) : List UInt8 :=
  allBytes.filter fun b => lo ≤ b && b ≤ hi

/-- Adds the bytes from `lo` to `hi`, both included; nothing if `lo` is above `hi`. -/
def insertRange (s : ByteSet) (lo hi : UInt8) : ByteSet :=
  (interval lo hi).foldl insert s

def range (lo hi : UInt8) : ByteSet :=
  empty.insertRange lo hi

def ofList (bytes : List UInt8) : ByteSet :=
  bytes.foldl insert empty

def ofRanges (ranges : List (UInt8 × UInt8)) : ByteSet :=
  ranges.foldl (fun s r => s.insertRange r.1 r.2) empty

def union (s t : ByteSet) : ByteSet :=
  ⟨Vector.zipWith (· ||| ·) s.words t.words⟩

instance : Union ByteSet := ⟨union⟩

def isEmpty (s : ByteSet) : Bool :=
  s.words.all (· == 0)

def bitCount (w : UInt64) : Nat :=
  (List.range 64).countP fun i => w.toNat.testBit i

def size (s : ByteSet) : Nat :=
  s.words.toList.foldl (fun n w => n + bitCount w) 0

def toList (s : ByteSet) : List UInt8 :=
  allBytes.filter s.contains

theorem mem_toList {s : ByteSet} {b : UInt8} : b ∈ s.toList ↔ b ∈ s := by
  rw [toList, List.mem_filter, and_iff_right (mem_allBytes b)]
  rfl

end ByteSet

def Universe.full (u : Universe) : ByteSet :=
  ByteSet.range 0 u.max

/-- What `.` stands for: every byte of the universe except carriage return and line feed. -/
def Universe.wildcard (u : Universe) : ByteSet :=
  (u.full.erase 13).erase 10

def ByteSet.complementIn (s : ByteSet) (u : Universe) : ByteSet :=
  s.toList.foldl ByteSet.erase u.full

end Munch
