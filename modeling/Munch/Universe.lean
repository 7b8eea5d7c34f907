/-!
The alphabet that the wildcard and negated classes range over.

Patterns are about bytes.  A pattern is read against a universe, which is either the ASCII half of
the bytes or all of them; the universe decides only what `.` and `[^...]` stand for.
-/

set_option autoImplicit false

namespace Munch

/-- The bytes that the wildcard and negated classes range over. -/
inductive Universe where
  | ascii
  /-- All bytes, so that negated classes and the wildcard also take parts of wide characters. -/
  | bytes
  deriving DecidableEq, Repr, Inhabited

def Universe.max : Universe → UInt8
  | .ascii => 0x7f
  | .bytes => 0xff

end Munch
