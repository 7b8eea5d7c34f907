import Munch.Text.Hex
import Munch.Text.Printable
import Munch.Text.Combining

/-!
Quoted forms of characters, strings and bytes, as messages show them.

A character or a string stands between its quotes with the quote, the backslash, combining marks
and everything unprintable escaped.  A byte is shown by itself if it is printable ASCII and in
hexadecimal otherwise.
-/

set_option autoImplicit false

namespace Munch.Text

/-- The escape that names a character by its code point. -/
def codePointEscape (c : Char) : List Char :=
  ['\\', 'u', '\x7b'] ++ hexNat c.toNat ++ ['\x7d']

/-- A character as it stands between two of the given quotes. -/
def quotedChar (quote : Char) (c : Char) : List Char :=
  if c = '\x00' then ['\\', '0']
  else if c = '\t' then ['\\', 't']
  else if c = '\r' then ['\\', 'r']
  else if c = '\n' then ['\\', 'n']
  else if c = '\\' then ['\\', '\\']
  else if c = quote then ['\\', quote]
  else if isPrintable c && !isCombining c then [c]
  else codePointEscape c

def quoteChar (c : Char) : String :=
  String.ofList ('\x27' :: (quotedChar '\x27' c ++ ['\x27']))

def quoteString (s : String) : String :=
  String.ofList ('"' :: (s.toList.flatMap (quotedChar '"') ++ ['"']))

/-- A byte as printable ASCII: control bytes, quotes, the backslash and high bytes are escaped. -/
def escapeByte (b : UInt8) : List Char :=
  if b = 9 then ['\\', 't']
  else if b = 13 then ['\\', 'r']
  else if b = 10 then ['\\', 'n']
  else if b = 39 then ['\\', '\x27']
  else if b = 34 then ['\\', '"']
  else if b = 92 then ['\\', '\\']
  else if 0x20 ≤ b ∧ b ≤ 0x7e then [Char.ofNat b.toNat]
  else '\\' :: 'x' :: hexByte b

def escapeBytes (bytes : List UInt8) : List Char :=
  bytes.flatMap escapeByte

end Munch.Text
