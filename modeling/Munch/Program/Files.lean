/-!
Files as the program sees them: contents by paths, or reasons why there are none.
-/

set_option autoImplicit false

namespace Munch.Program

/-- Why a file cannot be read. -/
inductive FileError where
  | missing
  | folder
  /-- The name goes on behind something that is no folder. -/
  | notFolder
  | nameTooLong
  | denied
  /-- The contents are no text. -/
  | notUtf8
  | other (text : String)
  deriving DecidableEq

def FileError.message : FileError → String
  | .missing => "No such file or directory (os error 2)"
  | .folder => "Is a directory (os error 21)"
  | .notFolder => "Not a directory (os error 20)"
  | .nameTooLong => "File name too long (os error 36)"
  | .denied => "Permission denied (os error 13)"
  | .notUtf8 => "stream did not contain valid UTF-8"
  | .other text => text

abbrev Files := String → Except FileError ByteArray

def readText (files : Files) (path : String) : Except FileError String :=
  match files path with
  | .error e => .error e
  | .ok bytes =>
      match String.fromUTF8? bytes with
      | some text => .ok text
      | none => .error .notUtf8

end Munch.Program
