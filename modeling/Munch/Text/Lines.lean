/-!
A text cut into its lines.

A line feed ends a line and takes one carriage return before it away.  What follows the last line
feed is a line of its own unless it is empty, and keeps its carriage return.
-/

set_option autoImplicit false

namespace Munch.Text

def consLine (c : Char) : List (List Char) → List (List Char)
  | [] => [[c]]
  | line :: rest => (c :: line) :: rest

def lines : List Char → List (List Char)
  | [] => []
  | '\n' :: rest => [] :: lines rest
  | '\r' :: '\n' :: rest => [] :: lines rest
  | c :: rest => consLine c (lines rest)

/-- The text without a carriage return at its end. -/
def chopReturn (s : List Char) : List Char :=
  if s.getLast? = some '\r' then s.dropLast else s

end Munch.Text
