import Munch.Text.Blank

/-!
The lines of a rule file.

A line is skipped if it is blank or begins with `#`, opens a mode if it begins with `>`, and is a
rule otherwise: a name, an arrow `=>` and a pattern, and after a second arrow possibly an action.
Only an arrow outside classes and quotes ends the pattern, and a backslash takes the meaning of the
character after it away.
-/

set_option autoImplicit false

namespace Munch.RuleFile

def splitArrow? : List Char → Option (List Char × List Char)
  | [] => none
  | '=' :: '>' :: rest => some ([], rest)
  | c :: rest => (splitArrow? rest).map fun s => (c :: s.1, s.2)

/-- How many characters stand before the arrow that ends a pattern, if there is one.  The flags say
whether the text begins inside a class or inside quotes. -/
def arrowOffset? (inClass inQuotes : Bool) : List Char → Option Nat
  | [] => none
  | ['\\'] => none
  | '\\' :: _ :: rest => (arrowOffset? inClass inQuotes rest).map (· + 2)
  | c :: rest =>
      if c = '=' && !inClass && !inQuotes && rest.head? = some '>' then some 0
      else
        let inQuotes' := if c = '"' && !inClass then !inQuotes else inQuotes
        let inClass' :=
          if c = '[' && !inClass && !inQuotes then true
          else if c = ']' && inClass then false
          else inClass
        (arrowOffset? inClass' inQuotes' rest).map (· + 1)

/-- The pattern of a rule and its action, from what follows the name and its arrow.  An action is
trimmed, and none if nothing is left of it. -/
def splitAction (rest : List Char) : List Char × Option (List Char) :=
  match arrowOffset? false false rest with
  | none => (rest, none)
  | some offset =>
      let action := Text.trim (rest.drop (offset + 2))
      (rest.take offset, if action.isEmpty then none else some action)

/-- What a line says. -/
inductive Line where
  | skipped
  | header (name : List Char)
  | rule (name pattern : List Char) (action : Option (List Char))
  | arrowless
  deriving DecidableEq

def Line.read (line : List Char) : Line :=
  if line.all Text.isBlank then .skipped
  else
    match line with
    | '#' :: _ => .skipped
    | '>' :: title => .header (Text.trim title)
    | _ =>
        match splitArrow? line with
        | none => .arrowless
        | some (name, rest) =>
            let (pattern, action) := splitAction rest
            .rule (Text.trim name) pattern action

end Munch.RuleFile
