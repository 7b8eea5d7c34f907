import Munch.Program.Answer

/-!
The arguments of a call, as the outer layer reads them.

A call names a rule file and a command: `tables`, `dot` or `scan INPUT`.  Options stand before the
command: `-u` or `--universe` with a value, and `-v` or `--verbose`, each at most once.  Options of
one letter may share a minus sign, and a value may stand in the argument of its option or be the next
one.
-/

set_option autoImplicit false

namespace Munch.CommandLine

open Program (Command Request)

structure Options where
  rules : Option String := none
  alphabet : Option Universe := none
  verbose : Bool := false
  deriving DecidableEq

namespace Options

def setUniverse? (o : Options) (value : List Char) : Option Options :=
  match o.alphabet, String.ofList value with
  | none, "ascii" => some { o with alphabet := some .ascii }
  | none, "bytes" => some { o with alphabet := some .bytes }
  | _, _ => none

def setVerbose? (o : Options) : Option Options :=
  if o.verbose then none else some { o with verbose := true }

def setRules? (o : Options) (path : List Char) : Option Options :=
  match o.rules, path with
  | none, _ :: _ => some { o with rules := some (String.ofList path) }
  | _, _ => none

end Options

/-- Options of one letter that share a minus sign.  The option for the universe takes what follows
as its value, behind an equals sign or not; whether its value has to be the next argument is said as
well. -/
def shortOptions? (o : Options) : List Char → Option (Options × Bool)
  | [] => some (o, false)
  | 'v' :: rest => o.setVerbose?.bind fun o => shortOptions? o rest
  | ['u'] => some (o, true)
  | 'u' :: '=' :: value => (o.setUniverse? value).map fun o => (o, false)
  | 'u' :: value => (o.setUniverse? value).map fun o => (o, false)
  | _ => none

def splitValue : List Char → List Char × Option (List Char)
  | [] => ([], none)
  | '=' :: value => ([], some value)
  | c :: rest =>
      let (name, value) := splitValue rest
      (c :: name, value)

/-- An option by its name; whether its value has to be the next argument is said as well. -/
def longOption? (o : Options) (text : List Char) : Option (Options × Bool) :=
  let (name, value) := splitValue text
  match String.ofList name, value with
  | "universe", some value => (o.setUniverse? value).map fun o => (o, false)
  | "universe", none => some (o, true)
  | "verbose", none => o.setVerbose?.map fun o => (o, false)
  | _, _ => none

/-- Does an argument look like an option?  A lone minus sign does not. -/
def isOption : List Char → Bool
  | '-' :: _ :: _ => true
  | _ => false

/-- The arguments of a command, of which a double minus sign at most once introduces the ones that
are no options. -/
def operands? : List (List Char) → Option (List (List Char))
  | [] => some []
  | ['-', '-'] :: rest => some rest
  | arg :: rest => if isOption arg then none else (operands? rest).map (arg :: ·)

def command? (name : List Char) (args : List (List Char)) : Option Command :=
  match String.ofList name, operands? args with
  | "tables", some [] => some .tables
  | "dot", some [] => some .dot
  | "scan", some [input] => if input.isEmpty then none else some (.scan (String.ofList input))
  | _, _ => none

/-- Is it the name of a command?  `help` is one as well, but asks nothing of the program. -/
def isCommand (arg : List Char) : Bool :=
  ["tables", "dot", "scan", "help"].contains (String.ofList arg)

/-- An argument that is no command; whether the next one has to be the value of the option for the
universe is said as well. -/
def argument? (o : Options) (arg : List Char) : Option (Options × Bool) :=
  match isOption arg, arg with
  | true, '-' :: '-' :: name => longOption? o name
  | true, _ :: letters => shortOptions? o letters
  | _, _ => (o.setRules? arg).map fun o => (o, false)

def Options.request? (o : Options) (command : Option Command) : Option Request :=
  match o.rules, command with
  | some rules, some command => some ⟨rules, o.alphabet.getD .ascii, o.verbose, command⟩
  | _, _ => none

def readArgs? (o : Options) : List (List Char) → Option Request
  | [] => none
  | arg :: rest =>
      if isCommand arg then o.request? (command? arg rest)
      else
        match argument? o arg with
        | none => none
        | some (o, false) => readArgs? o rest
        | some (o, true) =>
            match rest with
            | [] => none
            | value :: rest =>
                match o.setUniverse? value with
                | none => none
                | some o => readArgs? o rest

def request? (args : List String) : Option Request :=
  readArgs? {} (args.map String.toList)

end Munch.CommandLine
