import Munch.Lexer.TokenStream
import Munch.Program.Files
import Munch.RuleFile.Compile

/-!
What the program answers to a request.

The command `tables` prints the tables of every mode of a rule file, `dot` draws the compiled
automaton of every mode, and `scan` prints the tokens that the mode `INITIAL` finds in a file.  What a
command needs of the world is the contents of files, so its answer is a function of them.  The words of
a command line are read outside, and it is left to a logger how an event looks that is logged.
-/

set_option autoImplicit false

namespace Munch.Program

inductive Command where
  | tables
  | dot
  | scan (input : String)
  deriving DecidableEq

structure Request where
  rules : String
  alphabet : Universe
  verbose : Bool
  command : Command
  deriving DecidableEq

/-- What the program prints and how it ends. -/
structure Report where
  exitCode : UInt8
  output : String
  errors : String
  deriving DecidableEq

namespace Report

def success (output : String) : Report :=
  ⟨0, output, ""⟩

def failure (output message : String) : Report :=
  ⟨1, output, message ++ "\n"⟩

end Report

def unreadable (path : String) (e : FileError) : String :=
  "Failed to read " ++ path ++ ": " ++ e.message

def printTables (l : Lexer) : Report :=
  match l.exportTables with
  | .error e => .failure "" e.message
  | .ok (modes, _) => .success (String.join (modes.map fun m => m.text ++ "\n"))

def drawMode (name : String) (rules : RuleSet) : String :=
  match rules.compiled with
  | none => ""
  | some d => "// " ++ name ++ "\n" ++ d.graph.dot

def printDot (l : Lexer) : Report :=
  .success (String.join (l.compile.modes.map fun m => drawMode m.1 m.2))

def tokenLine (token : Token) : String :=
  token.rule ++ "\t" ++ String.ofList (Text.escapeBytes token.bytes) ++ "\n"

/-- The tokens of an input up to its end or the first failure. -/
def printItems (path : String) (output : String) : List TokenStream.Item → Report
  | [] => .success output
  | .token token :: rest => printItems path (output ++ tokenLine token) rest
  | .failure (.unexpectedByte byte pos) :: _ =>
      .failure output (path ++ ": " ++ (ScanError.unexpectedByte byte pos).message)
  | .failure (.lexer e) :: _ | .refused e :: _ => .failure output e.message

def noSwitching : TokenStream.Switching :=
  fun _ => none

def printTokens (files : Files) (path : String) (l : Lexer) : Report :=
  match files path with
  | .error e => .failure "" (unreadable path e)
  | .ok bytes =>
      match l.setMode Lexer.initial with
      | .error e => .failure "" e.message
      | .ok l => printItems path "" ((TokenStream.start l bytes.toList).run noSwitching).1

def carryOut (files : Files) (l : Lexer) : Command → Report
  | .tables => printTables l
  | .dot => printDot l
  | .scan input => printTokens files input l

def answer (files : Files) (r : Request) : Report :=
  match readText files r.rules with
  | .error e => .failure "" (unreadable r.rules e)
  | .ok text =>
      match RuleFile.compile r.alphabet text with
      | .error e => .failure "" ("Failed to compile " ++ r.rules ++ ": " ++ e.message)
      | .ok l => carryOut files l r.command

def carryOutEvents (files : Files) (l : Lexer) : Command → List Event
  | .tables => l.exportEvents
  | .dot => l.compileEvents
  | .scan input =>
      match files input, l.setMode Lexer.initial with
      | .ok bytes, .ok switched =>
          let stream := TokenStream.start switched bytes.toList
          l.setModeEvents Lexer.initial ++ stream.runEvents noSwitching stream.steps
      | _, _ => []

def answerEvents (files : Files) (r : Request) : List Event :=
  match readText files r.rules with
  | .error _ => []
  | .ok text =>
      RuleFile.compileEvents r.alphabet text ++
        match RuleFile.compile r.alphabet text with
        | .error _ => []
        | .ok l => carryOutEvents files l r.command

/-- What is logged on the way to an answer: for a verbose request what is for debugging, and nothing
else. -/
def journal (files : Files) (r : Request) : List Event :=
  if r.verbose then (answerEvents files r).filter fun e => e.level = .debug else []

end Munch.Program
