import Munch.Lexer.Basic
import Munch.RuleFile.Line
import Munch.Text.Lines

/-!
Rule files: lexers as text.

The rules before the first header belong to the mode `INITIAL`, and those after a header to the mode
that it names.  A file may begin with a header that names `INITIAL`, as long as no rule stands before
it; apart from that no header may name a mode that exists.  The first line that is wrong decides, and
what stands after it is not looked at.
-/

set_option autoImplicit false

namespace Munch.RuleFile

inductive Cause where
  | missingModeName
  | duplicateMode (name : String)
  | arrowless
  | missingRuleName
  | emptyPattern (rule : String)
  | badPattern (rule : String) (error : Pattern.Error)
  deriving DecidableEq

inductive Error where
  /-- Something is wrong with a line; the first one has the number one. -/
  | atLine (number : Nat) (cause : Cause)
  | lexer (error : Lexer.Error)
  deriving DecidableEq

/-- The message for a cause, without what is wrong with a pattern. -/
def Cause.summary : Cause → String
  | .missingModeName => "missing lexer state name after '>'"
  | .duplicateMode name => "lexer state " ++ name ++ " declared twice"
  | .arrowless => "expected 'name=>pattern'"
  | .missingRuleName => "rule has no name"
  | .emptyPattern rule => "rule " ++ rule ++ " has an empty pattern"
  | .badPattern rule _ => "invalid pattern for rule " ++ rule

def Cause.patternError? : Cause → Option Pattern.Error
  | .badPattern _ e => some e
  | _ => none

def Error.patternError? : Error → Option Pattern.Error
  | .atLine _ cause => cause.patternError?
  | .lexer _ => none

/-- The message for an error, without what is wrong with a pattern. -/
def Error.summary : Error → String
  | .atLine number cause => "line " ++ toString number ++ ": " ++ cause.summary
  | .lexer e => e.message

def Error.message (e : Error) : String :=
  match e.patternError? with
  | none => e.summary
  | some cause => e.summary ++ ": " ++ cause.message

/-- What the lines so far have made. -/
structure Draft where
  /-- The modes before the last one, in order. -/
  earlier : List (String × RuleSet)
  name : String
  rules : RuleSet
  headers : Nat

namespace Draft

def new : Draft :=
  ⟨[], Lexer.initial, .empty, 0⟩

def modes (d : Draft) : List (String × RuleSet) :=
  d.earlier ++ [(d.name, d.rules)]

/-- Does a header with this name go on with the mode that the file begins with? -/
def reopensInitial (d : Draft) (name : String) : Bool :=
  name = Lexer.initial && d.headers = 0 && d.rules.rules.isEmpty

def addHeader (d : Draft) (name : List Char) : Except Cause Draft :=
  let name := String.ofList name
  if name.isEmpty then .error .missingModeName
  else if d.reopensInitial name then .ok { d with headers := d.headers + 1 }
  else if name ∈ d.modes.map Prod.fst then .error (.duplicateMode name)
  else .ok ⟨d.modes, name, .empty, d.headers + 1⟩

def addRule (d : Draft) (u : Universe) (name pattern : List Char) (action : Option (List Char)) :
    Except Cause Draft :=
  let name := String.ofList name
  if name.isEmpty then .error .missingRuleName
  else if pattern.isEmpty then .error (.emptyPattern name)
  else
    match Pattern.parseChars u pattern with
    | .error e => .error (.badPattern name e)
    | .ok p => .ok { d with rules := d.rules.register name p (action.map String.ofList) }

def addLine (d : Draft) (u : Universe) : Line → Except Cause Draft
  | .skipped => .ok d
  | .header name => d.addHeader name
  | .arrowless => .error .arrowless
  | .rule name pattern action => d.addRule u name pattern action

/-- Takes lines up to the first that is wrong; the first of them has the given number. -/
def addLines (d : Draft) (u : Universe) : (number : Nat) → List (List Char) → Draft × Option Error
  | _, [] => (d, none)
  | number, line :: rest =>
      match d.addLine u (.read (Text.chopReturn line)) with
      | .error cause => (d, some (.atLine number cause))
      | .ok d => d.addLines u (number + 1) rest

def addModes (l : Lexer) : List (String × RuleSet) → Except Error Lexer
  | [] => .ok l
  | (name, rules) :: rest =>
      match l.addMode name rules with
      | .error e => .error (.lexer e)
      | .ok l => addModes l rest

def addModesEvents (l : Lexer) : List (String × RuleSet) → List Event
  | [] => []
  | (name, rules) :: rest =>
      l.addModeEvents name rules ++
        match l.addMode name rules with
        | .error _ => []
        | .ok l => addModesEvents l rest

end Draft

/-- What the lines of a text make, and what is wrong with the first line that is wrong. -/
def draft (u : Universe) (text : String) : Draft × Option Error :=
  Draft.new.addLines u 1 (Text.lines text.toList)

def compile (u : Universe) (text : String) : Except Error Lexer :=
  match draft u text with
  | (_, some e) => .error e
  | (d, none) => Draft.addModes .empty d.modes

/-- What compiling a rule file reports: the rules up to the first line that is wrong, and the modes
if there is no such line. -/
def compileEvents (u : Universe) (text : String) : List Event :=
  let (d, error) := draft u text
  d.modes.flatMap (fun m => m.2.rules.toList.map fun r => .rule r.index r.name r.pattern) ++
    match error with
    | some _ => []
    | none => Draft.addModesEvents .empty d.modes

end Munch.RuleFile
