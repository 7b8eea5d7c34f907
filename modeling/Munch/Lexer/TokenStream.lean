import Munch.Lexer.Basic

/-!
The tokens of an input.

A stream stands at a position of its input and gives the match of the active mode there, again and
again, until the input ends or nothing matches.  Such a failure is given once and ends the stream.
The mode may be switched between tokens.
-/

set_option autoImplicit false

namespace Munch

/-- Why a stream ends before its input does. -/
inductive ScanError where
  /-- No rule of the active mode matches at the position, where the byte stands. -/
  | unexpectedByte (byte : UInt8) (pos : Nat)
  | lexer (error : Lexer.Error)
  deriving DecidableEq

def ScanError.message : ScanError → String
  | .unexpectedByte byte pos =>
      "unexpected byte '" ++ String.ofList (Text.escapeByte byte) ++ "' at " ++ toString pos
  | .lexer error => error.message

structure TokenStream where
  lexer : Lexer
  input : List UInt8
  pos : Nat
  done : Bool

namespace TokenStream

def start (l : Lexer) (input : List UInt8) : TokenStream :=
  ⟨l, input, 0, false⟩

/-- The next token or the failure that ends the stream; nothing after the end. -/
def next (s : TokenStream) : Option (Except ScanError Token) × TokenStream :=
  if s.done then (none, s)
  else
    match s.lexer.find s.input s.pos with
    | .error e => (some (.error (.lexer e)), { s with done := true })
    | .ok (.matched token, lexer) => (some (.ok token), { s with lexer, pos := token.stop })
    | .ok (.endOfInput, lexer) => (none, { s with lexer, done := true })
    | .ok (.noMatch, lexer) =>
        (some (.error (.unexpectedByte (s.input[s.pos]?.getD 0) s.pos)),
          { s with lexer, done := true })

def nextEvents (s : TokenStream) : List Event :=
  if s.done then [] else s.lexer.findEvents

def setMode (s : TokenStream) (name : String) : Except Lexer.Error TokenStream :=
  (s.lexer.setMode name).map fun lexer => { s with lexer }

/-- What a run of a stream comes upon. -/
inductive Item where
  | token (token : Token)
  | failure (error : ScanError)
  | refused (error : Lexer.Error)
  deriving DecidableEq

abbrev Switching := String → Option String

/-- What comes of a token: a switch of the mode, if its rule asks for one, and a refusal if there is
no such mode. -/
def afterToken (switching : Switching) (s : TokenStream) (token : Token) :
    List Item × TokenStream :=
  match switching token.rule with
  | none => ([], s)
  | some name =>
      match s.setMode name with
      | .ok s => ([], s)
      | .error e => ([.refused e], s)

def afterTokenEvents (switching : Switching) (s : TokenStream) (token : Token) : List Event :=
  match switching token.rule with
  | none => []
  | some name => s.lexer.setModeEvents name

def runFor (switching : Switching) : (steps : Nat) → TokenStream → List Item × TokenStream
  | 0, s => ([], s)
  | steps + 1, s =>
      match s.next with
      | (none, s) => ([], s)
      | (some (.error e), s) =>
          let (items, s) := runFor switching steps s
          (.failure e :: items, s)
      | (some (.ok token), s) =>
          let (refusals, s) := afterToken switching s token
          let (items, s) := runFor switching steps s
          (.token token :: (refusals ++ items), s)

def runEvents (switching : Switching) : (steps : Nat) → TokenStream → List Event
  | 0, _ => []
  | steps + 1, s =>
      s.nextEvents ++
        match s.next with
        | (none, _) => []
        | (some (.error _), s) => runEvents switching steps s
        | (some (.ok token), s) =>
            afterTokenEvents switching s token ++
              runEvents switching steps (afterToken switching s token).2

/-- As many steps as a run can take: every token takes a byte, and a failure and the end follow. -/
def steps (s : TokenStream) : Nat :=
  s.input.length + 2

def run (switching : Switching) (s : TokenStream) : List Item × TokenStream :=
  runFor switching s.steps s

end TokenStream

end Munch
