import ModularLisp.Syntax.Declaration
import ModularLisp.Syntax.Lexer

/-!
# From tokens to expressions

One pass over the tokens with a stack of what is still open: parentheses and brackets with the
elements read so far, and quotes that wait for their expression. A complete expression discharges
the quotes on top of the stack and joins the sequence below them.
-/

namespace ModularLisp

inductive Enclosure where
  | parenthesis
  | bracket
  deriving DecidableEq, Repr

inductive ReadError where
  | unterminatedString (position : Nat)
  | emptyInput
  | invalidNumber (text : String)
  | numberOutOfRange (text : String)
  | invalidBoolean (text : String)
  | unexpectedEnd
  | unexpectedClosing (enclosure : Enclosure)
  | unmatchedOpening (enclosure : Enclosure)
  | trailingToken (token : Token)
  | malformed (form : MalformedForm)
  deriving DecidableEq, Repr

def Enclosure.name : Enclosure → String
  | .parenthesis => "parenthesis"
  | .bracket => "bracket"

def ReadError.message : ReadError → String
  | .unterminatedString position => "Unterminated string starting at " ++ toString position
  | .emptyInput => "empty input"
  | .invalidNumber text => "invalid number: " ++ text
  | .numberOutOfRange text => "invalid number: " ++ text ++ " (out of range)"
  | .invalidBoolean text => "invalid boolean value: " ++ text
  | .unexpectedEnd => "unexpected token: " ++ Token.endOfInput.describe
  | .unexpectedClosing enclosure => "unexpected closing " ++ enclosure.name
  | .unmatchedOpening enclosure => "unmatched opening " ++ enclosure.name
  | .trailingToken token => "unexpected token after expression: " ++ token.describe
  | .malformed form => form.message

namespace Parser

/-- Something open: a sequence with its elements in reverse, or a quote. -/
inductive Level where
  | sequence (enclosure : Enclosure) (reversed : List Expr)
  | quote

/-- The open levels, innermost first, and the finished forms in reverse. -/
structure State where
  levels : List Level
  forms : List Expr

def start : State := ⟨[], []⟩

def quoted (e : Expr) : Expr := .list [.symbol "quote", e]

/-- A complete expression goes to the innermost sequence, or to the forms if none is open. -/
def deliver (forms : List Expr) : List Level → Expr → State
  | [], e => ⟨[], e :: forms⟩
  | .quote :: levels, e => deliver forms levels (quoted e)
  | .sequence enclosure reversed :: levels, e =>
    ⟨.sequence enclosure (e :: reversed) :: levels, forms⟩

def State.nest (s : State) (level : Level) : State := ⟨level :: s.levels, s.forms⟩

def State.accept (s : State) (e : Expr) : State := deliver s.forms s.levels e

def numberOf (text : String) : Except ReadError Expr :=
  match NumberText.read? text with
  | none => .error (.invalidNumber text)
  | some (.decimal literal) =>
    let x := literal.value
    if x.isInfinite then .error (.numberOutOfRange text)
    else .ok (if isLongIntegerText text then .bigNumber text else .number x)
  | some special => .ok (.number special.value)

def booleanOf (text : String) : Except ReadError Expr :=
  if text = "true" then .ok (.boolean true)
  else if text = "false" then .ok (.boolean false)
  else .error (.invalidBoolean text)

def sequenceOf (enclosure : Enclosure) (elements : List Expr) : Except ReadError Expr :=
  match enclosure with
  | .parenthesis => (Declaration.ofElements elements).mapError .malformed
  | .bracket => .ok (.bracket elements)

def State.close (s : State) (enclosure : Enclosure) : Except ReadError State :=
  match s.levels with
  | .sequence opened reversed :: levels =>
    if opened = enclosure then
      (sequenceOf enclosure reversed.reverse).map (deliver s.forms levels)
    else .error (.unexpectedClosing enclosure)
  | _ => .error (.unexpectedClosing enclosure)

def step (s : State) (t : Token) : Except ReadError State :=
  match t.kind with
  | .number => (numberOf t.text).map s.accept
  | .string => .ok (s.accept (.string t.text))
  | .boolean => (booleanOf t.text).map s.accept
  | .symbol => .ok (s.accept (.symbol t.text))
  | .keyword => .ok (s.accept (.keyword t.text))
  | .openParen => .ok (s.nest (.sequence .parenthesis []))
  | .openBracket => .ok (s.nest (.sequence .bracket []))
  | .quote => .ok (s.nest .quote)
  | .closeParen => s.close .parenthesis
  | .closeBracket => s.close .bracket
  | .endOfInput => .ok s

def finish (s : State) : Except ReadError (List Expr) :=
  match s.levels with
  | [] => .ok s.forms.reverse
  | .quote :: _ => .error .unexpectedEnd
  | .sequence enclosure _ :: _ => .error (.unmatchedOpening enclosure)

/-- The tokens before the first end mark. -/
def untilEnd (tokens : List Token) : List Token :=
  tokens.takeWhile fun t => t.kind ≠ .endOfInput

/-- All expressions of a token list. -/
def parseAll (tokens : List Token) : Except ReadError (List Expr) := do
  finish (← (untilEnd tokens).foldlM step start)

/-- A step that refuses everything after one complete expression. -/
def stepOnce (s : State) (t : Token) : Except ReadError State :=
  match s.levels, s.forms with
  | [], _ :: _ => .error (.trailingToken t)
  | _, _ => step s t

/-- The one expression that a token list consists of. -/
def parse (tokens : List Token) : Except ReadError Expr := do
  match ← finish (← (untilEnd tokens).foldlM stepOnce start) with
  | e :: _ => .ok e
  | [] => .error .emptyInput

end Parser

namespace Expr

def tokens (source : String) : Except ReadError (List Token) :=
  (Token.ofSource source).mapError fun e => .unterminatedString e.position

/-- The one expression of a source text. -/
def read (source : String) : Except ReadError Expr := do Parser.parse (← tokens source)

/-- All expressions of a source text. -/
def readAll (source : String) : Except ReadError (List Expr) := do Parser.parseAll (← tokens source)

end Expr

end ModularLisp
