import ModularLisp.Syntax.Token
import ModularLisp.Text.Blank

/-!
# From text to tokens

One pass over the characters with a small state: between tokens, or inside a comment, a bare word, a
string or a string's escape. Only the end of the text can be refused, and only inside a string.
-/

namespace ModularLisp

/-- A string that starts at `position` and is never closed. -/
structure UnterminatedString where
  position : Nat
  deriving DecidableEq, Repr

namespace Lexer

inductive Mode where
  | gap
  | comment
  | atom (reversed : List Char)
  | string (start : Nat) (reversed : List Char)
  | escape (start : Nat) (reversed : List Char)
  deriving DecidableEq, Repr

/-- The tokens so far are kept in reverse order. -/
structure State where
  position : Nat
  mode : Mode
  tokens : List Token
  deriving DecidableEq, Repr

def start : State := ⟨0, .gap, []⟩

/-- The character that a backslash and `c` stand for. -/
def unescape : Char → Char
  | 'n' => '\n'
  | 't' => '\t'
  | 'r' => '\r'
  | c => c

def atomToken (reversed : List Char) : Token := .ofAtom (String.ofList reversed.reverse)
def stringToken (reversed : List Char) : Token := ⟨.string, String.ofList reversed.reverse⟩

/-- What a character outside of words and strings begins, and the tokens with it. -/
def begin (position : Nat) (tokens : List Token) (c : Char) : Mode × List Token :=
  if Text.isBlank c then (.gap, tokens)
  else if c = ';' then (.comment, tokens)
  else if c = '"' then (.string position [], tokens)
  else match Token.ofDelimiter? c with
    | some t => (.gap, t :: tokens)
    | none => (.atom [c], tokens)

/-- The characters that a bare word consists of. -/
def isAtomChar (c : Char) : Bool :=
  !Text.isBlank c && c != ';' && c != '"' && (Token.ofDelimiter? c).isNone

def next (s : State) (c : Char) : Mode × List Token :=
  match s.mode with
  | .gap => begin s.position s.tokens c
  | .comment => (if c = '\n' then .gap else .comment, s.tokens)
  | .atom reversed =>
    if isAtomChar c then (.atom (c :: reversed), s.tokens)
    else begin s.position (atomToken reversed :: s.tokens) c
  | .string start reversed =>
    if c = '"' then (.gap, stringToken reversed :: s.tokens)
    else if c = '\\' then (.escape start reversed, s.tokens)
    else (.string start (c :: reversed), s.tokens)
  | .escape start reversed => (.string start (unescape c :: reversed), s.tokens)

def step (s : State) (c : Char) : State :=
  let after := next s c
  ⟨s.position + 1, after.1, after.2⟩

def finish (s : State) : Except UnterminatedString (List Token) :=
  match s.mode with
  | .gap | .comment => .ok s.tokens.reverse
  | .atom reversed => .ok (atomToken reversed :: s.tokens).reverse
  | .string start _ | .escape start _ => .error ⟨start⟩

/-- The tokens of a text, without an end mark. -/
def run (cs : List Char) : Except UnterminatedString (List Token) :=
  finish (cs.foldl step start)

theorem position_foldl (s : State) (cs : List Char) :
    (cs.foldl step s).position = s.position + cs.length := by
  induction cs generalizing s with
  | nil => rfl
  | cons c cs ih =>
    simp only [List.foldl_cons, ih, step, List.length_cons]
    omega

theorem run_append (cs ds : List Char) :
    run (cs ++ ds) = finish (ds.foldl step (cs.foldl step start)) := by
  rw [run, List.foldl_append]

end Lexer

/-- The tokens of a source text, the end mark last. -/
def Token.ofSource (source : String) : Except UnterminatedString (List Token) :=
  (Lexer.run source.toList).map (· ++ [Token.endOfInput])

example : (Lexer.run "('a \"b\\n\") ; c".toList).toOption =
    some [⟨.openParen, "("⟩, ⟨.quote, "'"⟩, ⟨.symbol, "a"⟩, ⟨.string, "b\n"⟩,
      ⟨.closeParen, ")"⟩] := by decide
example : (Lexer.run "ab\"c".toList).toOption = none := by decide

end ModularLisp
