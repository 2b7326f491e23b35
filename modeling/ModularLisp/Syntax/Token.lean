import ModularLisp.Number.Literal
import ModularLisp.Text.Quoted

/-!
# Tokens

A token is a kind and a text. Delimiters and the quote mark carry their own character, a string its
characters without quotes and escapes, a keyword its name without the colon.
-/

namespace ModularLisp

inductive TokenKind where
  | number
  | string
  | boolean
  | symbol
  | keyword
  | openParen
  | closeParen
  | openBracket
  | closeBracket
  | quote
  | endOfInput
  deriving DecidableEq, Repr

structure Token where
  kind : TokenKind
  text : String
  deriving DecidableEq, Repr

namespace TokenKind

/-- The name of a kind in diagnostics. -/
def label : TokenKind → String
  | .number => "number"
  | .string => "string"
  | .boolean => "boolean"
  | .symbol => "symbol"
  | .keyword => "keyword"
  | .openParen => "lparen"
  | .closeParen => "rparen"
  | .openBracket => "lbracket"
  | .closeBracket => "rbracket"
  | .quote => "quote"
  | .endOfInput => "eof"

end TokenKind

namespace Token

def endOfInput : Token := ⟨.endOfInput, ""⟩

/-- The tokens that stand for one character each. -/
def ofDelimiter? : Char → Option Token
  | '(' => some ⟨.openParen, "("⟩
  | ')' => some ⟨.closeParen, ")"⟩
  | '[' => some ⟨.openBracket, "["⟩
  | ']' => some ⟨.closeBracket, "]"⟩
  | '\x27' => some ⟨.quote, "'"⟩
  | _ => none

/-- A bare word is a number, a boolean, a keyword or else a symbol. -/
def ofAtom (text : String) : Token :=
  if isDecimalLiteral text then ⟨.number, text⟩
  else if text = "true" ∨ text = "false" then ⟨.boolean, text⟩
  else match text.toList with
    | ':' :: c :: rest => ⟨.keyword, String.ofList (c :: rest)⟩
    | _ => ⟨.symbol, text⟩

def describe (t : Token) : String :=
  if t.kind = .endOfInput then "end of input"
  else t.kind.label ++ " " ++ Text.quoted t.text

end Token

example : Token.ofAtom ":as" = ⟨.keyword, "as"⟩ ∧ Token.ofAtom ":" = ⟨.symbol, ":"⟩ := by decide
example : Token.ofAtom "-1e3" = ⟨.number, "-1e3"⟩ ∧ Token.ofAtom "-" = ⟨.symbol, "-"⟩ := by decide

end ModularLisp
