import ModularLisp.Text.Printable

/-!
# Quoted text in diagnostics

A text is shown between single quotes, or between double quotes when it holds a single quote and no
double one. The quote in use, the backslash and the three common controls get a backslash; every
other character that is not printable is shown by its code point.
-/

namespace ModularLisp.Text

def hexDigit (n : Nat) : Char :=
  if n < 10 then Char.ofNat (48 + n) else Char.ofNat (87 + n)

/-- The last `width` hexadecimal digits of a number. -/
def hexDigits : (width : Nat) → Nat → List Char
  | 0, _ => []
  | width + 1, n => hexDigits width (n / 16) ++ [hexDigit (n % 16)]

def escaped (quote c : Char) : List Char :=
  if c == quote || c == '\\' then ['\\', c]
  else if c == '\n' then ['\\', 'n']
  else if c == '\r' then ['\\', 'r']
  else if c == '\t' then ['\\', 't']
  else if isPrintable c then [c]
  else if c.toNat < 0x100 then '\\' :: 'x' :: hexDigits 2 c.toNat
  else if c.toNat < 0x10000 then '\\' :: 'u' :: hexDigits 4 c.toNat
  else '\\' :: 'U' :: hexDigits 8 c.toNat

def quoteFor (cs : List Char) : Char :=
  if cs.contains '\x27' && !cs.contains '"' then '"' else '\x27'

def quoted (text : String) : String :=
  let cs := text.toList
  let quote := quoteFor cs
  String.ofList (quote :: cs.flatMap (escaped quote) ++ [quote])

example : (quoted "a\n").toList = ['\x27', 'a', '\\', 'n', '\x27'] := by decide
example : (quoted "\x07").toList = ['\x27', '\\', 'x', '0', '7', '\x27'] := by decide

end ModularLisp.Text
