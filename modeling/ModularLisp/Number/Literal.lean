import ModularLisp.Number.Decimal
import ModularLisp.Text.Blank
import ModularLisp.Text.DecimalDigit

/-!
# Number literals

A decimal literal is an optional sign, digits with an optional point and further digits, or a point
and at least one digit, then an optional exponent. Digits may be of any script. Besides these a
number text may name infinity or not a number, in any letter case. An integer literal may be of any
length, but only so many digits can be converted into an integer.
-/

namespace ModularLisp

/-- The parts of a decimal literal. -/
structure NumberLiteral where
  negative : Bool
  whole : List Char
  fraction : List Char
  exponent : Int
  deriving DecidableEq, Repr

namespace NumberLiteral

open Text

/-- Splits off a sign. -/
def readSign : List Char → Bool × List Char
  | '-' :: rest => (true, rest)
  | '+' :: rest => (false, rest)
  | cs => (false, cs)

def signed (negative : Bool) (size : Nat) : Int := if negative then -size else size

/-- What follows the digits: nothing, or an exponent up to the end. -/
def readExponent? : List Char → Option Int
  | [] => some 0
  | c :: rest =>
    let (negative, digits) := readSign rest
    if (c == 'e' || c == 'E') && !digits.isEmpty && digits.all isDigit then
      some (signed negative (ofDigits digits))
    else none

/-- The digits after a point, if there is a point, and the rest. -/
def readFraction : List Char → List Char × List Char
  | '.' :: rest => rest.span isDigit
  | cs => ([], cs)

def read? (text : List Char) : Option NumberLiteral :=
  let (negative, body) := readSign text
  let (whole, afterWhole) := body.span isDigit
  let (fraction, afterFraction) := readFraction afterWhole
  if whole.isEmpty && fraction.isEmpty then none
  else (readExponent? afterFraction).map (⟨negative, whole, fraction, ·⟩)

def decimal (l : NumberLiteral) : Decimal :=
  ⟨ofDigits (l.whole ++ l.fraction), l.exponent - l.fraction.length⟩

def value (l : NumberLiteral) : Binary64 := Binary64.ofDecimal l.negative l.decimal

end NumberLiteral

/-- What a number text denotes before rounding. -/
inductive NumberText where
  | decimal (literal : NumberLiteral)
  | infinity (negative : Bool)
  | nan
  deriving DecidableEq, Repr

namespace NumberText

/-- The names of the special values, in any letter case. -/
def special? (negative : Bool) (body : List Char) : Option NumberText :=
  let name := String.ofList (body.map Char.toLower)
  if name = "inf" ∨ name = "infinity" then some (.infinity negative)
  else if name = "nan" then some .nan
  else none

def read? (text : String) : Option NumberText :=
  match NumberLiteral.read? text.toList with
  | some literal => some (.decimal literal)
  | none =>
    let (negative, body) := NumberLiteral.readSign text.toList
    special? negative body

def value : NumberText → Binary64
  | .decimal literal => literal.value
  | .infinity negative => .infinity negative
  | .nan => .nan

end NumberText

def isDecimalLiteral (text : String) : Bool := (NumberLiteral.read? text.toList).isSome

def isNumberText (text : String) : Bool := (NumberText.read? text).isSome

/-- More than fifteen characters, sign included, without point or exponent mark: a literal of this
length is kept as exact integer text. -/
def isLongIntegerText (text : String) : Bool :=
  let cs := text.toList
  !cs.any (fun c => c == '.' || c == 'e' || c == 'E') && 15 < cs.length

namespace IntegerText

/-- The digits of a run in which a single underscore may stand between two digits. -/
def digits? : (afterDigit : Bool) → List Char → Option (List Char)
  | afterDigit, [] => if afterDigit then some [] else none
  | afterDigit, c :: rest =>
    if Text.isDigit c then (digits? true rest).map (c :: ·)
    else if afterDigit && c == '_' then digits? false rest
    else none

theorem digits?_of_all {cs : List Char} (h : ∀ c ∈ cs, Text.isDigit c = true) :
    digits? true cs = some cs := by
  induction cs with
  | nil => rfl
  | cons c rest ih =>
    simp only [List.mem_cons, forall_eq_or_imp] at h
    simp [digits?, h.1, ih h.2]

/-- The most digits that a conversion takes. -/
def maxDigits : Nat := 4300

/-- How many digits a text has behind padding and a sign, up to the first character that is neither
a digit nor an underscore. Leading zeros count; where underscores stand amiss, none do. -/
def digitCount (text : String) : Nat :=
  let (_, body) := NumberLiteral.readSign (Text.trim Text.isPadding text.toList)
  let run := body.takeWhile fun c => Text.isDigit c || c == '_'
  ((digits? false run).map List.length).getD 0

end IntegerText

/-- The integer that a text denotes: an optional sign and digits, however many, which underscores
may group, with padding around them. -/
def integerText? (text : String) : Option Int :=
  let (negative, body) := NumberLiteral.readSign (Text.trim Text.isPadding text.toList)
  (IntegerText.digits? false body).map fun digits =>
    NumberLiteral.signed negative (Text.ofDigits digits)

example : NumberLiteral.read? "-1.e5".toList = some ⟨true, ['1'], [], 5⟩ := by decide
example : isDecimalLiteral "." = false ∧ isDecimalLiteral "1e" = false := by decide
example : isNumberText "+InFiNiTy" = true ∧ isNumberText "in" = false := by decide
example : integerText? "-0042" = some (-42) ∧ integerText? " +1_0" = some 10 := by decide
example : integerText? "1__0" = none ∧ integerText? "1_" = none ∧ integerText? "- 1" = none := by
  decide
example : IntegerText.digitCount " -1_02٣x4" = 4 ∧ IntegerText.digitCount "1__0" = 0 := by
  decide

end ModularLisp
