import ModularLisp.Number.Decimal

/-!
# Written numbers

The text of a floating-point number is its shortest decimal, positional when the leading digit
stands for at least `10 ^ -4` and less than `10 ^ 16`, scientific otherwise. A value is displayed
more briefly: an integral number below `10 ^ 16` without a point.
-/

namespace ModularLisp

namespace Decimal

/-- Where positional notation begins and ends, and how many digits an exponent has at least. -/
structure Style where
  leastPositional : Int
  positionalBelow : Int
  exponentWidth : Nat

def style : Style := ⟨-4, 16, 2⟩

def zeros (n : Nat) : String := String.ofList (List.replicate n '0')

/-- Digits with a point so that they mean `digits * 10 ^ exponent`. -/
def positional (digits : List Char) (exponent : Int) : String :=
  if 0 ≤ exponent then String.ofList digits ++ zeros exponent.toNat ++ ".0"
  else
    let places := (-exponent).toNat
    if places < digits.length then
      String.ofList (digits.take (digits.length - places)) ++ "." ++
        String.ofList (digits.drop (digits.length - places))
    else "0." ++ zeros (places - digits.length) ++ String.ofList digits

def scientific (digits : List Char) (leading : Int) : String :=
  let fraction := digits.drop 1
  let size := toString leading.natAbs
  String.ofList (digits.take 1) ++
    (if fraction = [] then "" else "." ++ String.ofList fraction) ++
    "e" ++ (if leading < 0 then "-" else "+") ++
    zeros (style.exponentWidth - size.length) ++ size

def text (d : Decimal) : String :=
  let digits := (toString d.digits).toList
  let leading := d.exponent + digits.length - 1
  if style.leastPositional ≤ leading ∧ leading < style.positionalBelow then
    positional digits d.exponent
  else scientific digits leading

end Decimal

namespace Binary64

def sign (negative : Bool) : String := if negative then "-" else ""

def text (x : Binary64) : String :=
  match x.shortest? with
  | some d => sign x.negative ++ d.text
  | none => if x.isNaN then "nan" else sign x.negative ++ "inf"

def display (x : Binary64) : String :=
  match x.toInt? with
  | some n => if n.natAbs < tenPow 16 then toString n else x.text
  | none => x.text

end Binary64

example : Decimal.text ⟨15, -8⟩ = "1.5e-07" := by decide +kernel
example : Decimal.text ⟨1, 15⟩ = "1000000000000000.0" := by decide +kernel
example : Decimal.text ⟨125, -5⟩ = "0.00125" := by decide +kernel

end ModularLisp
