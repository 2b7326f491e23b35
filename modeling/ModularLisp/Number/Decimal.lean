import ModularLisp.Number.Binary64

/-!
# Decimal forms

`ofDecimal` is the number nearest to `digits * 10 ^ exponent`. `shortest?` goes back: the fewest
digits that read back, of those the nearest to the number, of two equally near the even one.
-/

namespace ModularLisp

/-- The value `digits * 10 ^ exponent`. -/
structure Decimal where
  digits : Nat
  exponent : Int
  deriving DecidableEq, Repr

namespace Decimal

/-- The number of decimal digits. -/
def width (n : Nat) : Nat := (Nat.toDigits 10 n).length

def ratio (d : Decimal) : Nat × Nat :=
  if 0 ≤ d.exponent then (d.digits * tenPow d.exponent.toNat, 1)
  else (d.digits, tenPow (-d.exponent).toNat)

/-- No trailing zeros in the digits; `fuel` is their number. -/
def trimmed : (fuel : Nat) → Decimal → Decimal
  | 0, d => d
  | fuel + 1, d =>
    if d.digits % 10 = 0 then trimmed fuel ⟨d.digits / 10, d.exponent + 1⟩ else d

end Decimal

namespace Binary64

/-- Forms whose leading digit stands above `10 ^ 400` or below `10 ^ -400` are settled at once. -/
def ofDecimal (negative : Bool) (d : Decimal) : Binary64 :=
  let leading := d.exponent + Decimal.width d.digits
  if d.digits = 0 ∨ leading < -400 then zero negative
  else if 400 < leading then .infinity negative
  else ofRatio negative d.ratio.1 d.ratio.2

/-- The decimal exponent of the leading digit of a positive ratio. -/
def leadingExponent (num den : Nat) : Int :=
  let guess : Int := (Decimal.width num : Int) - Decimal.width den
  let power := Decimal.ratio ⟨1, guess⟩
  if power.1 * den ≤ num * power.2 then guess else guess - 1

/-- The points of the grid `10 ^ exponent` next to `num / den` that read back as `x`; the nearer
one first. -/
def readBack (x : Binary64) (num den : Nat) (exponent : Int) : List Decimal :=
  let step := Decimal.ratio ⟨1, exponent⟩
  let scaled := (num * step.2, den * step.1)
  let low := scaled.1 / scaled.2
  let nearest := roundHalfEven scaled.1 scaled.2
  let other := if nearest = low then low + 1 else low
  [nearest, other].map (Decimal.mk · exponent) |>.filter fun d =>
    ofDecimal false d = x ∧ d.digits ≠ 0

/-- The first of the next `count` finer grids with a point that reads back. -/
def searchGrids (x : Binary64) (num den : Nat) : (count : Nat) → Int → Option Decimal
  | 0, _ => none
  | count + 1, exponent =>
    match readBack x num den exponent with
    | d :: _ => some (d.trimmed (Decimal.width d.digits))
    | [] => searchGrids x num den count (exponent - 1)

/-- The shortest decimal of the absolute value; seventeen digits always suffice. -/
def shortest? : Binary64 → Option Decimal
  | .finite _ 0 _ _ => some ⟨0, 0⟩
  | .finite _ mantissa exponent h =>
    let exact := scaleDown mantissa 1 (-exponent)
    searchGrids (.finite false mantissa exponent h) exact.1 exact.2 17
      (leadingExponent exact.1 exact.2)
  | _ => none

end Binary64

example : (Binary64.ofDecimal false ⟨1, -1⟩).shortest? = some ⟨1, -1⟩ := by decide +kernel
example : (Binary64.ofRatio false 1 3).shortest? = some ⟨3333333333333333, -16⟩ := by
  decide +kernel
example : (Binary64.finite false 1 (-1074) (by decide)).shortest? = some ⟨5, -324⟩ := by
  decide +kernel

end ModularLisp
