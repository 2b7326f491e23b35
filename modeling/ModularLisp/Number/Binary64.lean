import ModularLisp.Number.Power

/-!
# Binary floating point, 64 bits wide

A number is a sign and a mantissa of at most 53 bits at a binary exponent, an infinity, or not a
number. Each finite value has one representation for each sign of zero, and every value enters
through `ofRatio`, which rounds an exact ratio to the nearest number, a tie to the even mantissa.
-/

namespace ModularLisp

/-- Full mantissas, except at the least exponent. -/
structure Canonical (mantissa : Nat) (exponent : Int) : Prop where
  mantissa_lt : mantissa < twoPow 53
  exponent_ge : -1074 ≤ exponent
  exponent_le : exponent ≤ 971
  full : twoPow 52 ≤ mantissa ∨ exponent = -1074

instance (mantissa : Nat) (exponent : Int) : Decidable (Canonical mantissa exponent) :=
  decidable_of_iff
    (mantissa < twoPow 53 ∧ -1074 ≤ exponent ∧ exponent ≤ 971 ∧
      (twoPow 52 ≤ mantissa ∨ exponent = -1074))
    ⟨fun ⟨a, b, c, d⟩ => ⟨a, b, c, d⟩, fun ⟨a, b, c, d⟩ => ⟨a, b, c, d⟩⟩

inductive Binary64 where
  | nan
  | infinity (negative : Bool)
  | finite (negative : Bool) (mantissa : Nat) (exponent : Int)
      (canonical : Canonical mantissa exponent)
  deriving DecidableEq

namespace Binary64

def zero (negative : Bool) : Binary64 :=
  .finite negative 0 (-1074) (by decide)

instance : Inhabited Binary64 := ⟨zero false⟩

def isNaN : Binary64 → Bool
  | .nan => true
  | _ => false

def isInfinite : Binary64 → Bool
  | .infinity _ => true
  | _ => false

/-- The sign bit; not a number counts as positive. -/
def negative : Binary64 → Bool
  | .nan => false
  | .infinity negative => negative
  | .finite negative _ _ _ => negative

def isZero : Binary64 → Bool
  | .finite _ 0 _ _ => true
  | _ => false

/-- The integer nearest to `num / den`, the even one of two that are equally near. -/
def roundHalfEven (num den : Nat) : Nat :=
  let low := num / den
  let twice := 2 * (num % den)
  if twice < den ∨ twice = den ∧ low % 2 = 0 then low else low + 1

/-- The ratio `num / den` divided by `2 ^ exponent`. -/
def scaleDown (num den : Nat) (exponent : Int) : Nat × Nat :=
  if 0 ≤ exponent then (num, den * twoPow exponent.toNat) else (num * twoPow (-exponent).toNat, den)

/-- The binary exponent at which a positive ratio has a 53-bit integer part, or the least one. -/
def exponentOf (num den : Nat) : Int :=
  let guess := max ((Nat.log2 num : Int) - Nat.log2 den - 53) (-1074)
  let scaled := scaleDown num den guess
  if scaled.1 / scaled.2 < twoPow 53 then guess else guess + 1

/-- A mantissa that does not fit its exponent is beyond the range. -/
def pack (negative : Bool) (mantissa : Nat) (exponent : Int) : Binary64 :=
  if h : Canonical mantissa exponent then .finite negative mantissa exponent h
  else .infinity negative

/-- The number nearest to `num / den` with the given sign. -/
def ofRatio (negative : Bool) (num den : Nat) : Binary64 :=
  if num = 0 then zero negative
  else
    let exponent := exponentOf num den
    let scaled := scaleDown num den exponent
    let mantissa := roundHalfEven scaled.1 scaled.2
    if mantissa = twoPow 53 then pack negative (twoPow 52) (exponent + 1)
    else pack negative mantissa exponent

/-- Every finite number is a multiple of `2 ^ -1074`; the size of that multiple. -/
def magnitude (mantissa : Nat) (exponent : Int) : Nat :=
  mantissa * twoPow (exponent + 1074).toNat

/-- The number of units of `2 ^ -1074` in one. -/
def unitsPerOne : Nat := twoPow 1074

/-- A finite number in units of `2 ^ -1074`. -/
def units? : Binary64 → Option Int
  | .finite negative mantissa exponent _ =>
    let size : Int := magnitude mantissa exponent
    some (if negative then -size else size)
  | _ => none

/-- The number nearest to a count of units, with `negative` the sign of a zero. -/
def ofUnits (negative : Bool) (units : Int) : Binary64 :=
  if units = 0 then zero negative else ofRatio (units < 0) units.natAbs unitsPerOne

def ofInt (n : Int) : Binary64 := ofRatio (n < 0) n.natAbs 1

/-- Nothing when the rounded integer is beyond the range. -/
def ofInt? (n : Int) : Option Binary64 :=
  let x := ofInt n
  if x.isInfinite then none else some x

def ofNat (n : Nat) : Binary64 := ofInt n

/-- The integer that a number is, if it is one. -/
def toInt? (x : Binary64) : Option Int :=
  x.units?.bind fun units =>
    if units % unitsPerOne = 0 then some (units / unitsPerOne) else none

end Binary64

example : Binary64.ofInt 1 = .finite false (twoPow 52) (-52) (by decide) := by decide
example : Binary64.ofInt (2 ^ 53 + 1) = Binary64.ofInt (2 ^ 53) := by decide
example : Binary64.ofInt? (2 ^ 1024) = none := by decide +kernel
example : (Binary64.ofInt (-7)).toInt? = some (-7) := by decide +kernel

end ModularLisp
