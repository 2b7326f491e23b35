import ModularLisp.Number.Binary64

/-!
# Floating-point arithmetic

Each operation computes its exact result in units of `2 ^ -1074` and rounds once. `modulo` is the
remainder that takes the divisor's sign.
-/

namespace ModularLisp.Binary64

def neg : Binary64 → Binary64
  | .nan => .nan
  | .infinity negative => .infinity (!negative)
  | .finite negative mantissa exponent h => .finite (!negative) mantissa exponent h

/-- An exact sum of zero is negative only when both terms are. -/
def add (x y : Binary64) : Binary64 :=
  match x.units?, y.units? with
  | some a, some b => ofUnits (x.negative && y.negative) (a + b)
  | some _, none => y
  | none, some _ => x
  | none, none => if x = y then x else .nan

def sub (x y : Binary64) : Binary64 := x.add y.neg

def mul (x y : Binary64) : Binary64 :=
  let negative := x.negative ^^ y.negative
  match x.units?, y.units? with
  | some a, some b => ofRatio negative (a * b).natAbs (unitsPerOne * unitsPerOne)
  | _, _ =>
    if x.isNaN || y.isNaN || x.isZero || y.isZero then .nan else .infinity negative

/-- A quotient by zero is infinite, or no number when the dividend is zero too. -/
def div (x y : Binary64) : Binary64 :=
  let negative := x.negative ^^ y.negative
  match x.units?, y.units? with
  | some a, some b =>
    if b = 0 then (if a = 0 then .nan else .infinity negative)
    else ofRatio negative a.natAbs b.natAbs
  | some _, none => if y.isNaN then .nan else zero negative
  | none, some _ => if x.isNaN then .nan else .infinity negative
  | none, none => .nan

/-- What is left of `x` after the division by `y` cut off toward zero. -/
def remainder (x y : Binary64) : Binary64 :=
  match x.units?, y.units? with
  | some a, some b =>
    if b = 0 then .nan else ofRatio x.negative (a.natAbs % b.natAbs) unitsPerOne
  | some _, none => if y.isNaN then .nan else x
  | none, _ => .nan

def modulo (x y : Binary64) : Binary64 :=
  let r := x.remainder y
  if r.isZero then zero y.negative
  else if r.negative = y.negative then r
  else r.add y

instance : Neg Binary64 := ⟨neg⟩
instance : Add Binary64 := ⟨add⟩
instance : Sub Binary64 := ⟨sub⟩
instance : Mul Binary64 := ⟨mul⟩
instance : Div Binary64 := ⟨div⟩
instance : Mod Binary64 := ⟨modulo⟩

example : ofInt 2 + ofInt 3 = ofInt 5 := by decide +kernel
example : ofInt (-7) % ofInt 3 = ofInt 2 := by decide +kernel
example : zero true + zero false = zero false := by decide +kernel

end ModularLisp.Binary64
