import ModularLisp.Number.Binary64

/-!
# Numbers of both kinds and their order

A numeral is a floating-point number or an integer of any size. The two kinds compare by exact
value, without rounding the integer; not a number compares with nothing.
-/

namespace ModularLisp

/-- A point of the extended line, in units of `2 ^ -1074`. -/
inductive Extended where
  | below
  | point (units : Int)
  | above
  deriving DecidableEq, Repr

def Extended.le : Extended → Extended → Bool
  | .below, _ => true
  | _, .above => true
  | .point a, .point b => a ≤ b
  | _, _ => false

def Extended.lt (a b : Extended) : Bool := !b.le a

inductive Numeral where
  | real (x : Binary64)
  | integer (n : Int)
  deriving DecidableEq

def Binary64.extended? : Binary64 → Option Extended
  | .nan => none
  | .infinity negative => some (if negative then .below else .above)
  | .finite negative mantissa exponent h =>
    (units? (.finite negative mantissa exponent h)).map .point

namespace Numeral

def extended? : Numeral → Option Extended
  | .real x => x.extended?
  | .integer n => some (.point (n * Binary64.unitsPerOne))

def compareBy (relation : Extended → Extended → Bool) (a b : Numeral) : Bool :=
  match a.extended?, b.extended? with
  | some x, some y => relation x y
  | _, _ => false

def lt : Numeral → Numeral → Bool := compareBy Extended.lt
def le : Numeral → Numeral → Bool := compareBy Extended.le
def gt (a b : Numeral) : Bool := b.lt a
def ge (a b : Numeral) : Bool := b.le a
def same : Numeral → Numeral → Bool := compareBy (· == ·)

def isZero : Numeral → Bool
  | .real x => x.isZero
  | .integer n => n == 0

end Numeral

example : (Numeral.integer (2 ^ 53 + 1)).same (.real (.ofInt (2 ^ 53))) = false := by decide +kernel
example : (Numeral.real .nan).same (.real .nan) = false := by decide
example : (Numeral.integer (10 ^ 400)).lt (.real (.infinity false)) = true := by decide +kernel

end ModularLisp
