import ModularLisp.Number.Order
import ModularLisp.Value.Basic

/-!
# Equality of values

Numbers of both kinds are equal by exact value, lists element by element, functions and namespaces
by identity, and everything else by kind and content.
-/

namespace ModularLisp.Value

def numeral? : Value → Option Numeral
  | .number x => some (.real x)
  | .bigNumber n => some (.integer n)
  | _ => none

mutual

/-- Numbers have no identity here and are compared by value only. So `nan` is unequal to itself,
alone or inside a list, whether or not both sides are the same occurrence of it. On every value in
which no `nan` occurs equality is reflexive, and a test of identity first would change nothing. -/
def same : Value → Value → Bool
  | .number x, b => (b.numeral?.map (Numeral.real x).same).getD false
  | .bigNumber n, b => (b.numeral?.map (Numeral.integer n).same).getD false
  | .string s, .string t => s == t
  | .boolean s, .boolean t => s == t
  | .keyword s, .keyword t => s == t
  | .symbol s, .symbol t => s == t
  | .list xs, .list ys => sameAll xs ys
  | .nil, .nil => true
  | .closure s _, .closure t _ => s == t
  | .builtin s a, .builtin t b => s == t && a == b
  | .nameSpace s _ _, .nameSpace t _ _ => s == t
  | _, _ => false

def sameAll : List Value → List Value → Bool
  | [], [] => true
  | x :: xs, y :: ys => same x y && sameAll xs ys
  | _, _ => false

end

example : same (.list [.bigNumber 5, .nil]) (.list [.number (.ofInt 5), .nil]) = true := by
  decide +kernel
example : same (.keyword "a") (.symbol "a") = false := by decide

end ModularLisp.Value
