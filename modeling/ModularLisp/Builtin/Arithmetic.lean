import ModularLisp.Error
import ModularLisp.Number.Arithmetic
import ModularLisp.Value.Equality

/-!
# Arithmetic

Arithmetic is exact when an integer of unbounded size takes part and every operand is integral;
otherwise all operands become floating-point numbers first. Division leaves exact arithmetic at the
first remainder.
-/

namespace ModularLisp.Builtin

/-- All arguments as numerals, or an error for the first that is none. -/
def numerals (operation : Builtin) : List Value → Except EvalError (List Numeral)
  | [] => .ok []
  | v :: rest =>
    match v.numeral? with
    | some n => (numerals operation rest).map (n :: ·)
    | none => .error (.numberExpected operation v.kind)

def isExact (ns : List Numeral) : Bool :=
  ns.any (fun n => n matches .integer _) &&
    ns.all fun
      | .integer _ => true
      | .real x => x.toInt?.isSome

def integral : Numeral → Except Fault Int
  | .integer n => .ok n
  | .real x =>
    match x.toInt? with
    | some n => .ok n
    | none => .error .notIntegral

def inexact (operation : Builtin) : Numeral → Except EvalError Binary64
  | .real x => .ok x
  | .integer n =>
    match Binary64.ofInt? n with
    | some x => .ok x
    | none => .error (.operandOutOfRange operation)

inductive Operands where
  | exact (ns : List Int)
  | inexact (xs : List Binary64)

def operands (operation : Builtin) (args : List Value) : Except Error Operands :=
  match numerals operation args with
  | .error e => .error e
  | .ok ns =>
    if isExact ns then
      match ns.mapM integral with
      | .ok ns => .ok (.exact ns)
      | .error f => .error f
    else
      match ns.mapM (inexact operation) with
      | .ok xs => .ok (.inexact xs)
      | .error e => .error e

/-- Refuses fewer arguments than `least`. -/
def atLeast (operation : Builtin) (least : Nat) (args : List Value) : Except Error Unit :=
  if args.length < least then .error (.eval (.builtinAtLeast operation least)) else .ok ()

/-- Refuses any other number of arguments. -/
def exactly (operation : Builtin) (exact : Nat) (args : List Value) : Except Error Unit :=
  if args.length = exact then .ok ()
  else .error (.eval (.builtinExactly operation exact args.length))

def intQuotient (a b : Int) : Except Fault Int :=
  if b = 0 then .error .zeroDivisor else .ok (a.fdiv b)

def intRemainder (a b : Int) : Except Fault Int :=
  if b = 0 then .error .zeroDivisor else .ok (a.fmod b)

def realQuotient (x y : Binary64) : Except Fault Binary64 :=
  if y.isZero then .error .zeroDivisor else .ok (x / y)

def realRemainder (x y : Binary64) : Except Fault Binary64 :=
  if y.isZero then .error .zeroDivisor else .ok (x % y)

def addAll (args : List Value) : Except Error Value := do
  match ← operands .add args with
  | .exact ns => .ok (.bigNumber (ns.foldl (· + ·) 0))
  | .inexact xs => .ok (.number (xs.foldl (· + ·) (.zero false)))

def mulAll (args : List Value) : Except Error Value := do
  match ← operands .mul args with
  | .exact ns => .ok (.bigNumber (ns.foldl (· * ·) 1))
  | .inexact xs => .ok (.number (xs.foldl (· * ·) (.ofInt 1)))

/-- One operand is negated. -/
def subAll (args : List Value) : Except Error Value := do
  atLeast .sub 1 args
  match ← operands .sub args with
  | .exact [n] => .ok (.bigNumber (-n))
  | .exact (n :: ns) => .ok (.bigNumber (ns.foldl (· - ·) n))
  | .exact [] => .ok (.bigNumber 0)
  | .inexact [x] => .ok (.number (-x))
  | .inexact (x :: xs) => .ok (.number (xs.foldl (· - ·) x))
  | .inexact [] => .ok (.number (.zero false))

def divideReals (q : Binary64) : List Binary64 → Except Error Value
  | [] => .ok (.number q)
  | d :: ds =>
    if d.isZero then .error (.eval .divisionByZero)
    else
      match realQuotient q d with
      | .ok q => divideReals q ds
      | .error f => .error f

/-- The rest of an exact division that has left a remainder. -/
def divideByIntegers (q : Binary64) : List Int → Except Error Value
  | [] => .ok (.number q)
  | d :: ds =>
    if d = 0 then .error (.eval .divisionByZero)
    else
      match inexact .div (.integer d) with
      | .error e => .error e
      | .ok x =>
        match realQuotient q x with
        | .ok q => divideByIntegers q ds
        | .error f => .error f

def divideIntegers (q : Int) : List Int → Except Error Value
  | [] => .ok (.bigNumber q)
  | d :: ds =>
    if d = 0 then .error (.eval .divisionByZero)
    else
      match intRemainder q d with
      | .error f => .error f
      | .ok r =>
        if r = 0 then
          match intQuotient q d with
          | .ok q => divideIntegers q ds
          | .error f => .error f
        else
          match inexact .div (.integer q) with
          | .ok x => divideByIntegers x (d :: ds)
          | .error e => .error e

/-- One operand is the divisor of one. -/
def divAll (args : List Value) : Except Error Value := do
  atLeast .div 1 args
  match ← operands .div args with
  | .exact [n] => divideIntegers 1 [n]
  | .exact (n :: ns) => divideIntegers n ns
  | .exact [] => .ok (.bigNumber 1)
  | .inexact [x] => divideReals (.ofInt 1) [x]
  | .inexact (x :: xs) => divideReals x xs
  | .inexact [] => .ok (.number (.ofInt 1))

/-- The remainder that takes the divisor's sign. -/
def modPair (args : List Value) : Except Error Value := do
  exactly .mod 2 args
  match ← operands .mod args with
  | .exact [a, b] =>
    if b = 0 then .error (.eval .divisionByZero)
    else
      match intRemainder a b with
      | .ok r => .ok (.bigNumber r)
      | .error f => .error f
  | .inexact [x, y] =>
    if y.isZero then .error (.eval .divisionByZero)
    else
      match realRemainder x y with
      | .ok r => .ok (.number r)
      | .error f => .error f
  | _ => .error (.eval (.builtinExactly .mod 2 args.length))

end ModularLisp.Builtin
