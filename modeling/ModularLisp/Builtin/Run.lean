import ModularLisp.Builtin.Arithmetic

/-!
# Builtin functions

Comparison, equality and the tests of kind, and the application of a builtin to its arguments. A
comparison of several arguments holds when it holds between neighbours.
-/

namespace ModularLisp.Builtin

/-- Whether a relation holds between all neighbours. -/
def betweenNeighbours (relation : Numeral → Numeral → Bool) : List Numeral → Bool
  | a :: b :: rest => relation a b && betweenNeighbours relation (b :: rest)
  | _ => true

def compareAll (operation : Builtin) (relation : Numeral → Numeral → Bool) (args : List Value) :
    Except Error Value := do
  atLeast operation 2 args
  match numerals operation args with
  | .ok ns => .ok (.boolean (betweenNeighbours relation ns))
  | .error e => .error e

/-- Every other argument is compared with the first. -/
def equalAll (args : List Value) : Except Error Value := do
  atLeast .equal 1 args
  match args with
  | v :: rest => .ok (.boolean (rest.all v.same))
  | [] => .ok (.boolean true)

def notEqualPair (args : List Value) : Except Error Value := do
  exactly .notEqual 2 args
  match args with
  | [v, w] => .ok (.boolean (!v.same w))
  | _ => .ok (.boolean true)

def test (operation : Builtin) (holds : Value → Bool) (args : List Value) :
    Except Error Value := do
  exactly operation 1 args
  .ok (.boolean (args.all holds))

def run : Builtin → List Value → Except Error Value
  | .add => addAll
  | .sub => subAll
  | .mul => mulAll
  | .div => divAll
  | .mod => modPair
  | .equal => equalAll
  | .notEqual => notEqualPair
  | .less => compareAll .less Numeral.lt
  | .lessOrEqual => compareAll .lessOrEqual Numeral.le
  | .greater => compareAll .greater Numeral.gt
  | .greaterOrEqual => compareAll .greaterOrEqual Numeral.ge
  | .not => test .not fun v => !v.isTruthy
  | .isNumber => test .isNumber fun v => v.numeral?.isSome
  | .isString => test .isString fun v => (v matches .string _)
  | .isList => test .isList fun v => (v matches .list _)
  | .isSymbol => test .isSymbol fun v => (v matches .symbol _)

end ModularLisp.Builtin
