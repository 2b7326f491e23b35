import ModularLisp.Bindings
import ModularLisp.Syntax.Expr

/-!
# Values

What evaluation produces. A namespace holds the exported bindings of a module, reached as
`name.member`. Functions and namespaces have an identity: each creation takes a new stamp. A builtin
belongs to the interpreter that registered it, so it carries that owner's stamp.
-/

namespace ModularLisp

abbrev FrameId := Nat

abbrev Stamp := Nat

inductive Builtin where
  | add
  | sub
  | mul
  | div
  | mod
  | equal
  | notEqual
  | less
  | lessOrEqual
  | greater
  | greaterOrEqual
  | not
  | isNumber
  | isString
  | isList
  | isSymbol
  deriving DecidableEq, Repr

namespace Builtin

def all : List Builtin :=
  [.add, .sub, .mul, .div, .mod, .equal, .notEqual, .less, .lessOrEqual, .greater,
    .greaterOrEqual, .not, .isNumber, .isString, .isList, .isSymbol]

def name : Builtin → String
  | .add => "+"
  | .sub => "-"
  | .mul => "*"
  | .div => "/"
  | .mod => "%"
  | .equal => "="
  | .notEqual => "!="
  | .less => "<"
  | .lessOrEqual => "<="
  | .greater => ">"
  | .greaterOrEqual => ">="
  | .not => "not"
  | .isNumber => "number?"
  | .isString => "string?"
  | .isList => "list?"
  | .isSymbol => "symbol?"

def ofName? (name : String) : Option Builtin := all.find? (·.name = name)

end Builtin

/-- A function with the frame it was created in. -/
structure Closure where
  formals : List String
  body : List Expr
  scope : FrameId
  name : Option String

inductive Value where
  | number (x : Binary64)
  | bigNumber (n : Int)
  | string (text : String)
  | boolean (b : Bool)
  | keyword (name : String)
  | symbol (name : String)
  | list (elements : List Value)
  | nil
  | closure (stamp : Stamp) (closure : Closure)
  | builtin (owner : Stamp) (builtin : Builtin)
  | nameSpace (stamp : Stamp) (name : String) (members : Bindings Value)

instance : Inhabited Value := ⟨.nil⟩

namespace Value

/-- The name of a value's kind. -/
def kind : Value → String
  | .number _ => "number"
  | .bigNumber _ => "bignum"
  | .string _ => "string"
  | .boolean _ => "boolean"
  | .keyword _ => "keyword"
  | .symbol _ => "symbol"
  | .list _ => "list"
  | .nil => "nil"
  | .closure .. => "function"
  | .builtin .. => "function"
  | .nameSpace .. => "namespace"

/-- Only `false` and nil count as false. -/
def isTruthy : Value → Bool
  | .boolean b => b
  | .nil => false
  | _ => true

def list? : Value → Option (List Value)
  | .list elements => some elements
  | _ => none

end Value

example : Builtin.all.map (Builtin.ofName? ·.name) = Builtin.all.map some := by decide

end ModularLisp
