import ModularLisp.Error

/-!
# Quoted expressions

The value that an expression denotes when it is quoted. A declaration denotes the list that it was
read from. An integer literal with too many digits has been read, and is refused only here.
-/

namespace ModularLisp

/-- The integer of a long literal. The digits are counted before what follows them is looked at. -/
def integerOf (text : String) : Except Fault Int :=
  let count := IntegerText.digitCount text
  if IntegerText.maxDigits < count then .error (.tooManyDigits count)
  else
    match integerText? text with
    | some n => .ok n
    | none => .error (.notIntegerText text)

namespace Expr

def symbols (names : List String) : List Value := names.map .symbol

def modifiers : Visibility → List Value
  | .all => []
  | .qualified qualifier => [.keyword "as", .symbol qualifier]
  | .only names => [.keyword "only", .list (symbols names)]

mutual

def datum : Expr → Except Fault Value
  | .number x => .ok (.number x)
  | .bigNumber text => (integerOf text).map .bigNumber
  | .string text => .ok (.string text)
  | .boolean b => .ok (.boolean b)
  | .symbol name => .ok (.symbol name)
  | .keyword name => .ok (.keyword name)
  | .list elements => (datumAll elements).map .list
  | .bracket elements => (datumAll elements).map .list
  | .moduleDecl name exports body =>
    (datumAll body).map fun forms =>
      .list (.symbol "module" :: .symbol name :: .list (symbols ("export" :: exports)) :: forms)
  | .importDecl name => .ok (.list [.symbol "import", .symbol name])
  | .loadDecl filename => .ok (.list [.symbol "load", .string filename])
  | .requireDecl filename visibility =>
    .ok (.list (.symbol "require" :: .string filename :: modifiers visibility))

def datumAll : List Expr → Except Fault (List Value)
  | [] => .ok []
  | e :: rest => do
    let v ← datum e
    let vs ← datumAll rest
    .ok (v :: vs)

end

end Expr

end ModularLisp
