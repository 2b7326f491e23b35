import ModularLisp.Evaluation.Declaration

/-!
# Evaluation

`step` evaluates one expression with a given evaluator for the expressions inside it; `eval` ties
the knot with fuel, one unit for each level of nesting.
-/

namespace ModularLisp.Evaluation

def step (loader : Option Loader) (ev : Evaluator) : Evaluator := fun e scope =>
  match e with
  | .number x => pure (.number x)
  | .bigNumber text => do
    let n ← guarded (integerOf text)
    pure (.bigNumber n)
  | .string text => pure (.string text)
  | .boolean b => pure (.boolean b)
  | .keyword name => pure (.keyword name)
  | .symbol name => Action.lookup scope name
  | .bracket elements => do
    let vs ← evalAll ev scope elements
    pure (.list vs)
  | .list [] => pure (.list [])
  | .list (head :: arguments) =>
    match head.symbolName?.bind SpecialForm.ofName? with
    | some form => evalForm ev form arguments scope
    | none => evalCall ev head arguments scope
  | .moduleDecl name exports body => evalModule ev name exports body scope
  | .importDecl name => evalImport name scope
  | .requireDecl filename visibility => evalRequire loader ev filename visibility scope
  | .loadDecl filename => evalLoad loader ev filename scope

def eval (loader : Option Loader) : (fuel : Nat) → Evaluator
  | 0 => fun _ _ _ => .outOfFuel
  | fuel + 1 => step loader (eval loader fuel)

/-- Forms one after the other in one scope; the value of the last one, or nil. -/
def evalForms (loader : Option Loader) (fuel : Nat) (scope : FrameId) (forms : List Expr) :
    Action Value :=
  evalBody (eval loader fuel) scope .nil forms

end ModularLisp.Evaluation
