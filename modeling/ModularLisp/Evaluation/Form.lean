import ModularLisp.Action
import ModularLisp.Builtin.Run
import ModularLisp.Value.Datum

/-!
# Special forms

The forms that evaluate their arguments by rules of their own. Each is written over an evaluator for
the expressions inside it.
-/

namespace ModularLisp

abbrev Evaluator := Expr → FrameId → Action Value

inductive SpecialForm where
  | quote
  | define
  | set
  | lambda
  | conditional
  | bindLocally
  | sequence
  | conjunction
  | disjunction
  | list
  | isEmpty
  | length
  | first
  | rest
  | cons
  deriving DecidableEq, Repr

/-- The form that a head symbol names; these names cannot be rebound. -/
def SpecialForm.ofName? (name : String) : Option SpecialForm :=
  match name with
  | "quote" => some .quote
  | "define" => some .define
  | "set" => some .set
  | "lambda" => some .lambda
  | "if" => some .conditional
  | "let" => some .bindLocally
  | "do" => some .sequence
  | "begin" => some .sequence
  | "and" => some .conjunction
  | "or" => some .disjunction
  | "list" => some .list
  | "empty?" => some .isEmpty
  | "length" => some .length
  | "first" => some .first
  | "rest" => some .rest
  | "cons" => some .cons
  | _ => none

namespace Evaluation

variable (ev : Evaluator)

def fail {α : Type} (e : EvalError) : Action α := .throw (.eval e)

def lift {α : Type} : Except EvalError α → Action α
  | .ok a => .pure a
  | .error e => fail e

def guarded {α : Type} : Except Fault α → Action α
  | .ok a => .pure a
  | .error f => .throw (.fault f)

/-- The values of expressions, left to right. -/
def evalAll (scope : FrameId) : List Expr → Action (List Value)
  | [] => pure []
  | e :: rest => do
    let v ← ev e scope
    let vs ← evalAll scope rest
    pure (v :: vs)

/-- The value of the last expression, or `last` if there is none. -/
def evalBody (scope : FrameId) (last : Value) : List Expr → Action Value
  | [] => pure last
  | e :: rest => do
    let v ← ev e scope
    evalBody scope v rest

/-- Stops at the first value that `stops`. -/
def evalUntil (stops : Value → Bool) (scope : FrameId) (last : Value) : List Expr → Action Value
  | [] => pure last
  | e :: rest => do
    let v ← ev e scope
    if stops v then pure v else evalUntil stops scope v rest

def apply (f : Value) (args : List Value) : Action Value :=
  match f with
  | .closure _ c => do
    let scope ← Action.enter c args
    evalBody ev scope .nil c.body
  | .builtin _ b => Action.ofExcept (b.run args)
  | v => fail (.notApplicable v.display v.kind)

def evalCall (head : Expr) (arguments : List Expr) (scope : FrameId) : Action Value := do
  let f ← ev head scope
  let args ← evalAll ev scope arguments
  apply ev f args

def evalQuote : List Expr → Action Value
  | [e] => guarded e.datum
  | _ => fail .quoteArity

def evalDefine (scope : FrameId) : List Expr → Action Value
  | [target, e] =>
    match target.symbolName? with
    | some name => do
      let v ← ev e scope
      Action.define scope (.text name) v
      pure .nil
    | none => fail (.defineTarget target)
  | _ => fail .defineArity

def evalSet (scope : FrameId) : List Expr → Action Value
  | [target, e] =>
    match target.symbolName? with
    | some name => do
      let v ← ev e scope
      Action.set scope name v
      pure v
    | none => fail (.setTarget target)
  | _ => fail .setArity

/-- Distinct symbols; `seen` are the ones before. -/
def parameters (seen : List String) : List Expr → Except EvalError (List String)
  | [] => .ok seen
  | e :: rest =>
    match e.symbolName? with
    | some name =>
      if name ∈ seen then .error (.parameterRepeated name) else parameters (seen ++ [name]) rest
    | none => .error (.parameterExpected e)

def evalLambda (scope : FrameId) : List Expr → Action Value
  | [] => fail .lambdaArity
  | header :: body =>
    match header.elements? with
    | some es => do
      let formals ← lift (parameters [] es)
      let stamp ← Action.stamp
      pure (.closure stamp ⟨formals, body, scope, none⟩)
    | none => fail .parametersExpected

/-- A name and its initial expression. -/
def bindingOf (binding : Expr) : Except EvalError (String × Expr) :=
  match binding.elements? with
  | some [name, e] =>
    match name.symbolName? with
    | some name => .ok (name, e)
    | none => .error (.bindingName name)
  | _ => .error (.bindingExpected binding)

/-- Each binding is checked just before its initial expression is evaluated. -/
def evalBindings (scope : FrameId) : List Expr → Action (List (String × Value))
  | [] => pure []
  | binding :: rest => do
    let (name, e) ← lift (bindingOf binding)
    let v ← ev e scope
    let bound ← evalBindings scope rest
    pure ((name, v) :: bound)

def evalLet (scope : FrameId) : List Expr → Action Value
  | [] => fail .letArity
  | header :: body =>
    match header.elements? with
    | some bindings => do
      let bound ← evalBindings ev scope bindings
      let inner ← Action.openScope scope
      Action.defineAll inner bound
      evalBody ev inner .nil body
    | none => fail .bindingsExpected

def evalConditional (scope : FrameId) : List Expr → Action Value
  | [condition, consequent] => do
    let v ← ev condition scope
    if v.isTruthy then ev consequent scope else pure .nil
  | [condition, consequent, alternative] => do
    let v ← ev condition scope
    if v.isTruthy then ev consequent scope else ev alternative scope
  | _ => fail .conditionalArity

def expectList (form position : String) (v : Value) : Action (List Value) :=
  match v.list? with
  | some elements => pure elements
  | none => fail (.listExpected form position v.kind)

/-- The elements of a form's only argument. -/
def evalOnlyList (form : String) (scope : FrameId) : List Expr → Action (List Value)
  | [e] => do
    let v ← ev e scope
    expectList form "argument" v
  | es => fail (.listFormArity form 1 es.length)

def evalIsEmpty (scope : FrameId) (arguments : List Expr) : Action Value := do
  let elements ← evalOnlyList ev "empty?" scope arguments
  pure (.boolean elements.isEmpty)

def evalLength (scope : FrameId) (arguments : List Expr) : Action Value := do
  let elements ← evalOnlyList ev "length" scope arguments
  pure (.number (.ofNat elements.length))

def evalFirst (scope : FrameId) (arguments : List Expr) : Action Value := do
  match ← evalOnlyList ev "first" scope arguments with
  | v :: _ => pure v
  | [] => fail (.emptyList "first")

def evalRest (scope : FrameId) (arguments : List Expr) : Action Value := do
  match ← evalOnlyList ev "rest" scope arguments with
  | _ :: vs => pure (.list vs)
  | [] => fail (.emptyList "rest")

def evalCons (scope : FrameId) : List Expr → Action Value
  | [head, tail] => do
    let v ← ev head scope
    let w ← ev tail scope
    let elements ← expectList "cons" "second argument" w
    pure (.list (v :: elements))
  | es => fail (.listFormArity "cons" 2 es.length)

def evalForm (form : SpecialForm) (arguments : List Expr) (scope : FrameId) : Action Value :=
  match form with
  | .quote => evalQuote arguments
  | .define => evalDefine ev scope arguments
  | .set => evalSet ev scope arguments
  | .lambda => evalLambda scope arguments
  | .conditional => evalConditional ev scope arguments
  | .bindLocally => evalLet ev scope arguments
  | .sequence => evalBody ev scope .nil arguments
  | .conjunction => evalUntil ev (fun v => !v.isTruthy) scope (.boolean true) arguments
  | .disjunction => evalUntil ev (fun v => v.isTruthy) scope (.boolean false) arguments
  | .list => do
    let vs ← evalAll ev scope arguments
    pure (.list vs)
  | .isEmpty => evalIsEmpty ev scope arguments
  | .length => evalLength ev scope arguments
  | .first => evalFirst ev scope arguments
  | .rest => evalRest ev scope arguments
  | .cons => evalCons ev scope arguments

end Evaluation

end ModularLisp
